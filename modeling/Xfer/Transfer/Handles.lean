import Xfer.Process.Monitor
import Xfer.Transfer.Phases

/-! # Open files

Whatever its system calls come back with, a party has at most one file open at a
time, uses it while it is open only, and has closed it when it returns.
-/

namespace Xfer.Transfer

open Net Common Posix Process Code Monitor

/-- What a party has open: a file that it reads, or the stream that it writes to. -/
inductive Held where
  | nothing
  | reading (fd : Fd)
  | writing

namespace Held

/-- Files are opened one at a time, and only what is open is used or closed. -/
def Admits (h : Held) : Call → Prop
  | .openRead _ | .openTrunc _ => h = nothing
  | .pread fd _ _ | .sendfile _ fd _ _ | .close fd => h = reading fd
  | .write _ | .closeStream => h = writing
  | .send _ | .recv _ | .createDirectories _ | .elapsed => True
  | .look | .pathExists _ | .stat _ | .relative .. | .iterate .. | .currentPath => True

def next (h : Held) : (c : Call) → c.Result → Held
  | .openRead _, some fd => reading fd
  | .openTrunc _, true => writing
  | .close _, _ | .closeStream, _ => nothing
  | _, _ => h

/-- What is open after an attempt to open a file. -/
def ofOpened : Option Fd → Held
  | none => nothing
  | some fd => reading fd

end Held

/-- The monitor of open files. -/
def openFiles : Monitor Call.Result Held := ⟨Held.Admits, Held.next⟩

variable {s : Refs} {h : Held}

theorem keeps_send {bs : Bytes} : openFiles.Keeps h (.send bs) := ⟨trivial, fun _ => rfl⟩

theorem keeps_recv {n : ℕ} : openFiles.Keeps h (.recv n) := ⟨trivial, fun _ => rfl⟩

theorem keeps_look : openFiles.Keeps h .look := ⟨trivial, fun _ => rfl⟩

theorem keeps_currentPath : openFiles.Keeps h .currentPath := ⟨trivial, fun _ => rfl⟩

theorem keeps_of_scans {c : Call} (hc : Scans c) : openFiles.Keeps h c := by
  cases c <;> first | exact ⟨trivial, fun _ => rfl⟩ | exact hc.elim

theorem keeps_createDirectories {p : Bytes} : openFiles.Keeps h (.createDirectories p) :=
  ⟨trivial, fun _ => rfl⟩

theorem keeps_elapsed : openFiles.Keeps h .elapsed := ⟨trivial, fun _ => rfl⟩

theorem keeps_pread {fd : Fd} {len offset : ℕ} :
    openFiles.Keeps (.reading fd) (.pread fd len offset) := ⟨rfl, fun _ => rfl⟩

theorem keeps_sendfile {fd : Fd} {signals offset len : ℕ} :
    openFiles.Keeps (.reading fd) (.sendfile signals fd offset len) := ⟨rfl, fun _ => rfl⟩

theorem keeps_write {bs : Bytes} : openFiles.Keeps .writing (.write bs) := ⟨rfl, fun _ => rfl⟩

/-- With nothing open, it runs in order, and nothing is open in the end. -/
def Tidy {α : Type} (x : Session α) : Prop :=
  ∀ s, openFiles.Passes x s .nothing fun _ _ h => h = .nothing

theorem tidy_of_only {α : Type} {x : Session α} (hx : Only (openFiles.Keeps .nothing) x) : Tidy x :=
  fun _ => passes_of_only hx

theorem tidy_pure {α : Type} (a : α) : Tidy (pure a) := tidy_of_only (only_pure a)

theorem tidy_setEc (e : Errc) : Tidy (setEc e) := tidy_of_only (only_setEc e)

theorem Tidy.bind {α β : Type} {x : Session α} {f : α → Session β} (hx : Tidy x)
    (hf : ∀ a, Tidy (f a)) : Tidy (x >>= f) := by
  intro s
  apply (hx s).bind
  rintro a s _ rfl
  exact hf a s

theorem Tidy.and_then {x y : Session Bool} (hx : Tidy x) (hy : Tidy y) :
    Tidy (do if !(← x) then pure false else y) := by
  apply hx.bind
  rintro (_ | _)
  · exact tidy_pure false
  · exact hy

theorem passes_closing {α : Type} {x : Session α} {c : Call} (hx : Only (openFiles.Keeps h) x)
    (hc : openFiles.admits h c) (hn : ∀ r, openFiles.next h c r = .nothing) :
    openFiles.Passes (do let a ← x; let _ ← perform c; pure a) s h fun _ _ h => h = .nothing := by
  apply (passes_of_only hx).bind
  rintro a s _ rfl
  apply (passes_issue (Q := fun _ _ h => h = .nothing) hc hn).bind
  rintro _ s _ rfl
  exact rfl

section Sender

theorem passes_openEntry (paths : List Bytes) (e : FileEntry) :
    openFiles.Passes (openEntry paths e) s .nothing fun r _ h => h = Held.ofOpened r := by
  have hresolve : Only (openFiles.Keeps .nothing) (resolveOnDisk paths e) := by
    refine (only_perform keeps_look).bind fun fs => ?_
    split
    · exact (only_setEc _).bind fun _ => only_pure _
    · exact only_pure _
  apply (passes_of_only hresolve).bind
  rintro r s _ rfl
  cases r with
  | none => exact rfl
  | some path =>
    refine Monitor.Passes.bind (passes_issue (Q := fun r _ h => h = Held.ofOpened r) rfl fun r => ?_) ?_
    · cases r <;> rfl
    · rintro r s _ rfl
      cases r with
      | none => exact (passes_of_only (only_setEc _)).bind fun _ _ _ hh => hh
      | some fd => exact rfl

/-- Whatever is done with the file of an entry closes it. -/
theorem tidy_opened {α : Type} {paths : List Bytes} {e : FileEntry} {a : α} {f : Fd → Session α}
    (hf : ∀ fd s, openFiles.Passes (f fd) s (.reading fd) fun _ _ h => h = .nothing) :
    Tidy (do
      let some fd ← openEntry paths e | pure a
      f fd) := by
  intro s
  apply (passes_openEntry paths e).bind
  rintro (_ | fd) s _ rfl
  · exact rfl
  · exact hf fd s

theorem only_keeps_crcOfFd (fd : Fd) (size : UInt64) :
    Only (openFiles.Keeps (.reading fd)) (crcOfFd fd size) := by
  have hloop : ∀ remaining offset crc,
      Only (openFiles.Keeps (.reading fd)) (crcLoop fd remaining offset crc) := by
    intro remaining offset crc
    fun_induction crcLoop fd remaining offset crc with
    | case1 => exact only_pure _
    | case2 remaining offset crc h want ih =>
      refine (only_perform keeps_pread).bind fun r => ?_
      split
      · exact (only_setEc _).bind fun _ => only_pure _
      · split
        · exact only_pure _
        · exact ih _ ‹_›
  refine (hloop _ _ _).bind fun r => ?_
  split <;> exact only_pure _

theorem only_keeps_sendFromFd (sock : Socket) (signals : ℕ) (fd : Fd) (offset length : UInt64) :
    Only (openFiles.Keeps (.reading fd)) (sendFromFd sock signals fd offset length) := by
  have hloop : ∀ signals off remaining,
      Only (openFiles.Keeps (.reading fd)) (sendfileLoop fd signals off remaining) := by
    intro signals off remaining
    fun_induction sendfileLoop fd signals off remaining with
    | case1 => exact only_pure _
    | case2 signals off remaining h want ih₁ ih₂ =>
      refine (only_perform keeps_sendfile).bind fun r => ?_
      split
      · exact ih₁ ‹_›
      · exact (only_setEc _).bind fun _ => only_pure _
      · split
        · exact (only_setEc _).bind fun _ => only_pure _
        · exact (ih₂ _ ‹_› ‹_›).map
  unfold sendFromFd
  split
  · exact (only_setEc _).bind fun _ => only_pure _
  · split
    · exact only_pure _
    · exact hloop _ _ _

theorem only_keeps_sendFileBytes (sock : Socket) (signals : ℕ) (fd : Fd) (size : UInt64)
    (zeroCopy : Bool) :
    Only (openFiles.Keeps (.reading fd)) (sendFileBytes sock signals fd size zeroCopy) := by
  have hzero : ∀ offset remaining,
      Only (openFiles.Keeps (.reading fd)) (zeroCopyLoop sock signals fd offset remaining) := by
    intro offset remaining
    fun_induction zeroCopyLoop sock signals fd offset remaining with
    | case1 => exact only_pure _
    | case2 offset remaining h ih =>
      refine (only_keeps_sendFromFd sock signals fd _ _).bind fun pushed => ?_
      split
      · simp only
        split
        · exact (only_setEc _).bind fun _ => only_pure _
        · exact (only_addProgress _).bind fun _ => ih pushed ‹_›
      · exact only_pure _
  have hpread : ∀ offset remaining,
      Only (openFiles.Keeps (.reading fd)) (preadLoop fd offset remaining) := by
    intro offset remaining
    fun_induction preadLoop fd offset remaining with
    | case1 => exact only_pure _
    | case2 offset remaining h want ih =>
      refine (only_perform keeps_pread).bind fun r => ?_
      split
      · exact (only_setEc _).bind fun _ => only_pure _
      · split
        · exact only_pure _
        · refine (oblivious_sendAll (fun _ => keeps_send) _).only.bind fun ok => ?_
          split
          · exact only_pure _
          · exact (only_addProgress _).bind fun _ => ih _ ‹_›
  unfold sendFileBytes
  split
  · exact only_pure _
  · split
    · exact hzero _ _
    · exact hpread _ _

theorem tidy_sumEntry (paths : List Bytes) (e : FileEntry) : Tidy (sumEntry paths e) := by
  refine tidy_opened fun fd s => ?_
  apply (passes_of_only (only_keeps_crcOfFd fd e.size)).bind
  rintro crc s _ rfl
  apply (passes_issue (Q := fun _ _ h => h = .nothing) rfl fun _ => rfl).bind
  rintro _ s _ rfl
  unfold Monitor.Passes
  rw [wp_bind, wp_get]
  split
  · exact rfl
  · exact rfl

theorem tidy_fillEntry (paths : List Bytes) (e : FileEntry) : Tidy (fillEntry paths e) := by
  unfold fillEntry
  split
  · exact tidy_sumEntry paths e
  · exact tidy_pure _

/-- A pass over a manifest that opens a file at a time. -/
theorem Pass.tidy {one : FileEntry → Session (Option FileEntry)}
    {pass : List FileEntry → Session (Option (List FileEntry))} (hp : Pass one pass)
    (h : ∀ e, Tidy (one e)) (es : List FileEntry) : Tidy (pass es) := by
  induction es with
  | nil =>
    rw [hp.nil]
    exact tidy_pure _
  | cons e es ih =>
    rw [hp.cons]
    apply (h e).bind
    rintro (_ | e)
    · exact tidy_pure _
    · apply ih.bind
      rintro (_ | es)
      · exact tidy_pure _
      · exact tidy_pure _

theorem tidy_sendRecord (sock : Socket) (signals : ℕ) (paths : List Bytes)
    (options : SenderOptions) (e : FileEntry) :
    Tidy (sendRecord sock signals paths options e) := by
  apply Tidy.and_then
  · apply tidy_of_only
    unfold writeFileHeader
    split
    · exact (only_setEc _).bind fun _ => only_pure _
    · refine (oblivious_sendAll (fun _ => keeps_send) _).only.bind fun ok => ?_
      split
      · exact only_pure _
      · split
        · exact (oblivious_sendAll (fun _ => keeps_send) _).only
        · exact only_pure _
  · refine tidy_opened fun fd s => ?_
    exact passes_closing (only_keeps_sendFileBytes sock signals fd e.size options.zeroCopy) rfl
      fun _ => rfl

theorem tidy_sendRecords (sock : Socket) (signals : ℕ) (paths : List Bytes)
    (options : SenderOptions) (es : List FileEntry) :
    Tidy (sendRecords sock signals paths options es) := by
  induction es with
  | nil => exact tidy_pure _
  | cons e es ih => exact (tidy_sendRecord sock signals paths options e).and_then ih

theorem tidy_sendManifest (sock : Socket) (signals : ℕ) (paths : List Bytes)
    (options : SenderOptions) (es : List FileEntry) :
    Tidy (sendManifest sock signals paths options es) := by
  apply Tidy.and_then
  · exact tidy_of_only (oblivious_sendAll (fun _ => keeps_send) _).only
  · apply (tidy_of_only (oblivious_readAck fun _ => keeps_recv).only).bind
    rintro (_ | _)
    · exact tidy_pure _
    · apply (tidy_of_only (only_modify _)).bind
      rintro ⟨⟩
      apply (tidy_sendRecords sock signals paths options es).and_then
      exact tidy_of_only (oblivious_sendAll (fun _ => keeps_send) _).only

theorem tidy_sendPaths (std : StdSort) (sock : Socket) (signals : ℕ) (paths : List Bytes)
    (options : SenderOptions) : Tidy (sendPaths std sock signals paths options) := by
  apply Tidy.bind
  · exact tidy_of_only ((scans_collectFiles std options paths).mono fun _ => keeps_of_scans)
  · intro manifest
    split
    · exact tidy_pure _
    · apply ((pass_computeCrcs paths).tidy (tidy_sumEntry paths) manifest).bind
      rintro (_ | es)
      · exact tidy_pure _
      · exact tidy_sendManifest sock signals paths options es

theorem tidy_sendFiles (sock : Socket) (signals : ℕ) (paths : List Bytes)
    (manifest : List FileEntry) (options : SenderOptions) :
    Tidy (sendFiles sock signals paths manifest options) := by
  unfold sendFiles
  split
  · exact tidy_pure _
  · apply ((pass_fillCrcs paths).tidy (tidy_fillEntry paths) manifest).bind
    rintro (_ | es)
    · exact tidy_pure _
    · exact tidy_sendManifest sock signals paths options es

end Sender

section Receiver

theorem tidy_receivePayloadToFile (target : Bytes) (size : UInt64) (expected : UInt32) :
    Tidy (receivePayloadToFile target size expected) := by
  apply (tidy_of_only (only_createParent (fun _ => keeps_createDirectories) target)).bind
  intro _ s
  apply (passes_issue (Q := fun ok _ h => h = if ok then .writing else .nothing) rfl
    fun ok => by cases ok <;> rfl).bind
  rintro (_ | _) s _ rfl
  · exact (passes_of_only (only_setEc _)).bind fun _ _ _ hh => hh
  · exact passes_closing (only_receiveAndCheck (fun _ => keeps_recv) (fun _ => keeps_write) _ _)
      rfl fun _ => rfl

theorem tidy_receiveRecord (options : ReceiverOptions) (dir : Bytes) :
    Tidy (receiveRecord options dir) := by
  apply (tidy_of_only (only_readFileHeader fun _ => keeps_recv)).bind
  rintro (_ | e)
  · exact tidy_pure _
  · simp only
    split
    · exact tidy_pure _
    · unfold storeRecord
      split
      · exact (tidy_setEc _).bind fun _ => tidy_pure _
      · apply (tidy_receivePayloadToFile _ _ _).and_then
        exact tidy_of_only ((only_modify _).bind fun _ => only_pure _)

theorem tidy_receiveRecords (options : ReceiverOptions) (dir : Bytes) (n : ℕ) :
    Tidy (receiveRecords options dir n) := by
  induction n with
  | zero => exact tidy_pure _
  | succ n ih => exact (tidy_receiveRecord options dir).and_then ih

theorem tidy_receiveStream (options : ReceiverOptions) : Tidy (receiveStream options) := by
  apply Tidy.bind
  · exact tidy_of_only (only_openSession (fun _ => keeps_recv) (fun _ => keeps_send) keeps_currentPath
      keeps_look (fun _ => keeps_createDirectories) options)
  · rintro (_ | ⟨header, dir⟩)
    · exact tidy_pure _
    · apply (tidy_receiveRecords options dir _).and_then
      apply Tidy.bind
      · exact tidy_of_only (only_finishSession (fun _ => keeps_recv) keeps_elapsed)
      · exact fun _ => tidy_pure _

end Receiver

theorem Tidy.logged {α W : Type} {M : Machine Call.Result W} {x : Session α} {w : W}
    (h : Tidy x) : wp (logged M) (fun _ _ => True) x s (w, []) fun _ _ y =>
      openFiles.Accepts .nothing y.2 .nothing := by
  apply wp_mono ((h s).logged (.nil _))
  rintro _ _ ⟨_, log⟩ ⟨_, hlog, rfl⟩
  exact hlog

/-- Whatever its calls come back with, a party has one file open at a time, uses what it has open
only, and has closed it when it returns. -/
theorem one_file_open {W : Type} (M : Machine Call.Result W) (s : Refs) (w : W) :
    (∀ std sock signals paths options,
      wp (logged M) (fun _ _ => True) (sendPaths std sock signals paths options) s (w, [])
        fun _ _ y => openFiles.Accepts .nothing y.2 .nothing) ∧
    (∀ sock signals paths manifest options,
      wp (logged M) (fun _ _ => True) (sendFiles sock signals paths manifest options) s (w, [])
        fun _ _ y => openFiles.Accepts .nothing y.2 .nothing) ∧
    (∀ options, wp (logged M) (fun _ _ => True) (receiveStream options) s (w, [])
      fun _ _ y => openFiles.Accepts .nothing y.2 .nothing) := by
  constructor
  · intro std sock signals paths options
    exact (tidy_sendPaths std sock signals paths options).logged
  · constructor
    · intro sock signals paths manifest options
      exact (tidy_sendFiles sock signals paths manifest options).logged
    · intro options
      exact (tidy_receiveStream options).logged

end Xfer.Transfer
