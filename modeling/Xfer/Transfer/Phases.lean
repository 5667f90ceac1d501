import Xfer.Net.Oblivious
import Xfer.Transfer.Receiver
import Xfer.Transfer.Sender

/-! # Phases of a session

Until the manifest is complete, the sender leaves the connection alone; once the
session header has been acknowledged, it only writes and the receiver only
reads.
-/

namespace Xfer.Transfer

open Net Common Posix Process Code

variable {P : Call → Prop}

/-- A call that does not touch the connection. -/
def Local (c : Call) : Prop := ¬ c.Reads ∧ ¬ c.Writes

/-- A call by which the sources are found. -/
def Scans : Call → Prop
  | .pathExists _ | .stat _ | .relative .. | .iterate .. => True
  | _ => False

/-- A call that finds something out and changes nothing. -/
def Looks : Call → Prop
  | .look | .pathExists _ | .stat _ | .relative .. | .iterate .. => True
  | .openRead _ | .pread .. | .close _ => True
  | _ => False

theorem only_perform {c : Call} (h : P c) : Only P (perform c) := only_issue h

theorem only_setEc (e : Errc) : Only P (setEc e) := only_modify _

theorem only_addProgress (n : UInt64) : Only P (addProgress n) := only_modify _

section Looks

theorem oblivious_resolveOnDisk (paths : List Bytes) (e : FileEntry) :
    Oblivious Looks (resolveOnDisk paths e) := by
  refine .bind (.perform trivial) fun fs => ?_
  split
  · exact .bind (.setEc _) fun _ => .pure _
  · exact .pure _

theorem oblivious_openEntry (paths : List Bytes) (e : FileEntry) :
    Oblivious Looks (openEntry paths e) := by
  refine (oblivious_resolveOnDisk paths e).bind fun r => ?_
  split
  · refine .bind (.perform trivial) fun r => ?_
    split
    · exact .bind (.setEc _) fun _ => .pure _
    · exact .pure _
  · exact .pure _

theorem only_crcLoop (k : Fd) (remaining offset : UInt64) (crc : Crc32) :
    Only Looks (crcLoop k remaining offset crc) := by
  fun_induction crcLoop k remaining offset crc with
  | case1 => exact only_pure _
  | case2 remaining offset crc h want ih =>
    refine (only_perform trivial).bind fun r => ?_
    split
    · exact (only_setEc _).bind fun _ => only_pure _
    · split
      · exact only_pure _
      · rename_i hz
        exact ih _ hz

theorem only_sumEntry (paths : List Bytes) (e : FileEntry) : Only Looks (sumEntry paths e) := by
  refine (oblivious_openEntry paths e).only.bind fun r => ?_
  split
  · refine Only.bind ?_ fun crc => ?_
    · refine (only_crcLoop _ _ _ _).bind fun r => ?_
      split <;> exact only_pure _
    · refine (only_perform trivial).bind fun _ => only_get.bind fun s => ?_
      split <;> exact only_pure _
  · exact only_pure _

/-- A pass over a manifest, one entry after the other, up to the first failure. -/
structure Pass (one : FileEntry → Session (Option FileEntry))
    (pass : List FileEntry → Session (Option (List FileEntry))) : Prop where
  nil : pass [] = pure (some [])
  cons : ∀ e es, pass (e :: es) = do
    let some e ← one e | pure none
    let some es ← pass es | pure none
    pure (some (e :: es))

/-- What becomes of an entry of a manifest of the caller's. -/
def fillEntry (paths : List Bytes) (e : FileEntry) : Session (Option FileEntry) :=
  if e.crc32 = 0 then sumEntry paths e else pure (some e)

theorem pass_computeCrcs (paths : List Bytes) : Pass (sumEntry paths) (computeCrcs paths) where
  nil := rfl
  cons e es := by
    rw [computeCrcs, sumEntry, bind_assoc]
    refine congrArg _ (funext fun fd => ?_)
    cases fd with
    | none => rfl
    | some fd =>
      simp only [bind_assoc]
      refine congrArg _ (funext fun crc => congrArg _ (funext fun _ => congrArg _ (funext fun s => ?_)))
      split
      · rfl
      · rfl

theorem pass_fillCrcs (paths : List Bytes) : Pass (fillEntry paths) (fillCrcs paths) :=
  ⟨rfl, fun _ _ => rfl⟩

theorem Pass.only {one : FileEntry → Session (Option FileEntry)}
    {pass : List FileEntry → Session (Option (List FileEntry))} (hp : Pass one pass)
    (h : ∀ e, Only P (one e)) (es : List FileEntry) : Only P (pass es) := by
  induction es with
  | nil =>
    rw [hp.nil]
    exact only_pure _
  | cons e es ih =>
    rw [hp.cons]
    refine (h e).bind fun r => ?_
    split
    · refine ih.bind fun r => ?_
      split <;> exact only_pure _
    · exact only_pure _

theorem only_computeCrcs (paths : List Bytes) (es : List FileEntry) :
    Only Looks (computeCrcs paths es) := (pass_computeCrcs paths).only (only_sumEntry paths) es

theorem only_fillEntry (paths : List Bytes) (e : FileEntry) : Only Looks (fillEntry paths e) := by
  unfold fillEntry
  split
  · exact only_sumEntry paths e
  · exact only_pure _

theorem only_fillCrcs (paths : List Bytes) (es : List FileEntry) :
    Only Looks (fillCrcs paths es) := (pass_fillCrcs paths).only (only_fillEntry paths) es

theorem scans_scanFile (pre path : Bytes) : Only Scans (scanFile pre path) := by
  refine (only_perform trivial).bind fun r => ?_
  split
  · exact only_pure _
  · refine Only.bind (Only.bind ?_ fun _ => only_pure _) fun rel => ?_
    · split
      · exact only_pure _
      · refine (only_perform trivial).bind fun r => ?_
        split
        · exact only_pure _
        · exact only_perform trivial
    · split <;> exact only_pure _

theorem scans_scanBelow (pre : Bytes) (qs : List Bytes) : Only Scans (scanBelow pre qs) := by
  induction qs with
  | nil => exact only_pure _
  | cons q qs ih =>
    refine Only.bind ?_ fun found => ih.bind fun more => only_pure _
    refine (only_perform trivial).bind fun r => ?_
    split
    · exact only_pure _
    · exact scans_scanFile pre q

theorem scans_scanPath (options : SenderOptions) (p : Bytes) : Only Scans (scanPath options p) := by
  refine (only_perform trivial).bind fun found => ?_
  split
  · exact (only_setEc _).bind fun _ => only_pure _
  · refine (only_perform trivial).bind fun r => ?_
    split
    · exact (scans_scanFile _ p).bind fun _ => only_pure _
    · refine (only_perform trivial).bind fun r => ?_
      split
      · split
        · exact only_pure _
        · exact (only_perform trivial).bind fun qs =>
            (scans_scanBelow _ qs).bind fun _ => only_pure _
      · exact only_pure _

theorem scans_scanPaths (options : SenderOptions) (paths : List Bytes) :
    Only Scans (scanPaths options paths) := by
  induction paths with
  | nil => exact only_pure _
  | cons p paths ih =>
    refine (scans_scanPath options p).bind fun r => ?_
    split
    · refine ih.bind fun r => ?_
      split <;> exact only_pure _
    · exact only_pure _

theorem scans_collectFiles (std : StdSort) (options : SenderOptions) (paths : List Bytes) :
    Only Scans (collectFiles std options paths) := by
  refine (scans_scanPaths options paths).bind fun r => ?_
  split <;> exact only_pure _

theorem Scans.looks {c : Call} (h : Scans c) : Looks c := by
  cases c <;> first | exact trivial | exact h.elim

theorem only_collectFiles (std : StdSort) (options : SenderOptions) (paths : List Bytes) :
    Only Looks (collectFiles std options paths) :=
  (scans_collectFiles std options paths).mono fun _ => Scans.looks

theorem Looks.isLocal {c : Call} (h : Looks c) : Local c := by
  cases c <;> first | exact ⟨id, id⟩ | exact h.elim

theorem local_of_looks {α : Type} {x : Session α} (h : Only Looks x) : Only Local x :=
  h.mono fun _ => Looks.isLocal

end Looks

section Local

theorem only_createParent (hc : ∀ p, P (.createDirectories p)) (target : Bytes) :
    Only P (createParent target) := by
  unfold createParent
  split
  · exact only_perform (hc _)
  · exact only_pure _

theorem only_openOutput (hd : P .currentPath) (hl : P .look) (hc : ∀ p, P (.createDirectories p))
    (options : ReceiverOptions) : Only P (openOutput options) := by
  refine Only.bind ?_ fun dir => Only.bind ?_ fun _ => (only_perform hl).bind fun fs => ?_
  · unfold findOutput
    split
    · exact only_perform hd
    · exact only_pure _
  · unfold createOutput
    split
    · exact only_perform (hc _)
    · exact only_pure _
  · split
    · exact (only_setEc _).bind fun _ => only_pure _
    · exact only_pure _

end Local

section Writing

/-- A call that does not read from the connection. -/
def NoRead (c : Call) : Prop := ¬ c.Reads

theorem oblivious_writeFileHeader (e : FileEntry) : Oblivious NoRead (writeFileHeader e) := by
  unfold writeFileHeader
  split
  · exact .bind (.setEc _) fun _ => .pure _
  · refine (oblivious_sendAll (fun _ => id) _).bind fun ok => ?_
    split
    · exact .pure _
    · split
      · exact oblivious_sendAll (fun _ => id) _
      · exact .pure _

theorem oblivious_zeroCopyLoop (sock : Socket) (signals : ℕ) (k : Fd) (offset remaining : UInt64) :
    Oblivious NoRead (zeroCopyLoop sock signals k offset remaining) := by
  fun_induction zeroCopyLoop sock signals k offset remaining with
  | case1 => exact .pure _
  | case2 offset remaining h ih =>
    refine (oblivious_sendFromFd (fun _ _ _ _ => id) _ _ _ _ _).bind fun pushed => ?_
    split
    · simp only
      split
      · exact .bind (.setEc _) fun _ => .pure _
      · exact .bind (.addProgress _) fun _ => ih pushed ‹_›
    · exact .pure _

theorem oblivious_preadLoop (k : Fd) (offset remaining : UInt64) :
    Oblivious NoRead (preadLoop k offset remaining) := by
  fun_induction preadLoop k offset remaining with
  | case1 => exact .pure _
  | case2 offset remaining h want ih =>
    refine .bind (.perform id) fun r => ?_
    split
    · exact .bind (.setEc _) fun _ => .pure _
    · split
      · exact .pure _
      · refine (oblivious_sendAll (fun _ => id) _).bind fun ok => ?_
        split
        · exact .pure _
        · exact .bind (.addProgress _) fun _ => ih _ ‹_›

theorem oblivious_sendRecord (sock : Socket) (signals : ℕ) (paths : List Bytes)
    (options : SenderOptions) (e : FileEntry) : Oblivious NoRead (sendRecord sock signals paths options e) := by
  refine (oblivious_writeFileHeader e).bind fun ok => ?_
  split
  · exact .pure _
  · refine ((oblivious_openEntry paths e).mono fun _ hc => hc.isLocal.1).bind fun r => ?_
    split
    · refine .bind ?_ fun ok => .bind (.perform id) fun _ => .pure _
      unfold sendFileBytes
      split
      · exact .pure _
      · split
        · exact oblivious_zeroCopyLoop _ _ _ _ _
        · exact oblivious_preadLoop _ _ _
    · exact .pure _

theorem oblivious_sendRecords (sock : Socket) (signals : ℕ) (paths : List Bytes)
    (options : SenderOptions) (es : List FileEntry) :
    Oblivious NoRead (sendRecords sock signals paths options es) := by
  induction es with
  | nil => exact .pure _
  | cons e es ih =>
    refine (oblivious_sendRecord sock signals paths options e).bind fun ok => ?_
    split
    · exact .pure _
    · exact ih

theorem oblivious_sendRest (sock : Socket) (signals : ℕ) (paths : List Bytes)
    (options : SenderOptions) (es : List FileEntry) : Oblivious NoRead (do
      startProgress
      if !(← sendRecords sock signals paths options es) then pure false else writeDone) := by
  refine .bind .startProgress fun _ => (oblivious_sendRecords _ _ _ _ es).bind fun ok => ?_
  split
  · exact .pure _
  · exact oblivious_sendAll (fun _ => id) _

end Writing

section Reading

/-- A call that does not write to the connection. -/
def NoWrite (c : Call) : Prop := ¬ c.Writes

theorem noWrite_of_local {α : Type} {x : Session α} (h : Only Local x) : Only NoWrite x :=
  h.mono fun _ hc => hc.2

theorem oblivious_readAck (hr : ∀ n, P (.recv n)) : Oblivious P readAck := by
  refine (oblivious_recvAll hr _).bind fun r => ?_
  split
  · split
    · exact .bind (.setEc _) fun _ => .pure _
    · exact .pure _
  · exact .pure _

/-- The session proper does not look at the error code. -/
theorem oblivious_sendManifest (sock : Socket) (signals : ℕ) (paths : List Bytes)
    (options : SenderOptions) (es : List FileEntry) :
    Oblivious (fun _ => True) (sendManifest sock signals paths options es) := by
  refine (oblivious_sendAll (fun _ => trivial) _).bind fun ok => ?_
  split
  · exact .pure _
  · refine (oblivious_readAck fun _ => trivial).bind fun r => ?_
    split
    · exact (oblivious_sendRest sock signals paths options es).mono fun _ _ => trivial
    · exact .pure _

theorem only_readSessionHeader (hr : ∀ n, P (.recv n)) : Only P readSessionHeader := by
  refine (oblivious_recvAll hr _).only.bind fun r => ?_
  split
  · split
    · exact (only_setEc _).bind fun _ => only_pure _
    · simp only
      split
      · exact (only_setEc _).bind fun _ => only_pure _
      · exact only_pure _
  · exact only_pure _

theorem only_openSession (hr : ∀ n, P (.recv n)) (hs : ∀ bs, P (.send bs)) (hd : P .currentPath)
    (hl : P .look) (hc : ∀ p, P (.createDirectories p)) (options : ReceiverOptions) :
    Only P (openSession options) := by
  refine Only.bind ?_ fun r => ?_
  · refine (only_readSessionHeader hr).bind fun r => ?_
    split
    · refine (oblivious_sendAll hs _).only.bind fun ok => ?_
      split <;> exact only_pure _
    · exact only_pure _
  · split
    · refine (only_openOutput hd hl hc options).bind fun r => ?_
      split
      · exact (only_modify _).bind fun _ => only_pure _
      · exact only_pure _
    · exact only_pure _

theorem only_readFileHeader (hr : ∀ n, P (.recv n)) : Only P readFileHeader := by
  refine (oblivious_recvAll hr _).only.bind fun r => ?_
  split
  · split
    · exact (only_setEc _).bind fun _ => only_pure _
    · simp only
      split
      · refine (oblivious_recvAll hr _).only.bind fun r => ?_
        split <;> exact only_pure _
      · exact only_pure _
  · exact only_pure _

theorem only_receivePayload (hr : ∀ n, P (.recv n)) (hw : ∀ bs, P (.write bs)) (remaining : UInt64)
    (crc : Crc32) : Only P (receivePayload remaining crc) := by
  fun_induction receivePayload remaining crc with
  | case1 => exact only_pure _
  | case2 remaining crc h want ih =>
    refine (oblivious_recvAll hr _).only.bind fun r => ?_
    split
    · refine (only_perform (hw _)).bind fun ok => ?_
      split
      · exact (only_setEc _).bind fun _ => only_pure _
      · exact (only_addProgress _).bind fun _ => ih _
    · exact only_pure _

theorem only_receiveAndCheck (hr : ∀ n, P (.recv n)) (hw : ∀ bs, P (.write bs)) (size : UInt64)
    (expected : UInt32) : Only P (receiveAndCheck size expected) := by
  refine (only_receivePayload hr hw _ _).bind fun r => ?_
  split
  · split
    · exact (only_setEc _).bind fun _ => only_pure _
    · exact only_pure _
  · exact only_pure _

theorem only_receivePayloadToFile (target : Bytes) (size : UInt64) (expected : UInt32) :
    Only NoWrite (receivePayloadToFile target size expected) := by
  refine (only_createParent (fun _ => id) target).bind fun _ => (only_perform id).bind fun ok => ?_
  split
  · exact (only_setEc _).bind fun _ => only_pure _
  · refine (only_receiveAndCheck (fun _ => id) (fun _ => id) _ _).bind fun ok => ?_
    exact (only_perform id).bind fun _ => only_pure _

theorem only_receiveRecord (options : ReceiverOptions) (dir : Bytes) :
    Only NoWrite (receiveRecord options dir) := by
  refine (only_readFileHeader fun _ => id).bind fun r => ?_
  split
  · split
    · exact only_pure _
    · unfold storeRecord
      split
      · exact (only_setEc _).bind fun _ => only_pure _
      · refine (only_receivePayloadToFile _ _ _).bind fun ok => ?_
        split
        · exact only_pure _
        · exact (only_modify _).bind fun _ => only_pure _
  · exact only_pure _

theorem only_receiveRecords (options : ReceiverOptions) (dir : Bytes) (n : ℕ) :
    Only NoWrite (receiveRecords options dir n) := by
  induction n with
  | zero => exact only_pure _
  | succ n ih =>
    refine (only_receiveRecord options dir).bind fun ok => ?_
    split
    · exact only_pure _
    · exact ih

theorem only_finishSession (hr : ∀ n, P (.recv n)) (he : P .elapsed) : Only P finishSession := by
  refine Only.bind ?_ fun _ => (only_perform he).bind fun _ => only_modify _
  refine (oblivious_recvAll hr _).only.bind fun r => ?_
  split <;> exact only_pure _

end Reading

end Xfer.Transfer
