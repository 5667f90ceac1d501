import Xfer.Posix.Alike
import Xfer.Transfer.Session

/-! # Delivery

The abstract receiver: a fold of records over a file system. Without faults the
receiver's code computes it on every stream of records with non-empty paths,
under any segmentation of the stream.
-/

namespace Xfer.Transfer

open Net Common Posix Process Code

variable {f : Faults} {s s' : Refs} {w w' : Side} {options : ReceiverOptions} {dir : Bytes}
  {fs : FileSystem} {r : Record} {rest tail : Bytes}

/-- The file that a path is stored in, and the file system with its directories. -/
def openTarget (fs : FileSystem) (safe : Bytes) : FileSystem × Option Key :=
  let fs₁ := fs.createDirectories (parentPath safe)
  (fs₁, (fs₁.locate safe).filter fs₁.CanPlace)

/-- What one record makes of the file system, and whether the session goes on. -/
def store (options : ReceiverOptions) (dir : Bytes) (fs : FileSystem) (r : Record) :
    FileSystem × Bool :=
  match validateAndJoin dir r.path with
  | .error _ => (fs, false)
  | .ok safe =>
    match openTarget fs safe with
    | (fs₁, none) => (fs₁, false)
    | (fs₁, some k) =>
      (fs₁.place k (.file r.payload), passes (expectedCrc options r.crc) r.payload)

/-- Store records in order, up to the first one that cannot be stored. -/
def storeAll (options : ReceiverOptions) (dir : Bytes) :
    FileSystem → List Record → FileSystem × Bool
  | fs, [] => (fs, true)
  | fs, r :: rs =>
    match store options dir fs r with
    | (fs', true) => storeAll options dir fs' rs
    | (fs', false) => (fs', false)

/-- The file system when the record loop starts. -/
def prepareOutput (options : ReceiverOptions) (fs : FileSystem) : FileSystem :=
  if options.createDir then fs.createDirectories (outputDir options fs) else fs

theorem grows_prepareOutput (options : ReceiverOptions) (fs : FileSystem) :
    fs.Grows (prepareOutput options fs) := by
  unfold prepareOutput
  split
  · exact FileSystem.mkdirs_grows fs _
  · exact .refl fs

/-- What a session with these records makes of the file system, and its verdict. -/
def deliver (options : ReceiverOptions) (fs : FileSystem) (rs : List Record) : FileSystem × Bool :=
  let dir := outputDir options fs
  let fs₁ := prepareOutput options fs
  if fs₁.isDirectory dir then storeAll options dir fs₁ rs else (fs₁, false)

/-- The summary after some more records. -/
def summarize (dir : Bytes) (m : ReceiverSummary) (rs : List Record) : ReceiverSummary :=
  rs.foldl (fun m r => m.add r.entry.size (join dir r.path)) m

theorem prepared_iff (hf : ¬ f.disk) {target : Bytes} {fs₁ : FileSystem} :
    Prepared f target fs fs₁ ↔ fs₁ = fs.createDirectories (parentPath target) := by
  constructor
  · rintro ⟨ps, -, hps, rfl⟩
    rw [hps.resolve_right hf]
    rfl
  · rintro rfl
    exact ⟨_, List.prefix_rfl, Or.inl rfl, rfl⟩

theorem opens_iff (hf : ¬ f.disk) {target : Bytes} {fs₁ : FileSystem} {k : Key} :
    Opens f target fs fs₁ k ↔ openTarget fs target = (fs₁, some k) := by
  unfold openTarget
  simp only [Prod.mk.injEq, Option.filter_eq_some_iff, decide_eq_true_eq]
  constructor
  · rintro ⟨hp, hl, hc⟩
    obtain rfl := (prepared_iff hf).mp hp
    exact ⟨rfl, hl, hc⟩
  · rintro ⟨rfl, hl, hc⟩
    exact ⟨(prepared_iff hf).mpr rfl, hl, hc⟩

theorem openTarget_eq_none {fs₁ : FileSystem} {safe : Bytes}
    (hp : fs₁ = fs.createDirectories (parentPath safe))
    (ho : fs₁.openTrunc safe = none) : openTarget fs safe = (fs₁, none) := by
  unfold openTarget
  rw [← hp, Prod.mk.injEq, Option.filter_eq_none_iff]
  refine ⟨rfl, fun k hk hc => ?_⟩
  have := FileSystem.openTrunc_eq_some.mpr ⟨hk, of_decide_eq_true hc, rfl⟩
  rw [ho] at this
  cases this

theorem FileOutcome.exact (hn : ¬ f.net) (hd : ¬ f.disk) {target : Bytes} {expected : UInt32}
    {ok : Bool} (hi : w.incoming = r.payload ++ rest)
    (h : FileOutcome f target r.entry.size expected s w ok s' w') :
    (match openTarget w.host.fs target with
      | (fs₁, none) => (fs₁, false)
      | (fs₁, some k) => (fs₁.place k (.file r.payload), passes expected r.payload)) =
        (w'.host.fs, ok) ∧ (ok = true → w'.incoming = rest) := by
  cases h with
  | closed fs₁ hp ho =>
    rw [openTarget_eq_none ((prepared_iff hd).mp hp) (ho.resolve_left hd)]
    exact ⟨rfl, by simp⟩
  | whole fs₁ k payload rest' stored p ho hl hi' hs hsd =>
    obtain rfl := hsd.resolve_right hd
    rw [r.toNat_size] at hl
    obtain ⟨rfl, rfl⟩ := List.append_inj (hi'.symm.trans hi) hl
    rw [(opens_iff hd).mp ho]
    exact ⟨rfl, fun _ => rfl⟩
  | cut fs₁ k stored p ho hlt =>
    rw [hi, r.toNat_size, List.length_append] at hlt
    omega
  | failed e fs₁ k bs rest' stored p ho hnd => exact absurd hnd (by simp [GivenUp, hn, hd])

/-- Without faults, a record that is there is stored as `store` says. -/
theorem RecordOutcome.exact (hn : ¬ f.net) (hd : ¬ f.disk) {ok : Bool} (hne : r.path ≠ [])
    (hi : w.incoming = r.encode ++ rest) (h : RecordOutcome f options dir s w ok s' w') :
    store options dir w.host.fs r = (w'.host.fs, ok) ∧ (ok = true → w'.incoming = rest ∧
      s'.summary = s.summary.add r.entry.size (join dir r.path)) := by
  rw [Record.encode, List.append_assoc] at hi
  have hfits : r.entry.relPath.length ≤ 0xFFFF := r.fits
  cases h with
  | noHeader hh => cases (hh.of_encode hn hfits hi).1
  | skipped e rest' he hi' =>
    obtain ⟨rfl, _⟩ := encodeFileHeader_inj (by simp [he]) hfits (hi'.symm.trans hi)
    exact absurd he hne
  | rejected e rest' er he hl hi' hv =>
    obtain ⟨rfl, rfl⟩ := encodeFileHeader_inj hl hfits (hi'.symm.trans hi)
    rw [Record.relPath_entry] at hv
    refine ⟨?_, by simp⟩
    rw [store, hv]
    rfl
  | refused e rest' safe he hl hi' hv ho =>
    obtain ⟨rfl, rfl⟩ := encodeFileHeader_inj hl hfits (hi'.symm.trans hi)
    rw [Record.relPath_entry] at hv
    refine ⟨?_, by simp⟩
    rw [store, hv]
    exact (ho.exact hn hd rfl).1
  | stored e rest' safe he hl hi' hv ho =>
    obtain ⟨rfl, rfl⟩ := encodeFileHeader_inj hl hfits (hi'.symm.trans hi)
    rw [Record.relPath_entry] at hv
    have hx := ho.exact hn hd rfl
    refine ⟨?_, fun _ => ⟨hx.2 rfl, ?_⟩⟩
    · rw [store, hv]
      exact hx.1
    · simp only [ho.frame.1, (validateAndJoin_eq_ok hv).2.2]

theorem storeAll_cons (fs : FileSystem) (r : Record) (rs : List Record) :
    storeAll options dir fs (r :: rs) = match store options dir fs r with
      | (fs', true) => storeAll options dir fs' rs
      | (fs', false) => (fs', false) := rfl

/-- The record loop, with `todo` still to come, is on its way to what `storeAll` computes. -/
structure Delivering (options : ReceiverOptions) (dir tail out : Bytes) (goal : FileSystem × Bool)
    (m : ReceiverSummary) (todo : List Record) (s : Refs) (w : Side) : Prop where
  incoming : w.incoming = todo.flatMap Record.encode ++ tail
  goal : storeAll options dir w.host.fs todo = goal
  summary : summarize dir s.summary todo = m
  outgoing : w.outgoing = out

theorem Delivering.step (hn : ¬ f.net) (hd : ¬ f.disk) {out : Bytes} {goal : FileSystem × Bool}
    {m : ReceiverSummary} {todo : List Record} {ok : Bool} (hne : r.path ≠ [])
    (h : Delivering options dir tail out goal m (r :: todo) s w)
    (ho : RecordOutcome f options dir s w ok s' w') :
    if ok then Delivering options dir tail out goal m todo s' w'
    else goal = (w'.host.fs, false) ∧ w'.outgoing = out := by
  obtain ⟨hi, hg, hm, hout⟩ := h
  rw [List.flatMap_cons, List.append_assoc] at hi
  obtain ⟨hstore, hok⟩ := ho.exact hn hd hne hi
  rw [storeAll_cons, hstore] at hg
  have hfr := ho.frame.2.trans hout
  cases ok with
  | false => exact ⟨hg.symm, hfr⟩
  | true =>
    obtain ⟨hi', hs'⟩ := hok rfl
    refine ⟨hi', hg, ?_, hfr⟩
    rw [hs', ← hm]
    rfl

theorem made_iff (hd : ¬ f.disk) {fs₁ : FileSystem} :
    Made f options (outputDir options fs) fs fs₁ ↔ fs₁ = prepareOutput options fs := by
  unfold prepareOutput
  constructor
  · rintro ⟨ps, -, ht, hf, rfl⟩
    split
    · rename_i hc
      rw [(ht hc).resolve_right hd]
      rfl
    · rename_i hc
      rw [hf (Bool.eq_false_iff.mpr hc)]
      rfl
  · rintro rfl
    split
    · rename_i hc
      exact ⟨_, List.prefix_rfl, fun _ => Or.inl rfl, by simp [hc], rfl⟩
    · rename_i hc
      exact ⟨[], List.nil_prefix, by simp [hc], fun _ => rfl, rfl⟩

theorem prepareOutput_of_isDirectory (h : fs.isDirectory (outputDir options fs)) :
    prepareOutput options fs = fs := by
  unfold prepareOutput
  split
  · exact FileSystem.createDirectories_of_isDirectory h
  · rfl

theorem HandshakeOutcome.exact (hn : ¬ f.net) (hs : ¬ f.stall) {header : SessionHeader}
    {r : Option SessionHeader} (hi : w.incoming = encodeSessionHeader header ++ rest)
    (h : HandshakeOutcome f s w r s' w') :
    r = some header ∧ s' = s ∧ w' = (w.reading rest).sent (encodeAck 0) := by
  cases h with
  | noHeader hr =>
    cases (hr.of_encode hn (length_encodeSessionHeader header) hi (sessionOf_encode header)).1
  | noAck rest' ha =>
    cases ha with
    | failed e sent _ hf => exact absurd hf (by simp [hn, hs])
  | done buf rest' header' hl hi' hp =>
    obtain ⟨rfl, rfl⟩ := List.append_inj (hi'.symm.trans hi) (by simp [hl])
    rw [sessionOf_encode] at hp
    exact ⟨hp.symm, rfl, rfl⟩

theorem OpenOutcome.exact (hn : ¬ f.net) (hs : ¬ f.stall) (hd : ¬ f.disk) {header : SessionHeader}
    {r : Option (SessionHeader × Bytes)} (hi : w.incoming = encodeSessionHeader header ++ rest)
    (h : OpenOutcome f options s w r s' w') :
    s'.summary = s.summary ∧ w' = ((w.reading rest).sent (encodeAck 0)).on
      ⟨prepareOutput options w.host.fs, w.host.stream⟩ ∧
    r = if (prepareOutput options w.host.fs).isDirectory (outputDir options w.host.fs) then
      some (header, outputDir options w.host.fs) else none := by
  cases h with
  | noHandshake hh => cases (hh.exact hn hs hi).1
  | noOutput header' hh ho =>
    obtain ⟨-, rfl, rfl⟩ := hh.exact hn hs hi
    cases ho with
    | missing fs₁ hm hno =>
      obtain rfl := (made_iff hd).mp hm
      exact ⟨rfl, rfl, by rw [if_neg]; simpa using hno⟩
  | opened header' dir hh ho =>
    obtain ⟨hh', rfl, rfl⟩ := hh.exact hn hs hi
    obtain rfl := Option.some.inj hh'
    cases ho with
    | ready fs₁ hm hyes =>
      obtain rfl := (made_iff hd).mp hm
      exact ⟨rfl, rfl, (if_pos hyes).symm⟩

/-- Without faults, the receiver's code computes `deliver`, answers with an acknowledgement, and
reads up to the end of the trailer. -/
theorem always_receiveStream_deliver (hn : ¬ f.net) (hs : ¬ f.stall) (hd : ¬ f.disk)
    {header : SessionHeader} {rs : List Record}
    (hi : w.incoming = encodeSessionHeader header ++ (rs.flatMap Record.encode ++ tail))
    (hlen : rs.length = header.totalFiles.toNat) (hne : ∀ r ∈ rs, r.path ≠ []) :
    Always f (receiveStream options) s w fun ok s' w' =>
      deliver options w.host.fs rs = (w'.host.fs, ok) ∧
      w'.outgoing = w.outgoing ++ encodeAck 0 ∧
      (ok = true → (∃ elapsed, s'.summary = { summarize (outputDir options w.host.fs) s.summary rs with
        elapsedSeconds := elapsed }) ∧ (tail = encodeDone → w'.incoming = [])) := by
  let goal := deliver options w.host.fs rs
  let dir := outputDir options w.host.fs
  refine always_receiveStream
    (I := fun dir' n s' w' => dir' = dir ∧ ∃ todo, todo.length = n ∧ (∀ r ∈ todo, r.path ≠ []) ∧
      Delivering options dir tail (w.outgoing ++ encodeAck 0) goal (summarize dir s.summary rs)
        todo s' w')
    (J := fun _ w' => goal = (w'.host.fs, false) ∧ w'.outgoing = w.outgoing ++ encodeAck 0)
    ?_ ?_ ?_ ?_ ?_
  · intro s' w' ho
    obtain ⟨hm, rfl, hr⟩ := ho.exact hn hs hd hi
    refine ⟨?_, rfl, by simp⟩
    unfold deliver
    split at hr
    · cases hr
    · rename_i hno
      simp only [if_neg hno]
      rfl
  · intro header' dir' s' w' ho
    obtain ⟨hm, rfl, hr⟩ := ho.exact hn hs hd hi
    split at hr
    · rename_i hyes
      obtain ⟨rfl, rfl⟩ := Prod.mk.inj (Option.some.inj hr)
      refine ⟨rfl, rs, hlen, hne, rfl, ?_, by rw [hm], rfl⟩
      change _ = deliver options w.host.fs rs
      rw [deliver, if_pos hyes]
      rfl
    · cases hr
  · rintro dir' n s₁ w₁ ok s' w' ⟨rfl, todo, hl, hne', hdel⟩ ho
    cases todo with
    | nil => cases hl
    | cons r todo =>
      have hstep := hdel.step hn hd (hne' r List.mem_cons_self) ho
      cases ok with
      | false => exact hstep
      | true =>
        exact ⟨rfl, todo, Nat.succ.inj hl, fun r hr => hne' r (List.mem_cons_of_mem _ hr), hstep⟩
  · rintro s' w' ⟨hg, hout⟩
    exact ⟨hg, hout, by simp⟩
  · rintro dir' s₁ w₁ ⟨rfl, todo, hl, -, hdel⟩
    obtain rfl := List.length_eq_zero_iff.mp hl
    obtain ⟨hi₁, hg, hm, hout⟩ := hdel
    apply wp_mono always_finishSession
    rintro _ _ _ ⟨ec, elapsed, rest, -, htail, rfl, rfl⟩
    refine ⟨hg.symm, hout, fun _ => ⟨⟨elapsed, by rw [← hm]; rfl⟩, fun ht => ?_⟩⟩
    have hi₂ : w₁.incoming = encodeDone ++ [] := by
      rw [hi₁, ht, List.append_nil]
      rfl
    exact (htail hn hi₂).1

theorem always_receiveStream_started (hn : ¬ f.net) (hs : ¬ f.stall) (hd : ¬ f.disk)
    {header : SessionHeader} {rs : List Record}
    (hi : w.incoming = encodeSessionHeader header ++ (rs.flatMap Record.encode ++ tail))
    (hlen : rs.length = header.totalFiles.toNat) (hne : ∀ r ∈ rs, r.path ≠ [])
    (hdir : (prepareOutput options w.host.fs).isDirectory (outputDir options w.host.fs)) :
    Always f (receiveStream options) s w fun ok _ w' =>
      ok = false → w'.incoming.length + 32 < w.incoming.length := by
  refine always_receiveStream
    (I := fun _ n _ w' => ∃ todo : List Record, todo.length = n ∧ (∀ r ∈ todo, r.path ≠ []) ∧
      w'.incoming = todo.flatMap Record.encode ++ tail ∧
      w'.incoming.length + 32 ≤ w.incoming.length)
    (J := fun _ w' => w'.incoming.length + 32 < w.incoming.length) ?_ ?_ ?_ (fun h _ => h) ?_
  · intro s' w' ho
    have hr := (ho.exact hn hs hd hi).2.2
    rw [if_pos hdir] at hr
    cases hr
  · intro header' dir' s' w' ho
    obtain ⟨-, rfl, hr⟩ := ho.exact hn hs hd hi
    rw [if_pos hdir] at hr
    obtain ⟨rfl, -⟩ := Prod.mk.inj (Option.some.inj hr)
    refine ⟨rs, hlen, hne, rfl, ?_⟩
    have hlength := congrArg List.length hi
    rw [List.length_append, length_encodeSessionHeader] at hlength
    exact (hlength.trans (Nat.add_comm _ _)).ge
  · rintro dir' n s₁ w₁ ok s' w' ⟨todo, hl, hall, hi₁, hle⟩ ho
    cases todo with
    | nil => cases hl
    | cons r todo =>
      obtain ⟨hr, hall⟩ := List.forall_mem_cons.mp hall
      rw [List.flatMap_cons, List.append_assoc] at hi₁
      have hlt := ho.length_lt hn hi₁
      cases ok with
      | false => exact Nat.lt_of_lt_of_le (Nat.add_lt_add_right hlt 32) hle
      | true =>
        refine ⟨todo, Nat.succ.inj hl, hall, ((ho.exact hn hd hr hi₁).2 rfl).1, ?_⟩
        exact (Nat.add_le_add_right hlt.le 32).trans hle
  · intro dir' s₁ w₁ _
    exact wp_mono always_finishSession fun _ _ _ _ h => nomatch h

end Xfer.Transfer
