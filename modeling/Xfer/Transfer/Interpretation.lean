import Xfer.Transfer.Delivery

/-! # What a stream comes to

A function from any byte stream to what a reception of it does. Without faults
the receiver's code computes it, however the stream is cut into segments.
-/

namespace Xfer.Transfer

open Net Common Posix Process Code

variable {f : Faults} {s s' : Refs} {w w' : Side} {options : ReceiverOptions} {dir : Bytes}
  {fs fs₁ : FileSystem} {k : Key} {m : ReceiverSummary} {stream rest : Bytes} {e : FileEntry}

/-- The record header that a stream starts with, and what comes after it. -/
def headerOf (stream : Bytes) : Except Errc (FileEntry × Bytes) :=
  if stream.length < 18 then .error .connectionReset
  else match fixedOf (stream.take 18) with
    | none => .error .invalidArgument
    | some (n, size, crc) =>
      if stream.length < 18 + n.toNat then .error .connectionReset
      else .ok (⟨(stream.drop 18).take n.toNat, size, crc⟩, stream.drop (18 + n.toNat))

/-- What some records come to: the session ends, or it goes on with the rest of the stream. -/
inductive Reception where
  | ended (e : Errc) (fs : FileSystem) (m : ReceiverSummary)
  | going (fs : FileSystem) (m : ReceiverSummary) (rest : Bytes)

/-- What becomes of the payload for a target. -/
def receiveAt (fs₁ : FileSystem) (k : Key) (m : ReceiverSummary) (safe : Bytes) (size : UInt64)
    (expected : UInt32) (rest : Bytes) : Reception :=
  if rest.length < size.toNat then
    .ended .connectionReset (fs₁.place k (.file (wholeChunks rest))) m
  else
    let payload := rest.take size.toNat
    if passes expected payload then
      .going (fs₁.place k (.file payload)) (m.add size safe) (rest.drop size.toNat)
    else .ended .badMessage (fs₁.place k (.file payload)) m

/-- What becomes of a record once its header has been read. -/
def interpretEntry (options : ReceiverOptions) (dir : Bytes) (fs : FileSystem)
    (m : ReceiverSummary) (e : FileEntry) (rest : Bytes) : Reception :=
  if e.relPath = [] then .going fs m rest
  else match validateAndJoin dir e.relPath with
    | .error er => .ended er fs m
    | .ok safe =>
      match openTarget fs safe with
      | (fs₁, none) => .ended .permissionDenied fs₁ m
      | (fs₁, some k) => receiveAt fs₁ k m safe e.size (expectedCrc options e.crc32) rest

def interpretRecord (options : ReceiverOptions) (dir : Bytes) (fs : FileSystem)
    (m : ReceiverSummary) (stream : Bytes) : Reception :=
  match headerOf stream with
  | .error er => .ended er fs m
  | .ok (e, rest) => interpretEntry options dir fs m e rest

def interpretRecords (options : ReceiverOptions) (dir : Bytes) :
    ℕ → FileSystem → ReceiverSummary → Bytes → Reception
  | 0, fs, m, stream => .going fs m stream
  | n + 1, fs, m, stream =>
    match interpretRecord options dir fs m stream with
    | .ended e fs m => .ended e fs m
    | .going fs m rest => interpretRecords options dir n fs m rest

/-- What a session comes to, apart from the time that it takes. -/
structure Interpreted where
  ok : Bool
  ec : ErrorCode
  fs : FileSystem
  summary : ReceiverSummary
  reply : Bytes

/-- The end of a session whose output directory is there. -/
def conclude : Reception → Interpreted
  | .ended e fs m => ⟨false, some e, fs, m, encodeAck 0⟩
  | .going fs m rest =>
    ⟨true, if rest.length < 4 then some .connectionReset else none, fs, m, encodeAck 0⟩

def interpret (options : ReceiverOptions) (fs : FileSystem) (m : ReceiverSummary)
    (stream : Bytes) : Interpreted :=
  if stream.length < 32 then ⟨false, some .connectionReset, fs, m, []⟩
  else match sessionOf (stream.take 32) with
    | none => ⟨false, some .invalidArgument, fs, m, []⟩
    | some header =>
      let dir := outputDir options fs
      let fs₁ := prepareOutput options fs
      if fs₁.isDirectory dir then
        conclude (interpretRecords options dir header.totalFiles.toNat fs₁ m (stream.drop 32))
      else ⟨false, some .notADirectory, fs₁, m, encodeAck 0⟩

theorem interpret_encode (header : SessionHeader) (body : Bytes)
    (hd : (prepareOutput options fs).isDirectory (outputDir options fs)) :
    interpret options fs m (encodeSessionHeader header ++ body) =
      conclude (interpretRecords options (outputDir options fs) header.totalFiles.toNat
        (prepareOutput options fs) m body) := by
  have hlen := length_encodeSessionHeader header
  unfold interpret
  rw [List.take_left' hlen, List.drop_left' hlen, sessionOf_encode, if_neg (by simp [hlen])]
  exact if_pos hd

theorem headerOf_encode (hl : e.relPath.length ≤ 0xFFFF) :
    headerOf (encodeFileHeader e ++ rest) = .ok (e, rest) := by
  have hfix : (encodeFileHeader e ++ rest).take 18 = encodeFixed e := by
    rw [encodeFileHeader, List.append_assoc, List.take_left' (by simp)]
  have hlen := length_encodeFileHeader e
  unfold headerOf
  rw [hfix, fixedOf_encode, if_neg (by simp; omega)]
  simp only [toNat_pathLen hl]
  rw [if_neg (by simp), List.drop_left' hlen, encodeFileHeader, List.append_assoc,
    List.drop_left' (by simp), List.take_left]

theorem FileHeaderOutcome.interpreted (hn : ¬ f.net) {r : Option FileEntry}
    (h : FileHeaderOutcome f s w r s' w') : match headerOf w.incoming with
      | .ok (e, rest) => r = some e ∧ s' = s ∧ w' = w.reading rest
      | .error er => r = none ∧ s' = { s with ec := some er } := by
  cases h with
  | read e rest hl hi =>
    rw [hi, headerOf_encode hl]
    exact ⟨rfl, rfl, rfl⟩
  | malformed buf rest hl hi hp =>
    have hlt : ¬ w.incoming.length < 18 := by rw [hi, List.length_append]; omega
    rw [headerOf, if_neg hlt, hi, List.take_left' hl, hp]
    exact ⟨rfl, rfl⟩
  | lost hlost =>
    cases hlost with
    | reset hlt =>
      rw [headerOf, if_pos hlt]
      exact ⟨rfl, rfl⟩
    | failed _ _ _ hf => exact absurd hf hn
  | lostPath buf rest n size crc hl hi hp hlost =>
    have hlt : ¬ w.incoming.length < 18 := by rw [hi, List.length_append]; omega
    have htake : w.incoming.take 18 = buf := by rw [hi, List.take_left' hl]
    cases hlost with
    | reset hlt' =>
      rw [headerOf, if_neg hlt, htake, hp]
      simp only [if_pos hlt', and_self]
    | failed _ _ _ hf => exact absurd hf hn

/-- The outcome of a part of the session is the one that was interpreted. -/
def Reception.Matches (r : Reception) (ok : Bool) (s s' : Refs) (w' : Side) : Prop :=
  match r with
  | .ended e fs m => ok = false ∧ s'.ec = some e ∧ w'.host.fs = fs ∧ s'.summary = m
  | .going fs m rest =>
    ok = true ∧ s'.ec = s.ec ∧ w'.host.fs = fs ∧ s'.summary = m ∧ w'.incoming = rest

theorem FileOutcome.interpreted (hn : ¬ f.net) (hd : ¬ f.disk) {safe : Bytes} {size : UInt64}
    {expected : UInt32} {ok : Bool} (h : FileOutcome f safe size expected s w ok s' w') :
    (match openTarget w.host.fs safe with
      | (fs₁, none) => Reception.ended .permissionDenied fs₁ s.summary
      | (fs₁, some k) => receiveAt fs₁ k s.summary safe size expected w.incoming).Matches ok s
        (if ok then { s' with summary := s'.summary.add size safe } else s') w' := by
  cases h with
  | closed fs₁ hp ho =>
    rw [openTarget_eq_none ((prepared_iff hd).mp hp) (ho.resolve_left hd)]
    exact ⟨rfl, rfl, rfl, rfl⟩
  | whole fs₁ k payload rest stored p ho hl hi hs hsd =>
    obtain rfl := hsd.resolve_right hd
    have hlt : ¬ (stored ++ rest).length < size.toNat := by rw [List.length_append]; omega
    simp only [(opens_iff hd).mp ho, receiveAt, if_neg hlt, hi, List.take_left' hl,
      List.drop_left' hl]
    cases passes expected stored with
    | false => exact ⟨rfl, rfl, rfl, rfl⟩
    | true => exact ⟨rfl, rfl, rfl, rfl, rfl⟩
  | cut fs₁ k stored p ho hlt hs hsd =>
    obtain rfl := hsd.resolve_right hd
    simp only [(opens_iff hd).mp ho, receiveAt, if_pos hlt]
    exact ⟨rfl, rfl, rfl, rfl⟩
  | failed e fs₁ k bs rest stored p ho hnd => exact absurd hnd (by simp [GivenUp, hn, hd])

/-- Without faults, one iteration does what `interpretRecord` says. -/
theorem RecordOutcome.interpreted (hn : ¬ f.net) (hd : ¬ f.disk) {ok : Bool}
    (h : RecordOutcome f options dir s w ok s' w') :
    (interpretRecord options dir w.host.fs s.summary w.incoming).Matches ok s s' w' := by
  unfold interpretRecord
  cases h with
  | noHeader hh =>
    have hi := hh.interpreted hn
    split at hi
    · cases hi.1
    · rename_i er he
      obtain ⟨-, rfl⟩ := hi
      rw [he]
      exact ⟨rfl, rfl, congrArg Host.fs hh.frame.2.2, rfl⟩
  | skipped e rest he hi =>
    rw [hi, headerOf_encode (by simp [he])]
    simp only [interpretEntry, if_pos he]
    exact ⟨rfl, rfl, rfl, rfl, rfl⟩
  | rejected e rest er he hl hi hv =>
    rw [hi, headerOf_encode hl]
    simp only [interpretEntry, if_neg he, hv]
    exact ⟨rfl, rfl, rfl, rfl⟩
  | refused e rest safe he hl hi hv ho =>
    rw [hi, headerOf_encode hl]
    simp only [interpretEntry, if_neg he, hv]
    exact ho.interpreted hn hd
  | stored e rest safe he hl hi hv ho =>
    rw [hi, headerOf_encode hl]
    simp only [interpretEntry, if_neg he, hv]
    exact ho.interpreted hn hd

theorem interpretRecords_succ (n : ℕ) :
    interpretRecords options dir (n + 1) fs m stream =
      match interpretRecord options dir fs m stream with
      | .ended e fs m => .ended e fs m
      | .going fs m rest => interpretRecords options dir n fs m rest := rfl

/-- The record loop, with `n` records still to come, is on its way to `goal`. -/
structure Interpreting (options : ReceiverOptions) (dir out : Bytes) (goal : Reception)
    (ec : ErrorCode) (n : ℕ) (s : Refs) (w : Side) : Prop where
  goal : interpretRecords options dir n w.host.fs s.summary w.incoming = goal
  ec : s.ec = ec
  outgoing : w.outgoing = out

theorem Interpreting.step (hn : ¬ f.net) (hd : ¬ f.disk) {out : Bytes} {goal : Reception}
    {ec : ErrorCode} {n : ℕ} {ok : Bool} (h : Interpreting options dir out goal ec (n + 1) s w)
    (ho : RecordOutcome f options dir s w ok s' w') :
    if ok then Interpreting options dir out goal ec n s' w'
    else (∃ e, goal = .ended e w'.host.fs s'.summary ∧ s'.ec = some e) ∧ w'.outgoing = out := by
  obtain ⟨hg, hec, hout⟩ := h
  have hi := ho.interpreted hn hd
  have hfr := ho.frame.2.trans hout
  rw [interpretRecords_succ] at hg
  cases hr : interpretRecord options dir w.host.fs s.summary w.incoming with
  | ended e fs m =>
    rw [hr] at hi hg
    obtain ⟨rfl, hec', rfl, rfl⟩ := hi
    exact ⟨⟨e, hg.symm, hec'⟩, hfr⟩
  | going fs m rest =>
    rw [hr] at hi hg
    obtain ⟨rfl, hec', rfl, rfl, rfl⟩ := hi
    exact ⟨hg, hec'.trans hec, hfr⟩

theorem always_finishSession_ec (hn : ¬ f.net) : Always f finishSession s w fun _ s' w' =>
    s'.ec = (if w.incoming.length < 4 then some .connectionReset else s.ec) ∧
      (∃ t, s'.summary = { s.summary with elapsedSeconds := t }) ∧
      w'.host = w.host ∧ w'.outgoing = w.outgoing := by
  unfold finishSession
  rw [Always, wp_bind]
  apply wp_mono always_readDone
  intro ok s₁ w₁ h
  rw [wp_bind]
  apply wp_mono always_elapsed
  rintro t _ _ ⟨rfl, rfl⟩
  rcases h with ⟨buf, rest, hl, hi, -, rfl, rfl⟩ | ⟨-, hlt | ⟨_, _, _, hf, _, _⟩⟩
  · rw [if_neg (by rw [hi, List.length_append]; omega)]
    exact ⟨rfl, ⟨t, rfl⟩, rfl, rfl⟩
  · rw [if_pos hlt]
    exact ⟨rfl, ⟨t, rfl⟩, rfl, rfl⟩
  · exact absurd hf hn

theorem OpenOutcome.interpreted (hn : ¬ f.net) (hs : ¬ f.stall) (hd : ¬ f.disk)
    {r : Option (SessionHeader × Bytes)} (h : OpenOutcome f options s w r s' w') :
    s'.summary = s.summary ∧ match r with
      | some (header, dir) => ¬ w.incoming.length < 32 ∧
          sessionOf (w.incoming.take 32) = some header ∧ dir = outputDir options w.host.fs ∧
          (prepareOutput options w.host.fs).isDirectory dir ∧ s'.ec = s.ec ∧
          w'.host.fs = prepareOutput options w.host.fs ∧ w'.incoming = w.incoming.drop 32 ∧
          w'.outgoing = w.outgoing ++ encodeAck 0
      | none => ∃ e fs reply, interpret options w.host.fs s.summary w.incoming =
          ⟨false, some e, fs, s.summary, reply⟩ ∧ s'.ec = some e ∧ w'.host.fs = fs ∧
          w'.outgoing = w.outgoing ++ reply := by
  have hlen : ∀ {buf rest : Bytes}, buf.length = 32 → w.incoming = buf ++ rest →
      ¬ w.incoming.length < 32 ∧ w.incoming.take 32 = buf ∧ w.incoming.drop 32 = rest := by
    rintro buf rest hl hi
    rw [hi, List.take_left' hl, List.drop_left' hl, List.length_append]
    exact ⟨by omega, rfl, rfl⟩
  cases h with
  | noHandshake hh =>
    cases hh with
    | noHeader hr =>
      cases hr with
      | malformed buf rest hl hi hp =>
        obtain ⟨hlt, htake, -⟩ := hlen hl hi
        refine ⟨rfl, .invalidArgument, w.host.fs, [], ?_, rfl, rfl, (List.append_nil _).symm⟩
        rw [interpret, if_neg hlt, htake, hp]
      | lost hlost =>
        rcases hlost with hlt | ⟨_, _, _, hf, _, _⟩
        · refine ⟨rfl, .connectionReset, w.host.fs, [], ?_, rfl, rfl, (List.append_nil _).symm⟩
          rw [interpret, if_pos hlt]
        · exact absurd hf hn
    | noAck rest ha =>
      cases ha with
      | failed e sent _ hf => exact absurd hf (by simp [hn, hs])
  | noOutput header hh ho =>
    cases hh with
    | done buf rest _ hl hi hp =>
      obtain ⟨hlt, htake, -⟩ := hlen hl hi
      cases ho with
      | missing fs₁ hm hno =>
        obtain rfl := (made_iff hd).mp hm
        refine ⟨rfl, .notADirectory, _, _, ?_, rfl, rfl, rfl⟩
        rw [interpret, if_neg hlt, htake, hp]
        simp only
        rw [if_neg (by simpa using hno)]
        rfl
  | opened header dir hh ho =>
    cases hh with
    | done buf rest _ hl hi hp =>
      obtain ⟨hlt, htake, hdrop⟩ := hlen hl hi
      cases ho with
      | ready fs₁ hm hyes =>
        obtain rfl := (made_iff hd).mp hm
        exact ⟨rfl, hlt, htake ▸ hp, rfl, hyes, rfl, rfl, hdrop.symm, rfl⟩

/-- Without faults, the receiver's code computes `interpret`. -/
theorem always_receiveStream_interpret (hn : ¬ f.net) (hs : ¬ f.stall) (hd : ¬ f.disk) :
    Always f (receiveStream options) s w fun ok s' w' =>
      ∃ r, interpret options w.host.fs s.summary w.incoming = r ∧ ok = r.ok ∧
        s'.ec = r.ec.or s.ec ∧ w'.host.fs = r.fs ∧
        (∃ t, s'.summary = { r.summary with elapsedSeconds := t }) ∧
        w'.outgoing = w.outgoing ++ r.reply := by
  refine always_receiveStream
    (I := fun dir n s' w' => ∃ goal, interpret options w.host.fs s.summary w.incoming =
      conclude goal ∧ Interpreting options dir (w.outgoing ++ encodeAck 0) goal s.ec n s' w')
    (J := fun s' w' => ∃ e, interpret options w.host.fs s.summary w.incoming =
      conclude (.ended e w'.host.fs s'.summary) ∧ s'.ec = some e ∧
        w'.outgoing = w.outgoing ++ encodeAck 0)
    ?_ ?_ ?_ ?_ ?_
  · intro s' w' ho
    obtain ⟨hm, e, fs, reply, hi, hec, hfs, hout⟩ := ho.interpreted hn hs hd
    exact ⟨_, hi, rfl, hec, hfs, ⟨_, hm⟩, hout⟩
  · intro header dir s' w' ho
    obtain ⟨hm, hlt, hp, rfl, hyes, hec, hfs, hin, hout⟩ := ho.interpreted hn hs hd
    refine ⟨_, ?_, ⟨rfl, hec, hout⟩⟩
    rw [interpret, if_neg hlt, hp, hfs, hm, hin]
    exact if_pos hyes
  · rintro dir n s₁ w₁ ok s' w' ⟨goal, hg, hint⟩ ho
    have hstep := hint.step hn hd ho
    cases ok with
    | false =>
      obtain ⟨⟨e, rfl, hec⟩, hout⟩ := hstep
      exact ⟨e, hg, hec, hout⟩
    | true => exact ⟨goal, hg, hstep⟩
  · rintro s' w' ⟨e, hg, hec, hout⟩
    exact ⟨_, hg, rfl, hec, rfl, ⟨_, rfl⟩, hout⟩
  · rintro dir s₁ w₁ ⟨goal, hg, hint⟩
    obtain ⟨rfl, hec, hout⟩ := hint
    apply wp_mono (always_finishSession_ec hn)
    rintro _ s' w' ⟨hec', hm, hhost, hout'⟩
    refine ⟨_, hg, rfl, ?_, congrArg Host.fs hhost, hm, hout'.trans hout⟩
    rw [hec', hec]
    change _ = (if w₁.incoming.length < 4 then some Errc.connectionReset else none).or s.ec
    split <;> rfl

/-- What is left of a summary when its time is left out. -/
def untimed (m : ReceiverSummary) : ReceiverSummary := { m with elapsedSeconds := 0 }

/-- However the stream of the peer is cut into segments, in one run and in another, the receiver
ends with the same verdict, error code, file system, reply and, apart from the time, summary. -/
theorem segmentation_irrelevant (options : ReceiverOptions) (s : Refs) (w : Side) :
    Always .none (receiveStream options) s w fun ok₁ s₁ w₁ =>
      Always .none (receiveStream options) s w fun ok₂ s₂ w₂ =>
        ok₁ = ok₂ ∧ s₁.ec = s₂.ec ∧ w₁.host.fs = w₂.host.fs ∧
          untimed s₁.summary = untimed s₂.summary ∧ w₁.outgoing = w₂.outgoing := by
  refine wp_mono (always_receiveStream_interpret (f := .none) id id id) ?_
  rintro ok₁ s₁ w₁ ⟨_, rfl, hok₁, hec₁, hfs₁, ⟨t₁, hm₁⟩, ho₁⟩
  refine wp_mono (always_receiveStream_interpret (f := .none) id id id) ?_
  rintro ok₂ s₂ w₂ ⟨_, rfl, hok₂, hec₂, hfs₂, ⟨t₂, hm₂⟩, ho₂⟩
  refine ⟨hok₁.trans hok₂.symm, hec₁.trans hec₂.symm, hfs₁.trans hfs₂.symm, ?_, ho₁.trans ho₂.symm⟩
  rw [hm₁, hm₂]
  rfl

end Xfer.Transfer
