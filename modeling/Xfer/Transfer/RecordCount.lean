import Xfer.Net.Liveness
import Xfer.Transfer.Delivery

/-! # The announced number of records

Too few records are refused. Too many are not: what follows the announced number
of records is taken for the trailer, which decides nothing.
-/

namespace Xfer.Transfer

open Net Common Posix Process Code

variable {f : Faults} {s s' : Refs} {w w' : Side} {options : ReceiverOptions} {dir : Bytes}
  {fs : FileSystem}

/-- A record as the sender makes it, with a path that passes the check. -/
structure SoundRecord extends SentRecord where
  safe : ∀ dir, validateAndJoin dir path = .ok (join dir path)

/-- Each target can be opened in the tree built so far. -/
def opensAll (dir : Bytes) : FileSystem → List Record → Bool
  | _, [] => true
  | fs, r :: rs =>
    match openTarget fs (join dir r.path) with
    | (fs₁, some k) => opensAll dir (fs₁.place k (.file r.payload)) rs
    | (_, none) => false

theorem SoundRecord.passes (r : SoundRecord) :
    passes (expectedCrc options r.crc) r.payload = true := by
  unfold Transfer.passes expectedCrc
  split <;> simp [r.genuine]

theorem storeAll_sound (rs : List SoundRecord) :
    (storeAll options dir fs (rs.map (·.toRecord))).2 =
      opensAll dir fs (rs.map (·.toRecord)) := by
  induction rs generalizing fs with
  | nil => rfl
  | cons r rs ih =>
    rw [List.map_cons, storeAll_cons, store, r.safe, opensAll]
    simp only
    rcases openTarget fs (join dir r.path) with ⟨fs₁, _ | k⟩
    · rfl
    · simp only [r.passes]
      exact ih

/-- A trailer in the place of a record ends the session. -/
theorem RecordOutcome.not_of_short {ok : Bool} (hl : w.incoming.length < 18)
    (h : RecordOutcome f options dir s w ok s' w') : ok = false := by
  cases h with
  | skipped e rest he hi =>
    rw [hi, List.length_append, length_encodeFileHeader] at hl
    omega
  | stored e rest safe he hle hi =>
    rw [hi, List.length_append, length_encodeFileHeader] at hl
    omega
  | _ => rfl

theorem always_receiveStream_short (hn : ¬ f.net) (hs : ¬ f.stall) (hd : ¬ f.disk)
    {header : SessionHeader} {rs : List Record} {tail : Bytes}
    (hi : w.incoming = encodeSessionHeader header ++ (rs.flatMap Record.encode ++ tail))
    (hlen : rs.length < header.totalFiles.toNat) (hne : ∀ r ∈ rs, r.path ≠ [])
    (ht : tail.length < 18) :
    Always f (receiveStream options) s w fun ok _ _ => ok = false := by
  let goal := storeAll options (outputDir options w.host.fs) (prepareOutput options w.host.fs) rs
  refine always_receiveStream
    (I := fun dir n s' w' => ∃ todo, todo.length < n ∧ (∀ r ∈ todo, r.path ≠ []) ∧
      Delivering options dir tail (w.outgoing ++ encodeAck 0) goal
        (summarize (outputDir options w.host.fs) s.summary rs) todo s' w')
    (J := fun _ _ => True) (fun _ => rfl) ?_ ?_ (fun _ => rfl) ?_
  · intro header' dir' s' w' ho
    obtain ⟨hm, rfl, hr⟩ := ho.exact hn hs hd hi
    split at hr
    · obtain ⟨rfl, rfl⟩ := Prod.mk.inj (Option.some.inj hr)
      exact ⟨rs, hlen, hne, rfl, rfl, by rw [hm], rfl⟩
    · cases hr
  · rintro dir' n s₁ w₁ ok s' w' ⟨todo, hl, hne', hdel⟩ ho
    cases todo with
    | nil =>
      have : ok = false := by
        refine ho.not_of_short ?_
        rw [hdel.incoming]
        exact ht
      subst this
      trivial
    | cons r todo =>
      have hstep := hdel.step hn hd (hne' r List.mem_cons_self) ho
      cases ok with
      | false => trivial
      | true =>
        exact ⟨todo, Nat.succ_lt_succ_iff.mp hl, fun r hr => hne' r (List.mem_cons_of_mem _ hr),
          hstep⟩
  · rintro dir' s₁ w₁ ⟨todo, hl, -⟩
    exact absurd hl (Nat.not_lt_zero _)

/-- The bytes of a session that announces a number of files and holds some sound records. -/
def announced (header : SessionHeader) (rs : List SoundRecord) : Bytes :=
  encodeSessionHeader header ++ ((rs.map (·.toRecord)).flatMap Record.encode ++ encodeDone)

/-- The receiver can store the records that it reads. -/
def canStore (options : ReceiverOptions) (fs : FileSystem) (rs : List SoundRecord) : Bool :=
  (prepareOutput options fs).isDirectory (outputDir options fs) &&
    opensAll (outputDir options fs) (prepareOutput options fs) (rs.map (·.toRecord))

theorem deliver_sound (rs : List SoundRecord) :
    (deliver options fs (rs.map (·.toRecord))).2 = canStore options fs rs := by
  unfold deliver canStore
  simp only
  split
  · rename_i hd
    rw [hd, Bool.true_and, storeAll_sound]
  · rename_i hd
    rw [Bool.eq_false_iff.mpr hd, Bool.false_and]

theorem always_receive_announced (header : SessionHeader) (rs : List SoundRecord)
    (hlen : header.totalFiles.toNat ≤ rs.length)
    (hi : w.incoming = announced header rs) :
    Always .none (receiveStream options) s w fun ok _ _ =>
      ok = canStore options w.host.fs (rs.take header.totalFiles.toNat) := by
  have hsplit : w.incoming = encodeSessionHeader header ++
      (((rs.take header.totalFiles.toNat).map (·.toRecord)).flatMap Record.encode ++
        (((rs.drop header.totalFiles.toNat).map (·.toRecord)).flatMap Record.encode ++
          encodeDone)) := by
    rw [hi, announced, ← List.append_assoc (List.flatMap _ _), ← List.flatMap_append,
      ← List.map_append, List.take_append_drop]
  refine wp_mono (always_receiveStream_deliver id id id hsplit (by simp [hlen]) fun r hr => ?_) ?_
  · obtain ⟨r', _, rfl⟩ := List.mem_map.mp hr
    exact r'.named
  · rintro ok s' w' ⟨hdel, -⟩
    rw [← deliver_sound, hdel]

/-- A session is refused exactly if it holds fewer records than it announces, or one of the
announced number of records cannot be stored; surplus records are not noticed. -/
theorem receiveStream_false_iff (options : ReceiverOptions) (s : Refs) (host : Host) (out : Bytes)
    (header : SessionHeader) (rs : List SoundRecord) :
    (Always .none (receiveStream options) s ⟨host, announced header rs, out⟩ fun ok _ _ =>
      ok = false) ↔ rs.length < header.totalFiles.toNat ∨
        canStore options host.fs (rs.take header.totalFiles.toNat) = false := by
  by_cases hlt : rs.length < header.totalFiles.toNat
  · refine iff_of_true ?_ (Or.inl hlt)
    refine always_receiveStream_short id id id rfl (by simpa using hlt) (fun r hr => ?_) (by simp)
    obtain ⟨r', _, rfl⟩ := List.mem_map.mp hr
    exact r'.named
  · rw [or_iff_right hlt]
    exact (always_receive_announced header rs (Nat.not_lt.mp hlt) rfl).false_iff id

/-- One record after a header that announces none is accepted. -/
theorem surplus_record_accepted : ∃ (header : SessionHeader) (rs : List SoundRecord),
    rs.length ≠ header.totalFiles.toNat ∧
    ¬ Always .none (receiveStream { outputDir := rootName }) {}
      ⟨⟨.empty, none⟩, announced header rs, []⟩ fun ok _ _ => ok = false := by
  let r : SoundRecord :=
    { path := [0x61], crc := Crc32.compute [], payload := []
      fits := by decide
      size_lt := by decide
      named := by decide
      safe := fun dir => rfl
      genuine := rfl }
  refine ⟨{ totalFiles := 0 }, [r], by decide, fun h => ?_⟩
  have h' : Always .none (receiveStream { outputDir := rootName }) {}
      ⟨⟨.empty, none⟩, announced { totalFiles := 0 } [r], []⟩ fun ok _ _ =>
        ok = canStore { outputDir := rootName } .empty [] :=
    always_receive_announced { totalFiles := 0 } [r] (by decide) rfl
  exact absurd ((h'.false_iff id).mp h) (by decide)

end Xfer.Transfer
