import Xfer.Net.Liveness
import Xfer.Transfer.Delivery
import Xfer.Transfer.SentSession

/-! # Damaged streams

A session that breaks off before the end of its last record is refused with an
error code. So is one in which a payload has been replaced by another one with a
different checksum, unless the genuine checksum is zero, which the protocol
reserves for payloads without one.
-/

namespace Xfer.Transfer

open Net Common Posix Process Code

variable {f : Faults} {s s' : Refs} {w w' : Side} {options : ReceiverOptions} {dir : Bytes}

/-- On a stream that starts like a record with a name, a successful iteration takes that record. -/
theorem Taken.of_record {r : Record} {rest t : Bytes} (hne : r.path ≠ [])
    (hi : w.incoming ++ t = r.encode ++ rest) (h : Taken f options dir s w s' w') :
    w'.incoming ++ t = rest ∧ passes (expectedCrc options r.crc) r.payload = true := by
  cases h with
  | bare e rest' he hi' =>
    rw [hi', Record.encode, List.append_assoc, List.append_assoc] at hi
    obtain ⟨rfl, _⟩ := encodeFileHeader_inj (by simp [he]) r.fits hi
    exact absurd he hne
  | record r' rest' safe fs₁ k stored p hne' hi' hv ho hp =>
    rw [hi', List.append_assoc] at hi
    obtain ⟨rfl, hr⟩ := Record.encode_inj hi
    exact ⟨hr, hp⟩

/-- The bytes break off before the end of the last record that their header announces. -/
def Interrupted (sent : Bytes) : Prop :=
  ∃ (header : SessionHeader) (rs : List Record), header.totalFiles.toNat = rs.length ∧
    (∀ r ∈ rs, r.path ≠ []) ∧
      ∃ t, t ≠ [] ∧ sent ++ t = encodeSessionHeader header ++ rs.flatMap Record.encode

theorem always_receiveStream_interrupted {net read disk scan : Prop} (h : Interrupted w.incoming) :
    Always ⟨net, False, read, disk, scan⟩ (receiveStream options) s w fun ok s' _ =>
      ok = false ∧ s'.ec ≠ none := by
  obtain ⟨header, rs, hn, hne, t, ht, hcut⟩ := h
  refine always_receiveStream
    (I := fun _ n _ w' => ∃ todo : List Record, todo.length = n ∧ (∀ r ∈ todo, r.path ≠ []) ∧
      w'.incoming ++ t = todo.flatMap Record.encode)
    (J := fun s' _ => s'.ec ≠ none)
    (fun ho => ⟨rfl, ho.ec_ne_none id⟩) ?_ ?_ (fun h => ⟨rfl, h⟩) ?_
  · intro header' dir s' w' ho
    obtain ⟨rfl, hi⟩ := ho.header hcut
    exact ⟨rs, hn.symm, hne, hi⟩
  · rintro dir n s₁ w₁ ok s' w' ⟨todo, hl, hall, hi⟩ ho
    cases ok with
    | false => exact ho.ec
    | true =>
      cases todo with
      | nil => cases hl
      | cons r todo =>
        obtain ⟨hr, hall⟩ := List.forall_mem_cons.mp hall
        exact ⟨todo, Nat.succ.inj hl, hall, (ho.taken.of_record hr hi).1⟩
  · rintro dir s₁ w₁ ⟨todo, hl, -, hi⟩
    obtain rfl := List.length_eq_zero_iff.mp hl
    exact absurd (List.append_eq_nil_iff.mp hi).2 ht

/-- Whatever its faults, the receiver refuses a session that breaks off before the end of its last
record, and says why. -/
theorem truncated_refused (net read disk scan : Prop) (options : ReceiverOptions) (s : Refs)
    (host : Host) (out : Bytes) (d : SentSession)
    (i : Fin (encodeSessionHeader d.header ++ d.body).length) :
    Always ⟨net, False, read, disk, scan⟩ (receiveStream options) s
      ⟨host, d.stream.take i, out⟩ fun ok s' _ => ok = false ∧ s'.ec ≠ none := by
  have hbody : d.body = (d.records.map (·.toRecord)).flatMap Record.encode := by
    rw [SentSession.body, List.flatMap_map]
  refine always_receiveStream_interrupted ⟨d.header, d.records.map (·.toRecord), ?_, ?_,
    (encodeSessionHeader d.header ++ d.body).drop i, ?_, ?_⟩
  · rw [List.length_map, d.totalFiles_header]
  · intro r hr
    obtain ⟨r', -, rfl⟩ := List.mem_map.mp hr
    exact r'.named
  · rw [ne_eq, List.drop_eq_nil_iff]
    omega
  · rw [SentSession.stream, ← List.append_assoc, List.take_append_of_le_length i.2.le,
      List.take_append_drop, hbody]

/-- Another payload of the same length. -/
structure Replacement (r : Record) where
  payload : Bytes
  same_length : payload.length = r.payload.length

/-- The record with the other payload and the old checksum. -/
def Replacement.apply {r : Record} (p : Replacement r) : Record :=
  { r with payload := p.payload, size_lt := p.same_length ▸ r.size_lt }

/-- The session in which the payload of the record at `i` has been replaced. -/
def SentSession.damaged (d : SentSession) (i : Fin d.records.length)
    (p : Replacement d.records[i].toRecord) : Bytes :=
  encodeSessionHeader d.header ++ ((d.records.take i).flatMap (·.encode) ++
    (p.apply.encode ++ ((d.records.drop (i + 1)).flatMap (·.encode) ++ encodeDone)))

/-- Whatever its faults, a receiver that verifies checksums refuses a session in which a payload
has been replaced by one with another checksum, if the genuine checksum is not zero. -/
theorem corrupted_refused (f : Faults) (options : ReceiverOptions) (hv : options.verifyCrc = true)
    (s : Refs) (host : Host) (out : Bytes) (d : SentSession) (i : Fin d.records.length)
    (p : Replacement d.records[i].toRecord)
    (hcrc : Crc32.compute p.payload ≠ Crc32.compute d.records[i].payload)
    (h0 : Crc32.compute d.records[i].payload ≠ 0) :
    Always f (receiveStream options) s ⟨host, d.damaged i p, out⟩ fun ok _ _ => ok = false := by
  have hno : passes (expectedCrc options p.apply.crc) p.apply.payload = false := by
    have hc : p.apply.crc = Crc32.compute d.records[i].payload := d.records[i].genuine
    simp only [passes, expectedCrc, hv, if_true, hc, decide_eq_false_iff_not, not_or]
    exact ⟨h0, hcrc⟩
  obtain ⟨tail, ht⟩ : ∃ tail, d.damaged i p = encodeSessionHeader d.header ++
      ((d.records.take i).flatMap (·.encode) ++ (p.apply.encode ++ tail)) := ⟨_, rfl⟩
  refine always_receiveStream
    (I := fun _ n _ w' => ∃ todo : List SentRecord, todo.length < n ∧
      w'.incoming = todo.flatMap (·.encode) ++ (p.apply.encode ++ tail))
    (J := fun _ _ => True) (fun _ => rfl) ?_ ?_ (fun _ => rfl) ?_
  · intro header dir s' w' ho
    obtain ⟨rfl, hi⟩ := ho.header ((List.append_nil _).trans ht)
    rw [List.append_nil] at hi
    refine ⟨d.records.take i, ?_, hi⟩
    rw [d.totalFiles_header, List.length_take]
    omega
  · rintro dir n s₁ w₁ ok s' w' ⟨todo, hl, hi⟩ ho
    cases ok with
    | false => trivial
    | true =>
      rw [← List.append_nil w₁.incoming] at hi
      cases todo with
      | nil =>
        have hne : p.apply.path ≠ [] := d.records[i].named
        have hp := (ho.taken.of_record hne hi).2
        rw [hno] at hp
        cases hp
      | cons r todo =>
        rw [List.flatMap_cons, List.append_assoc] at hi
        have hi' := (ho.taken.of_record r.named hi).1
        rw [List.append_nil] at hi'
        exact ⟨todo, Nat.succ_lt_succ_iff.mp hl, hi'⟩
  · rintro dir s₁ w₁ ⟨todo, hl, -⟩
    exact absurd hl (Nat.not_lt_zero _)

/-- A session with one file. -/
def oneFile (r : SentRecord) : SentSession := ⟨[r], by simp⟩

def sampleRecord : SentRecord :=
  ⟨.small 0x61 (Crc32.compute [0x62]) 0x62, by decide, rfl⟩

theorem corrupted_sample_refused :
    Always .none (receiveStream { outputDir := rootName }) {}
      ⟨⟨.empty, none⟩, (oneFile sampleRecord).damaged ⟨0, by decide⟩ ⟨[0x63], rfl⟩, []⟩
      fun ok _ _ => ok = false :=
  corrupted_refused _ _ rfl _ _ _ _ _ _
    (by rw [Crc32.compute_eq, Crc32.compute_eq]; decide)
    (by rw [Crc32.compute_eq]; decide)

/-- Four bytes whose checksum is zero. -/
def zeroRecord : SentRecord :=
  ⟨⟨[0x61], Crc32.compute [0xAB, 0x9B, 0xE0, 0x9B], [0xAB, 0x9B, 0xE0, 0x9B], by decide, by decide⟩,
    by decide, rfl⟩

theorem damaged_oneFile (r : SentRecord) (p : Replacement r.toRecord) :
    (oneFile r).damaged ⟨0, Nat.one_pos⟩ p =
      encodeSessionHeader (oneFile r).header ++ ([p.apply].flatMap Record.encode ++ encodeDone) := by
  rw [List.flatMap_singleton]
  rfl

/-- Any other four bytes pass for them. -/
theorem zero_crc_corruption_accepted :
    ∃ (d : SentSession) (i : Fin d.records.length) (p : Replacement d.records[i].toRecord),
      Crc32.compute p.payload ≠ Crc32.compute d.records[i].payload ∧
      ¬ Always .none (receiveStream { outputDir := rootName }) {}
        ⟨⟨.empty, none⟩, d.damaged i p, []⟩ fun ok _ _ => ok = false := by
  let p : Replacement zeroRecord.toRecord := ⟨[0, 0, 0, 0], rfl⟩
  have hzero : Crc32.compute [0xAB, 0x9B, 0xE0, 0x9B] = 0 := by
    rw [Crc32.compute_eq]
    decide +kernel
  have hother : Crc32.compute [0, 0, 0, 0] ≠ 0 := by
    rw [Crc32.compute_eq]
    decide +kernel
  have happly : p.apply = ⟨[0x61], 0, [0, 0, 0, 0], by decide, by decide⟩ :=
    congrArg (fun c => (⟨[0x61], c, [0, 0, 0, 0], by decide, by decide⟩ : Record)) hzero
  refine ⟨oneFile zeroRecord, ⟨0, Nat.one_pos⟩, p, hother.trans_eq hzero.symm, fun h => ?_⟩
  have hdel : Always .none (receiveStream { outputDir := rootName }) {}
      ⟨⟨.empty, none⟩, (oneFile zeroRecord).damaged ⟨0, Nat.one_pos⟩ p, []⟩ fun ok _ w' =>
        deliver { outputDir := rootName } .empty [p.apply] = (w'.host.fs, ok) :=
    wp_mono (always_receiveStream_deliver id id id (damaged_oneFile zeroRecord p) rfl (by decide))
      fun _ _ _ hd => hd.1
  obtain ⟨ok, s', w', hd, rfl⟩ := (hdel.and h).exists
  have hv : (deliver { outputDir := rootName } .empty [p.apply]).2 = true := by
    rw [happly]
    decide
  rw [hd] at hv
  cases hv

end Xfer.Transfer
