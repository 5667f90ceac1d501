import Xfer.Net.Liveness
import Xfer.Transfer.RoundTrip

/-! # Canonical encodings

Of three messages only what their write functions put out is read. The session
header has two reserved bytes that are written as zero and are not looked at when
they are read, so what is read there can also be written in other ways.
-/

namespace Xfer.Transfer

open Net Common Process Code

variable {f : Faults} {s s' : Refs} {w w' : Side} {buf rest : Bytes}

/-- What a session header holds before its checksum, with zero for the reserved bytes. -/
def clearedFields (buf : Bytes) : Bytes := buf.take 6 ++ ([0, 0] ++ (buf.drop 8).take 20)

/-- A session header with zero for the reserved bytes, and the checksum that it then has. -/
def cleared (buf : Bytes) : Bytes :=
  clearedFields buf ++ encodeU32LE (Crc32.compute (clearedFields buf))

/-- The reserved bytes of a session header. -/
def reserved (buf : Bytes) : Bytes := (buf.drop 6).take 2

theorem clearedFields_eq (buf : Bytes) : clearedFields buf =
    buf.take 4 ++ ((buf.drop 4).take 2 ++ ([0, 0] ++
      ((buf.drop 8).take 8 ++ ((buf.drop 16).take 8 ++ (buf.drop 24).take 4)))) := by
  have h₁ : buf.take 6 = buf.take 4 ++ (buf.drop 4).take 2 := List.take_add (i := 4) (j := 2)
  have h₂ : (buf.drop 8).take 20 = (buf.drop 8).take 8 ++ (buf.drop 16).take 12 := by
    rw [List.take_add (i := 8) (j := 12), List.drop_drop]
  have h₃ : (buf.drop 16).take 12 = (buf.drop 16).take 8 ++ (buf.drop 24).take 4 := by
    rw [List.take_add (i := 8) (j := 4), List.drop_drop]
  rw [clearedFields, h₁, h₂, h₃, List.append_assoc]

theorem clearedFields_eq_iff (hl : 28 ≤ buf.length) :
    clearedFields buf = buf.take 28 ↔ reserved buf = [0, 0] := by
  have hsplit : buf.take 28 = buf.take 6 ++ (reserved buf ++ (buf.drop 8).take 20) := by
    rw [List.take_add (i := 6) (j := 22), List.take_add (i := 2) (j := 20), List.drop_drop]
    rfl
  have hr : (reserved buf).length = 2 := by simp [reserved]; omega
  rw [hsplit, clearedFields, List.append_cancel_left_eq]
  constructor
  · exact fun h => (List.append_inj h hr.symm).1.symm
  · intro h
    rw [h]

theorem encode_of_sessionOf {header : SessionHeader} (hl : buf.length = 32)
    (h : sessionOf buf = some header) : encodeSessionHeader header = cleared buf := by
  unfold sessionOf at h
  split at h
  · cases h
  · rename_i hm
    rw [ne_eq, not_not] at hm
    split at h
    · cases h
    · obtain rfl := Option.some.inj h
      rw [cleared, encodeSessionHeader, clearedFields_eq, sessionFields_eq, ← hm,
        encodeU32LE_decodeU32LE (by omega),
        encodeU16LE_decodeU16LE (by rw [List.length_drop]; omega),
        encodeU64LE_decodeU64LE (by rw [List.length_drop]; omega),
        encodeU64LE_decodeU64LE (by rw [List.length_drop]; omega),
        encodeU32LE_decodeU32LE (by rw [List.length_drop]; omega)]
      rfl

/-- A session header that is read is canonical exactly if its reserved bytes are zero. -/
theorem cleared_eq_self_iff {header : SessionHeader} (hl : buf.length = 32)
    (h : sessionOf buf = some header) : cleared buf = buf ↔ reserved buf = [0, 0] := by
  rw [← clearedFields_eq_iff (by omega)]
  have hf : (clearedFields buf).length = 28 := by simp [clearedFields]; omega
  unfold sessionOf at h
  split at h
  · cases h
  · split at h
    · cases h
    · rename_i hc
      rw [ne_eq, not_not] at hc
      constructor
      · intro he
        have htake := congrArg (List.take 28) he
        rwa [cleared, List.take_left' hf] at htake
      · intro he
        have hlast : (buf.drop 28).take 4 = buf.drop 28 :=
          List.take_of_length_le (by rw [List.length_drop]; omega)
        rw [cleared, he, ← hc, encodeU32LE_decodeU32LE (by rw [List.length_drop]; omega), hlast,
          List.take_append_drop]

theorem eq_of_ackOf {v : UInt32} (hl : buf.length = 8) (h : ackOf buf = some v) :
    encodeAck v = buf := by
  unfold ackOf at h
  split at h
  · cases h
  · rename_i hm
    rw [ne_eq, not_not] at hm
    have hlast : (buf.drop 4).take 4 = buf.drop 4 :=
      List.take_of_length_le (by rw [List.length_drop]; omega)
    rw [← Option.some.inj h, encodeAck_eq, ← hm, encodeU32LE_decodeU32LE (by omega),
      encodeU32LE_decodeU32LE (by rw [List.length_drop]; omega), hlast, List.take_append_drop]

theorem eq_of_decode_done (hl : buf.length = 4) (h : decodeU32LE buf = kDoneMagic) :
    encodeDone = buf := by
  rw [encodeDone, ← h, encodeU32LE_decodeU32LE (by omega), List.take_of_length_le (by omega)]

/-- After reading from `w`, the write function puts out `g` of the bytes that were consumed. -/
def WritesBack (g : Bytes → Bytes) (w : Side) (s' : Refs) (w' : Side) (write : Session Bool) :
    Prop :=
  ∃ bs, w.incoming = bs ++ w'.incoming ∧ Always .none write s' w' fun ok _ w'' =>
    ok = true ∧ w'' = w'.sent (g bs)

theorem writesBack_iff {g : Bytes → Bytes} {m : Message} (hi : w.incoming = buf ++ w'.incoming) :
    WritesBack g w s' w' m.write ↔ m.encode = g buf := by
  have hw : Always .none m.write s' w' fun ok s'' w'' =>
      ok = true ∧ w'' = w'.sent m.encode := by
    apply wp_mono m.always_write
    rintro _ _ _ (_ | ⟨_, _, _, hn, _⟩)
    · exact ⟨rfl, rfl⟩
    · exact absurd hn (by simp [Faults.none])
  constructor
  · rintro ⟨bs, hi', h⟩
    obtain rfl := List.append_cancel_right (hi.symm.trans hi')
    obtain ⟨ok, s'', w'', ⟨-, rfl⟩, -, he⟩ := (hw.and h).exists
    exact List.append_cancel_left (congrArg World.outgoing he)
  · intro he
    exact ⟨buf, hi, he ▸ hw⟩

/-- An accepted acknowledgement, record header or trailer is written back byte for byte. A session
header is written back with zero for its reserved bytes and the checksum to match, so byte for byte
exactly if they were zero. -/
theorem reads_canonical (f : Faults) (s : Refs) (w : Side) :
    (Always f readSessionHeader s w fun r s' w' => ∀ h, r = some h →
      WritesBack cleared w s' w' (writeSessionHeader h) ∧
      (WritesBack id w s' w' (writeSessionHeader h) ↔ reserved w.incoming = [0, 0])) ∧
    (Always f readAck s w fun r s' w' => ∀ v, r = some v → WritesBack id w s' w' (writeAck v)) ∧
    (Always f readFileHeader s w fun r s' w' => ∀ e, r = some e →
      WritesBack id w s' w' (writeFileHeader e)) ∧
    (Always f readDone s w fun ok s' w' => ok = true → WritesBack id w s' w' writeDone) := by
  constructor
  · apply wp_mono (wp_readSessionHeader fun _ _ _ _ => trivial)
    rintro _ s' w' (⟨buf, rest, header, hl, hi, hp⟩ | _ | _) h ⟨⟩
    have hr : reserved w.incoming = reserved buf := by
      rw [reserved, reserved, hi, List.drop_append_of_le_length (by omega),
        List.take_append_of_le_length (by rw [List.length_drop]; omega)]
    have hi' : w.incoming = buf ++ (w.reading rest).incoming := hi
    constructor
    · exact (writesBack_iff (m := .session header) hi').mpr (encode_of_sessionOf hl hp)
    · rw [hr, ← cleared_eq_self_iff hl hp, ← encode_of_sessionOf hl hp]
      exact writesBack_iff (m := .session header) hi'
  constructor
  · apply wp_mono (wp_readAck fun _ _ _ _ => trivial)
    rintro _ s' w' (⟨buf, rest, v, hl, hi, hp⟩ | _ | _) v ⟨⟩
    exact (writesBack_iff (m := .ack v) hi).mpr (eq_of_ackOf hl hp)
  constructor
  · apply wp_mono always_readFileHeader
    rintro _ s' w' (⟨e, rest, hl, hi⟩ | _ | _ | _) e ⟨⟩
    exact (writesBack_iff (m := .file e hl) hi).mpr rfl
  · apply wp_mono always_readDone
    rintro ok s' w' (⟨buf, rest, hl, hi, rfl, rfl, rfl⟩ | ⟨rfl, -⟩) hok
    · exact (writesBack_iff (m := .done) hi).mpr (eq_of_decode_done hl (of_decide_eq_true hok))
    · cases hok

/-- A session header with something in its reserved bytes. -/
def reservedHeader : Bytes :=
  let fields := (sessionFields {}).set 6 1
  fields ++ encodeU32LE (Crc32.compute fields)

/-- It is read, and other bytes are written for it. -/
theorem reservedHeader_not_canonical :
    ¬ Always .none readSessionHeader {} ⟨⟨.empty, none⟩, reservedHeader, []⟩ fun r s' w' =>
      ∀ h, r = some h → WritesBack id ⟨⟨.empty, none⟩, reservedHeader, []⟩ s' w'
        (writeSessionHeader h) := by
  intro h
  have hfields : ((sessionFields {}).set 6 1).length = 28 := by decide
  have hcrc := decodeU32LE_encodeU32LE (Crc32.compute ((sessionFields {}).set 6 1)) []
  rw [List.append_nil] at hcrc
  have hmagic : decodeU32LE reservedHeader = kProtoMagic := by decide
  obtain ⟨header, hp⟩ : ∃ header, sessionOf reservedHeader = some header := by
    rw [sessionOf, if_neg (not_not.mpr hmagic), reservedHeader, List.drop_left' hfields,
      List.take_left' hfields, hcrc, if_neg (not_not.mpr rfl)]
    exact ⟨_, rfl⟩
  have hl : reservedHeader.length = 32 := by decide
  have hi : reservedHeader = reservedHeader ++ [] := (List.append_nil _).symm
  have hread : Always .none readSessionHeader {} ⟨⟨.empty, none⟩, reservedHeader, []⟩
      (ReadOutcome .none 32 sessionOf {} ⟨⟨.empty, none⟩, reservedHeader, []⟩) :=
    wp_readSessionHeader fun _ _ _ _ => trivial
  obtain ⟨r, s', w', ho, hc⟩ := (hread.and h).exists
  obtain ⟨rfl, rfl, rfl⟩ := ho.of_encode id hl hi hp
  have he : encodeSessionHeader header = id reservedHeader :=
    (writesBack_iff (m := .session header) hi).mp (hc header rfl)
  rw [encode_of_sessionOf hl hp] at he
  exact absurd ((cleared_eq_self_iff hl hp).mp he) (by decide)

end Xfer.Transfer
