import Xfer.Common.Detection
import Xfer.Transfer.Codec

/-! # Damaged session headers

The last field of a session header is the checksum of the others, so a header
that has been damaged detectably is not read.
-/

namespace Xfer.Transfer

open Net Common Process Code

variable {d : Bytes}

theorem sessionOf_flip (hl : d.length = 32) (hd : Detectable d) (h : SessionHeader) :
    sessionOf (flipBits (encodeSessionHeader h) d) = none := by
  have hne := compute_flip_ne (m := sessionFields h) (d := d) (by simp [hl]) hd.not_dvd
  rw [length_sessionFields] at hne
  unfold sessionOf
  split
  · rfl
  · exact if_pos (Ne.symm hne)

/-- A message with its checksum does not pass for genuine once it has been damaged detectably, and
a session header so damaged is not read. -/
theorem damage_detected (d : Bytes) (hd : Detectable d) :
    (∀ m : Bytes, d.length = m.length + 4 →
      let w := flipBits (m ++ encodeU32LE (Crc32.compute m)) d
      Crc32.compute (w.take m.length) ≠ decodeU32LE (w.drop m.length)) ∧
    ∀ (h : SessionHeader) (f : Faults) (s : Refs) (w : Side) (rest : Bytes), d.length = 32 →
      w.incoming = flipBits (encodeSessionHeader h) d ++ rest →
      Always f readSessionHeader s w fun r _ _ => r = none := by
  constructor
  · exact fun m hl => compute_flip_ne hl hd.not_dvd
  · intro h f s w rest hl hi
    have hlen : (flipBits (encodeSessionHeader h) d).length = 32 := by
      rw [flipBits, List.length_zipWith, length_encodeSessionHeader, hl, Nat.min_self]
    apply wp_mono (wp_readSessionHeader fun _ _ _ _ => trivial)
    rintro r s' w' (⟨buf, rest', header, hbuf, hi', hp⟩ | _ | _)
    · obtain ⟨rfl, rfl⟩ := List.append_inj (hi'.symm.trans hi) (hbuf.trans hlen.symm)
      rw [sessionOf_flip hl hd] at hp
      cases hp
    · rfl
    · rfl

/-- One flipped bit in a message of one byte. -/
theorem single_flip_detected :
    Crc32.compute ((flipBits ([0x61] ++ encodeU32LE (Crc32.compute [0x61])) [1, 0, 0, 0, 0]).take 1) ≠
      decodeU32LE ((flipBits ([0x61] ++ encodeU32LE (Crc32.compute [0x61])) [1, 0, 0, 0, 0]).drop 1) :=
  (damage_detected [1, 0, 0, 0, 0] ⟨by decide, Or.inr (by decide)⟩).1 [0x61] rfl

end Xfer.Transfer
