import Xfer.Common.Castagnoli

/-! # Damage that CRC-32C detects

A message followed by its checksum has a residue that depends on its length
only. So damage goes unnoticed exactly if the flipped bits are a multiple of
the Castagnoli polynomial, which no short burst and no odd number of bits is.
-/

namespace Xfer.Common

open Polynomial Gf2

variable {m d w t : Bytes}

/-- The bytes with the bits flipped that are set in the pattern. -/
def flipBits (w d : Bytes) : Bytes := List.zipWith (· ^^^ ·) w d

/-- The bits of the pattern lie within 32 consecutive positions. -/
def Burst (d : Bytes) : Prop := ∃ i, ∀ j, (messageBits d)[j]? = some true → i ≤ j ∧ j < i + 32

/-- Some bits are flipped, in a short burst or an odd number of them. -/
def Detectable (d : Bytes) : Prop :=
  true ∈ messageBits d ∧ (Burst d ∨ Odd ((messageBits d).count true))

theorem messageBits_flip (h : w.length = d.length) :
    messageBits (flipBits w d) = List.zipWith (· ^^ ·) (messageBits w) (messageBits d) := by
  induction w generalizing d with
  | nil =>
    obtain rfl := List.length_eq_zero_iff.mp h.symm
    rfl
  | cons b w ih =>
    cases d with
    | nil => cases h
    | cons b' d =>
      have ih' := ih (Nat.succ.inj h)
      rw [flipBits, List.zipWith_cons_cons, messageBits_cons, messageBits_cons, messageBits_cons,
        UInt8.toNat_xor, bitsOf_xor, List.zipWith_append (by simp)]
      exact congrArg (_ ++ ·) ih'

theorem messageBits_encodeLE (n v : ℕ) : messageBits (encodeLE n v) = bitsOf (8 * n) v := by
  induction n with
  | zero => rfl
  | succ n ih =>
    have hbyte : bitsOf 8 (UInt8.ofNat ((v >>> (8 * n)) &&& 0xFF)).toNat =
        bitsOf 8 (v >>> (8 * n)) := by
      rw [UInt8.toNat_ofNat', show (0xFF : ℕ) = 2 ^ 8 - 1 from rfl, Nat.and_two_pow_sub_one_eq_mod,
        Nat.mod_mod, bitsOf_mod]
    have hsucc : encodeLE (n + 1) v =
        encodeLE n v ++ [UInt8.ofNat ((v >>> (8 * n)) &&& 0xFF)] := by
      simp [encodeLE, List.range_succ]
    rw [hsucc, messageBits_append, ih, messageBits_cons, messageBits_nil, List.append_nil, hbyte,
      Nat.mul_succ, bitsOf_add]

theorem residue_add_self (p : (ZMod 2)[X]) : residue p + residue p = 0 := by
  rw [← map_add, CharTwo.add_self_eq_zero, map_zero]

theorem residue_of_compute (ht : t.length = 4)
    (h : Crc32.compute m = UInt32.ofNat (decodeLE 4 t)) : residue (ofBits (messageBits (m ++ t))) =
      residue (ofWord 0xFFFFFFFF) * residue X ^ (8 * m.length) + residue (ofWord 0xFFFFFFFF) := by
  have htb : ofBits (messageBits t) = ofWord (Crc32.compute m) := by
    have henc := encodeLE_decodeLE t
    rw [ht] at henc
    have hlt : decodeLE 4 t < 2 ^ 32 := decodeLE_lt 4 t
    rw [h, ofWord, UInt32.toNat_ofNat', Nat.mod_eq_of_lt hlt]
    conv_lhs => rw [← henc, messageBits_encodeLE]
  have hlen : (messageBits t).length = 32 := by rw [length_messageBits, ht]
  have hself := residue_add_self (ofBits (messageBits m) * X ^ 32)
  rw [map_mul, map_pow] at hself
  rw [messageBits_append, ofBits_append, htb, hlen, map_add, Crc32.compute, Crc32.final,
    Crc32.update, ofWord_xor, map_add, residue_foldl_step, map_mul, map_pow]
  linear_combination hself

/-- Damage is noticed unless the flipped bits are a multiple of the Castagnoli polynomial. -/
theorem compute_flip_ne (hl : d.length = m.length + 4)
    (hd : ¬ castagnoli ∣ ofBits (messageBits d)) :
    Crc32.compute ((flipBits (m ++ encodeLE 4 (Crc32.compute m).toNat) d).take m.length) ≠
      UInt32.ofNat (decodeLE 4 ((flipBits (m ++ encodeLE 4 (Crc32.compute m).toNat) d).drop m.length)) := by
  intro h
  let w := m ++ encodeLE 4 (Crc32.compute m).toNat
  have hw : w.length = d.length := by rw [hl, List.length_append, length_encodeLE]
  have hflip : (flipBits w d).length = m.length + 4 := by
    rw [flipBits, List.length_zipWith, hw, Nat.min_self, hl]
  have hgenuine := residue_of_compute (m := m) (t := encodeLE 4 (Crc32.compute m).toNat) (by simp)
    (by rw [← List.append_nil (encodeLE 4 _), decodeLE_encodeLE,
      Nat.mod_eq_of_lt (Crc32.compute m).toNat_lt, UInt32.ofNat_toNat])
  have hdamaged := residue_of_compute (by rw [List.length_drop, hflip]; omega) h
  rw [List.take_append_drop, List.length_take, hflip, Nat.min_eq_left (by omega), ← hgenuine,
    messageBits_flip hw, ofBits_xor (by simp [hw]), map_add] at hdamaged
  exact hd (AdjoinRoot.mk_eq_zero.mp (add_eq_left.mp hdamaged))

theorem Detectable.not_dvd (h : Detectable d) : ¬ castagnoli ∣ ofBits (messageBits d) := by
  obtain ⟨ht, ⟨i, hi⟩ | hodd⟩ := h
  · generalize messageBits d = e at ht hi ⊢
    have hlow : e.take i = List.replicate (e.take i).length false := by
      refine List.eq_replicate_iff.mpr ⟨rfl, fun b hb => ?_⟩
      obtain ⟨j, hj, rfl⟩ := List.mem_take_iff_getElem.mp hb
      by_contra hne
      have hset := hi j (by rw [List.getElem?_eq_getElem (by omega), Bool.eq_true_of_not_eq_false hne])
      omega
    have hhigh : e.drop (i + 32) = List.replicate (e.drop (i + 32)).length false := by
      refine List.eq_replicate_iff.mpr ⟨rfl, fun b hb => ?_⟩
      obtain ⟨j, hj, rfl⟩ := List.mem_drop_iff_getElem.mp hb
      by_contra hne
      have hset := hi (i + 32 + j) (by
        rw [List.getElem?_eq_getElem (by omega), Bool.eq_true_of_not_eq_false hne])
      omega
    have hsplit : e = e.take i ++ ((e.drop i).take 32 ++ e.drop (i + 32)) := by
      rw [← List.drop_drop, List.take_append_drop, List.take_append_drop]
    have hpoly : ofBits e = ofBits ((e.drop i).take 32) * X ^ (e.drop (i + 32)).length := by
      conv_lhs => rw [hsplit, hlow, hhigh]
      rw [ofBits_append, ofBits_replicate_false, zero_mul, zero_add, ofBits_append,
        ofBits_replicate_false, add_zero, List.length_replicate]
    rw [hpoly]
    refine not_dvd_of_burst coeff_zero_castagnoli ?_ ?_
    · rw [degree_castagnoli]
      exact_mod_cast List.length_take_le 32 (e.drop i)
    · rw [hsplit, hlow, hhigh, List.mem_append, List.mem_append] at ht
      rcases ht with ht | ht | ht
      · cases List.eq_of_mem_replicate ht
      · exact ht
      · cases List.eq_of_mem_replicate ht
  · exact not_dvd_of_odd eval_one_castagnoli hodd

end Xfer.Common
