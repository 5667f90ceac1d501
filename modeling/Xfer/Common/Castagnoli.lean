import Mathlib.RingTheory.AdjoinRoot
import Xfer.Common.Crc32
import Xfer.Data.Gf2

/-! # CRC-32C as a remainder

The register of the table implementation is a remainder modulo the Castagnoli
polynomial: a shift multiplies it by the indeterminate, and a byte adds the
next eight coefficients of the message.
-/

namespace Xfer.Common

open Polynomial Gf2

/-- The bits of a message in their order of transmission. -/
def messageBits (m : Bytes) : List Bool := m.flatMap fun b => bitsOf 8 b.toNat

/-- The Castagnoli polynomial. -/
noncomputable def castagnoli : (ZMod 2)[X] := X ^ 32 + ofBits (bitsOf 32 0x1EDC6F41).reverse

def complementFirst (n : ℕ) (l : List Bool) : List Bool := (l.take n).map (!·) ++ l.drop n

/-- The word with the coefficients below the 32nd, the highest in its lowest bit. -/
noncomputable def reflect (p : (ZMod 2)[X]) : UInt32 :=
  ⟨(BitVec.ofBoolListLE ((List.range 32).map fun i => decide (p.coeff (31 - i) = 1))).setWidth 32⟩

/-- CRC-32C by division: the message, times the 32nd power, with its first 32 bits complemented,
leaves a remainder that is reflected and complemented. -/
noncomputable def crc32c (m : Bytes) : UInt32 :=
  reflect (ofBits (complementFirst 32 (messageBits m ++ List.replicate 32 false)) %ₘ castagnoli)
    ^^^ 0xFFFFFFFF

section Message

variable (m m' : Bytes) (b : UInt8)

@[simp] theorem messageBits_nil : messageBits [] = [] := rfl

@[simp] theorem messageBits_cons : messageBits (b :: m) = bitsOf 8 b.toNat ++ messageBits m := rfl

@[simp] theorem messageBits_append :
    messageBits (m ++ m') = messageBits m ++ messageBits m' := List.flatMap_append

@[simp] theorem length_messageBits : (messageBits m).length = 8 * m.length := by
  induction m with
  | nil => rfl
  | cons b m ih =>
    rw [messageBits_cons, List.length_append, ih, length_bitsOf, List.length_cons]
    omega

theorem ofBits_complementFirst {n : ℕ} {l : List Bool} (h : n ≤ l.length) :
    ofBits (complementFirst n l) =
      ofBits l + ofBits (List.replicate n true) * X ^ (l.length - n) := by
  have hpad : ofBits (List.replicate n true) * X ^ (l.length - n) =
      ofBits (List.replicate n true ++ List.replicate (l.length - n) false) := by
    rw [ofBits_append, ofBits_replicate_false, List.length_replicate, add_zero]
  have hzip : complementFirst n l = List.zipWith (· ^^ ·) l
      (List.replicate n true ++ List.replicate (l.length - n) false) := by
    conv_rhs => rw [← List.take_append_drop n l]
    rw [List.zipWith_append (by simpa using h), complementFirst]
    congr 1
    · refine List.ext_getElem (by simp) fun i h₁ h₂ => by simp
    · refine List.ext_getElem (by simp) fun i h₁ h₂ => by simp
  rw [hpad, hzip, ofBits_xor]
  simp
  omega

end Message

section Modulus

theorem reverse_bitsOf_modulus : (bitsOf 32 0x1EDC6F41).reverse = bitsOf 32 0x82F63B78 := by
  decide

theorem castagnoli_eq : castagnoli = X ^ 32 + ofBits (bitsOf 32 0x82F63B78) := by
  rw [castagnoli, reverse_bitsOf_modulus]

theorem degree_castagnoli : castagnoli.degree = 32 := by
  have hlt := degree_ofBits_lt (bitsOf 32 0x82F63B78)
  rw [length_bitsOf] at hlt
  rw [castagnoli_eq, degree_add_eq_left_of_degree_lt, degree_X_pow]
  · rfl
  · rwa [degree_X_pow]

theorem monic_castagnoli : castagnoli.Monic := by
  have hlt := degree_ofBits_lt (bitsOf 32 0x82F63B78)
  rw [length_bitsOf] at hlt
  rw [castagnoli_eq]
  exact monic_X_pow_add hlt

theorem coeff_zero_castagnoli : castagnoli.coeff 0 ≠ 0 := by
  rw [castagnoli_eq, coeff_add, coeff_X_pow, coeff_ofBits]
  decide

theorem eval_one_castagnoli : castagnoli.eval 1 = 0 := by
  rw [castagnoli_eq, eval_add, eval_one_ofBits, eval_pow, eval_X, one_pow]
  decide

end Modulus

section Register

/-- The polynomial in the register: the coefficient of the highest power is in the lowest bit. -/
noncomputable def ofWord (c : UInt32) : (ZMod 2)[X] := ofBits (bitsOf 32 c.toNat)

theorem ofWord_xor (c d : UInt32) : ofWord (c ^^^ d) = ofWord c + ofWord d := by
  rw [ofWord, UInt32.toNat_xor, bitsOf_xor, ofBits_xor (by simp)]
  rfl

theorem degree_ofWord_lt (c : UInt32) : (ofWord c).degree < castagnoli.degree := by
  rw [degree_castagnoli]
  have hlt := degree_ofBits_lt (bitsOf 32 c.toNat)
  rwa [length_bitsOf] at hlt

theorem reflect_ofWord (c : UInt32) : reflect (ofWord c) = c := by
  refine UInt32.toBitVec_inj.mp (BitVec.eq_of_getLsbD_eq fun i hi => ?_)
  have hcoeff : (ofWord c).coeff (31 - i) = coef (c.toNat.testBit i) := by
    rw [ofWord, coeff_ofBits, List.getD_eq_getElem _ _ (by simp; omega), List.getElem_reverse]
    simp [bitsOf, show 31 - (31 - i) = i by omega]
  have hbit : decide (coef (c.toNat.testBit i) = 1) = c.toNat.testBit i := by
    cases c.toNat.testBit i <;> decide
  rw [reflect, BitVec.getLsbD_setWidth, BitVec.getLsbD_ofBoolListLE,
    List.getD_eq_getElem _ _ (by simpa using hi), List.getElem_map, List.getElem_range, hcoeff, hbit,
    decide_eq_true hi, Bool.true_and]
  rfl

/-- Congruence modulo the Castagnoli polynomial, as equality of residues. -/
noncomputable abbrev residue : (ZMod 2)[X] →+* AdjoinRoot castagnoli := AdjoinRoot.mk castagnoli

theorem toNat_shiftRight_one (c : UInt32) : (c >>> 1).toNat = c.toNat >>> 1 := by
  rw [UInt32.toNat_shiftRight]
  rfl

theorem and_one_ne_zero_iff (c : UInt32) : c &&& 1 ≠ 0 ↔ c.toNat.testBit 0 = true := by
  rw [ne_eq, ← UInt32.toNat_inj, UInt32.toNat_and, Nat.testBit_zero, decide_eq_true_iff]
  change ¬ c.toNat &&& 1 = 0 ↔ _
  rw [Nat.and_one_is_mod]
  omega

/-- Shifting the register multiplies it by the indeterminate, but for the bit that falls out. -/
theorem ofWord_shiftRight (c : UInt32) :
    X * ofWord c = C (coef (c.toNat.testBit 0)) * X ^ 32 + ofWord (c >>> 1) := by
  have hlow : ofWord c = C (coef (c.toNat.testBit 0)) * X ^ 31 +
      ofBits (bitsOf 31 (c.toNat >>> 1)) := by
    rw [ofWord, show 32 = 1 + 31 from rfl, bitsOf_add, bitsOf_one, List.singleton_append,
      ofBits_cons, length_bitsOf]
  have hhigh : ofWord (c >>> 1) = ofBits (bitsOf 31 (c.toNat >>> 1)) * X := by
    have hlt : c.toNat >>> 1 < 2 ^ 31 := by
      have := c.toNat_lt
      rw [Nat.shiftRight_eq_div_pow]
      omega
    rw [ofWord, toNat_shiftRight_one, show 32 = 31 + 1 from rfl, bitsOf_of_lt hlt, ofBits_append,
      ofBits_replicate_false]
    simp
  rw [hlow, hhigh]
  ring

theorem residue_X_pow : residue (X ^ 32) = residue (ofWord 0x82F63B78) := by
  have hw : ofWord 0x82F63B78 = ofBits (bitsOf 32 0x82F63B78) := by
    rw [ofWord, show (0x82F63B78 : UInt32).toNat = 0x82F63B78 from rfl]
  have hx : (X : (ZMod 2)[X]) ^ 32 = castagnoli + ofWord 0x82F63B78 := by
    rw [castagnoli_eq, hw, add_assoc, CharTwo.add_self_eq_zero, add_zero]
  rw [hx, map_add, AdjoinRoot.mk_self, zero_add]

theorem residue_shiftBit (c : UInt32) :
    residue (ofWord (shiftBit c)) = residue X * residue (ofWord c) := by
  rw [← map_mul, ofWord_shiftRight]
  unfold shiftBit
  split
  · rename_i hc
    rw [(and_one_ne_zero_iff c).mp hc, ofWord_xor, map_add, map_add, ← residue_X_pow]
    simp [coef]
  · rename_i hc
    rw [Bool.eq_false_iff.mpr (mt (and_one_ne_zero_iff c).mpr hc)]
    simp [coef]

theorem residue_tableEntry (c : UInt32) :
    residue (ofWord (tableEntry c)) = residue X ^ 8 * residue (ofWord c) := by
  have hfold : ∀ n, residue (ofWord ((List.range n).foldl (fun c _ => shiftBit c) c)) =
      residue X ^ n * residue (ofWord c) := by
    intro n
    induction n with
    | zero => simp
    | succ n ih =>
      rw [List.range_succ, List.foldl_append, List.foldl_cons, List.foldl_nil, residue_shiftBit, ih]
      ring
  exact hfold 8

theorem ofWord_toUInt32 (b : UInt8) : ofWord b.toUInt32 = ofBits (bitsOf 8 b.toNat) * X ^ 24 := by
  rw [ofWord, UInt8.toNat_toUInt32, show 32 = 8 + 24 from rfl, bitsOf_of_lt b.toNat_lt,
    ofBits_append, ofBits_replicate_false, List.length_replicate, add_zero]

theorem ofWord_split (t : UInt32) :
    X ^ 8 * ofWord t = X ^ 8 * ofWord (t &&& 0xFF) + ofWord (t >>> 8) := by
  have hlow : ofWord (t &&& 0xFF) = ofBits (bitsOf 8 t.toNat) * X ^ 24 := by
    have hmod : (t &&& 0xFF).toNat = t.toNat % 2 ^ 8 := by
      rw [UInt32.toNat_and]
      exact Nat.and_two_pow_sub_one_eq_mod t.toNat 8
    rw [ofWord, hmod, show 32 = 8 + 24 from rfl, bitsOf_of_lt (Nat.mod_lt _ (by decide)), bitsOf_mod,
      ofBits_append, ofBits_replicate_false, List.length_replicate, add_zero]
  have hhigh : ofWord (t >>> 8) = ofBits (bitsOf 24 (t.toNat >>> 8)) * X ^ 8 := by
    have hlt : t.toNat >>> 8 < 2 ^ 24 := by
      have := t.toNat_lt
      rw [Nat.shiftRight_eq_div_pow]
      omega
    have hshift : (t >>> 8).toNat = t.toNat >>> 8 := UInt32.toNat_shiftRight t 8
    rw [ofWord, hshift, show 32 = 24 + 8 from rfl, bitsOf_of_lt hlt, ofBits_append,
      ofBits_replicate_false, List.length_replicate, add_zero]
  have hall : ofWord t = ofBits (bitsOf 8 t.toNat) * X ^ 24 +
      ofBits (bitsOf 24 (t.toNat >>> 8)) := by
    rw [ofWord, show 32 = 8 + 24 from rfl, bitsOf_add, ofBits_append, length_bitsOf]
  rw [hlow, hhigh, hall]
  ring

theorem shiftRight_xor_byte (s : UInt32) (b : UInt8) : (s ^^^ b.toUInt32) >>> 8 = s >>> 8 := by
  have hz : b.toUInt32.toNat >>> 8 = 0 := Nat.shiftRight_eq_zero _ _ b.toNat_lt
  refine UInt32.toNat_inj.mp ?_
  rw [UInt32.toNat_shiftRight, UInt32.toNat_shiftRight, UInt32.toNat_xor]
  change (s.toNat ^^^ b.toUInt32.toNat) >>> 8 = s.toNat >>> 8
  rw [Nat.shiftRight_xor_distrib, hz, Nat.xor_zero]

/-- A byte shifts the register by eight and adds the next coefficients of the message. -/
theorem residue_step (s : UInt32) (b : UInt8) : residue (ofWord (Crc32.step s b)) =
    residue X ^ 8 * residue (ofWord s) + residue (ofBits (bitsOf 8 b.toNat)) * residue X ^ 32 := by
  have hsplit := congrArg residue (ofWord_split (s ^^^ b.toUInt32))
  simp only [map_add, map_mul, map_pow] at hsplit
  rw [Crc32.step_eq, ofWord_xor, map_add, residue_tableEntry, ← shiftRight_xor_byte s b, ← hsplit,
    ofWord_xor, ofWord_toUInt32, map_add, map_mul, map_pow]
  ring

theorem residue_foldl_step (m : Bytes) (s : UInt32) : residue (ofWord (m.foldl Crc32.step s)) =
    residue (ofWord s) * residue X ^ (8 * m.length) +
      residue (ofBits (messageBits m)) * residue X ^ 32 := by
  induction m generalizing s with
  | nil => simp
  | cons b m ih =>
    rw [List.foldl_cons, ih, residue_step, messageBits_cons, ofBits_append, length_messageBits,
      List.length_cons, map_add, map_mul, map_pow]
    ring

end Register

theorem foldl_update (c : Crc32) (chunks : List Bytes) :
    chunks.foldl Crc32.update c = c.update chunks.flatten := by
  induction chunks generalizing c with
  | nil => rfl
  | cons x chunks ih => rw [List.foldl_cons, ih, List.flatten_cons, Crc32.update_append]

theorem compute_eq_crc32c (m : Bytes) : Crc32.compute m = crc32c m := by
  have hones : ofWord 0xFFFFFFFF = ofBits (List.replicate 32 true) := by
    rw [ofWord, show bitsOf 32 (0xFFFFFFFF : UInt32).toNat = List.replicate 32 true by decide]
  have hmsg : ofBits (complementFirst 32 (messageBits m ++ List.replicate 32 false)) =
      ofBits (messageBits m) * X ^ 32 + ofWord 0xFFFFFFFF * X ^ (8 * m.length) := by
    rw [ofBits_complementFirst (by simp), hones, ofBits_append, ofBits_replicate_false, add_zero]
    simp
  have hres : ofWord (m.foldl Crc32.step 0xFFFFFFFF) =
      ofBits (complementFirst 32 (messageBits m ++ List.replicate 32 false)) %ₘ castagnoli := by
    rw [← (modByMonic_eq_self_iff monic_castagnoli).mpr (degree_ofWord_lt _)]
    refine modByMonic_eq_of_dvd_sub monic_castagnoli (AdjoinRoot.mk_eq_mk.mp ?_)
    rw [hmsg, residue_foldl_step, map_add, map_mul, map_mul, map_pow, map_pow]
    ring
  rw [crc32c, ← hres, reflect_ofWord]
  rfl

/-- However a message is cut into updates, on a fresh object or one that was reset, the result is
CRC-32C by division, and that of the whole message at once. -/
theorem final_eq_crc32c (c : Crc32) (chunks : List Bytes) :
    (chunks.foldl Crc32.update {}).final = crc32c chunks.flatten ∧
      (chunks.foldl Crc32.update c.reset).final = crc32c chunks.flatten ∧
      (chunks.foldl Crc32.update {}).final = Crc32.compute chunks.flatten := by
  have hc : (chunks.foldl Crc32.update {}).final = Crc32.compute chunks.flatten := by
    rw [foldl_update]
    rfl
  exact ⟨hc.trans (compute_eq_crc32c _), hc.trans (compute_eq_crc32c _), hc⟩

example : Crc32.compute [0x31, 0x32, 0x33, 0x34, 0x35, 0x36, 0x37, 0x38, 0x39] = 0xE3069283 := by
  rw [Crc32.compute_eq]
  decide +kernel

end Xfer.Common
