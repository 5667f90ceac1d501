import Mathlib.GroupTheory.OrderOfElement
import Mathlib.NumberTheory.LucasLehmer
import Xfer.Common.Detection

/-! # What CRC-32C tells apart

Modulo the Castagnoli polynomial the indeterminate has the order 2³¹ - 1, a
prime. So two flipped bits go unnoticed exactly if their distance is a multiple
of it, and four freely chosen bytes lead to every checksum in exactly one way.
-/

namespace Xfer.Common

open Polynomial Gf2

variable {m m' d : Bytes} {l : List Bool} {i j : ℕ}

section Order

/-- The product of two residues, from the highest power of the first one. -/
def mulWord (c d : UInt32) : UInt32 :=
  (List.range 32).foldl (fun acc i => shiftBit acc ^^^ if c.toNat.testBit i then d else 0) 0

@[simp] theorem ofWord_zero : ofWord 0 = 0 := by
  rw [ofWord, UInt32.toNat_zero, bitsOf_zero, ofBits_replicate_false]

theorem residue_mulWord (c d : UInt32) :
    residue (ofWord (mulWord c d)) = residue (ofWord c) * residue (ofWord d) := by
  have hfold : ∀ n, residue (ofWord ((List.range n).foldl
      (fun acc i => shiftBit acc ^^^ if c.toNat.testBit i then d else 0) 0)) =
        residue (ofBits (bitsOf n c.toNat)) * residue (ofWord d) := by
    intro n
    induction n with
    | zero => simp [bitsOf]
    | succ n ih =>
      have hbit : ofWord (if c.toNat.testBit n then d else 0) =
          C (coef (c.toNat.testBit n)) * ofWord d := by
        cases c.toNat.testBit n <;> simp [coef]
      rw [List.range_succ, List.foldl_append, List.foldl_cons, List.foldl_nil, ofWord_xor, map_add,
        residue_shiftBit, ih, hbit, bitsOf_add, bitsOf_one, Nat.testBit_shiftRight, Nat.add_zero,
        ofBits_concat, map_add, map_mul, map_mul]
      ring
  exact hfold 32

/-- The indeterminate, and its squares one after the other. -/
def squares : List UInt32 :=
  [0x40000000, 0x20000000, 0x08000000, 0x00800000, 0x00008000, 0x82F63B78, 0x6EA2D55C, 0x18B8EA18,
    0x510AC59A, 0xB82BE955, 0xB8FDB1E7, 0x88E56F72, 0x74C360A4, 0xE4172B16, 0x0D65762A, 0x35D73A62,
    0x28461564, 0xBF455269, 0xE2EA32DC, 0xFE7740E6, 0xF946610B, 0x3C204F8F, 0x538586E3, 0x59726915,
    0x734D5309, 0xBC1AC763, 0x7D0722CC, 0xD289CABE, 0xE94CA9BC, 0x05B74F3F, 0xA51E1F42, 0x40000000]

theorem isChain_squares : squares.IsChain fun a b => mulWord a a = b := by
  decide +kernel

theorem residue_of_isChain {l : List UInt32} {a : UInt32}
    (h : (a :: l).IsChain fun a b => mulWord a a = b) :
    residue (ofWord (l.getLastD a)) = residue (ofWord a) ^ 2 ^ l.length := by
  induction l generalizing a with
  | nil => simp
  | cons b l ih =>
    obtain ⟨rfl, hl⟩ := List.isChain_cons_cons.mp h
    rw [List.getLastD_cons, ih hl, residue_mulWord, List.length_cons, pow_succ', pow_mul, sq]

theorem ofWord_indeterminate : ofWord 0x40000000 = X := by
  have hbits : bitsOf 32 (0x40000000 : UInt32).toNat = List.replicate 30 false ++ [true, false] := by
    decide
  rw [ofWord, hbits, ofBits_append, ofBits_replicate_false]
  simp [ofBits_cons, coef]

theorem residue_X_pow_two_pow : residue X ^ 2 ^ 31 = residue X := by
  have h := residue_of_isChain isChain_squares
  rw [ofWord_indeterminate] at h
  exact h.symm.trans (congrArg residue ofWord_indeterminate)

theorem isCoprime_castagnoli (n : ℕ) : IsCoprime castagnoli (X ^ n) := by
  refine IsCoprime.pow_right (IsCoprime.symm ?_)
  have hx : Irreducible (X : (ZMod 2)[X]) := irreducible_X
  exact hx.coprime_iff_not_dvd.mpr fun hd => coeff_zero_castagnoli (X_dvd_iff.mp hd)

theorem residue_X_pow_of_succ {n : ℕ} (h : residue X ^ (n + 1) = residue X) :
    residue X ^ n = 1 := by
  rw [← map_pow, AdjoinRoot.mk_eq_mk] at h
  have hfactor : (X : (ZMod 2)[X]) ^ (n + 1) - X = X ^ 1 * (X ^ n - 1) := by ring
  rw [hfactor] at h
  rw [← map_pow, ← map_one residue, AdjoinRoot.mk_eq_mk]
  exact (isCoprime_castagnoli 1).dvd_of_dvd_mul_left h

theorem residue_X_ne_one : residue X ≠ 1 := by
  intro h
  rw [← map_one residue, AdjoinRoot.mk_eq_mk] at h
  have hdeg : (X - 1 : (ZMod 2)[X]).degree < castagnoli.degree := by
    rw [degree_castagnoli, ← C_1, degree_X_sub_C]
    decide
  have hz := eq_zero_of_dvd_of_degree_lt h hdeg
  rw [← C_1] at hz
  exact X_sub_C_ne_zero 1 hz

theorem orderOf_residue_X : orderOf (residue X) = 2 ^ 31 - 1 := by
  have : Fact (Nat.Prime (2 ^ 31 - 1)) := ⟨lucas_lehmer_sufficiency 31 (by norm_num) (by norm_num)⟩
  have hsucc : 2 ^ 31 = 2 ^ 31 - 1 + 1 := by norm_num
  refine orderOf_eq_prime (residue_X_pow_of_succ ?_) residue_X_ne_one
  rw [← hsucc, residue_X_pow_two_pow]

end Order

section Flips

/-- The bits at two places are set, and no others. -/
def TwoSet (l : List Bool) (i j : ℕ) : Prop := i < j ∧ ∀ n, l[n]? = some true ↔ n = i ∨ n = j

theorem TwoSet.lt_length (h : TwoSet l i j) : j < l.length := by
  obtain ⟨hlt, -⟩ := List.getElem?_eq_some_iff.mp ((h.2 j).mpr (Or.inr rfl))
  exact hlt

theorem TwoSet.ofBits_eq (h : TwoSet l i j) :
    ofBits l = (X ^ (j - i) + 1) * X ^ (l.length - 1 - j) := by
  have hj := h.lt_length
  have hij := h.1
  have hpow : (X ^ (j - i) + 1 : (ZMod 2)[X]) * X ^ (l.length - 1 - j) =
      X ^ (l.length - 1 - i) + X ^ (l.length - 1 - j) := by
    rw [add_mul, ← pow_add, one_mul]
    congr 2
    omega
  rw [hpow]
  ext n
  rw [coeff_ofBits, coeff_add, coeff_X_pow, coeff_X_pow]
  rcases Nat.lt_or_ge n l.length with hn | hn
  · rw [List.getD_eq_getElem _ _ (by simpa using hn), List.getElem_reverse]
    have hset := h.2 (l.length - 1 - n)
    rw [List.getElem?_eq_getElem (by omega), Option.some.injEq] at hset
    by_cases hi : n = l.length - 1 - i
    · rw [hset.mpr (by omega), if_pos hi, if_neg (by omega)]
      rfl
    · by_cases hj' : n = l.length - 1 - j
      · rw [hset.mpr (by omega), if_neg hi, if_pos hj']
        rfl
      · rw [Bool.eq_false_iff.mpr (mt hset.mp (by omega)), if_neg hi, if_neg hj']
        rfl
  · rw [List.getD_eq_default _ _ (by simpa using hn), if_neg (by omega), if_neg (by omega)]
    rfl

/-- Two bits cancel out exactly if their distance is a multiple of the order. -/
theorem TwoSet.dvd_iff (h : TwoSet l i j) : castagnoli ∣ ofBits l ↔ 2 ^ 31 - 1 ∣ j - i := by
  have hres : castagnoli ∣ X ^ (j - i) + 1 ↔ residue X ^ (j - i) = 1 := by
    rw [← CharTwo.sub_eq_add, ← map_pow, ← map_one residue, AdjoinRoot.mk_eq_mk]
  rw [h.ofBits_eq, ← orderOf_residue_X, orderOf_dvd_iff_pow_eq_one, ← hres]
  constructor
  · exact (isCoprime_castagnoli _).dvd_of_dvd_mul_right
  · exact fun hd => hd.mul_right _

theorem exists_of_count_one (h : l.count true = 1) : ∃ i : ℕ, ∀ n : ℕ, l[n]? = some true ↔ n = i := by
  induction l with
  | nil => cases h
  | cons b l ih =>
    cases b with
    | true =>
      rw [List.count_cons_self, Nat.add_eq_right, List.count_eq_zero] at h
      refine ⟨0, fun n => ?_⟩
      cases n with
      | zero => simp
      | succ n =>
        rw [List.getElem?_cons_succ]
        exact iff_of_false (fun hn => h (List.mem_of_getElem? hn)) (Nat.succ_ne_zero n)
    | false =>
      rw [List.count_cons_of_ne (by decide)] at h
      obtain ⟨i, hi⟩ := ih h
      refine ⟨i + 1, fun n => ?_⟩
      cases n with
      | zero => simp
      | succ n => rw [List.getElem?_cons_succ, hi, Nat.add_right_cancel_iff]

theorem exists_of_count_two (h : l.count true = 2) : ∃ i j, TwoSet l i j := by
  induction l with
  | nil => cases h
  | cons b l ih =>
    cases b with
    | true =>
      rw [List.count_cons_self] at h
      obtain ⟨j, hj⟩ := exists_of_count_one (Nat.succ.inj h)
      refine ⟨0, j + 1, Nat.succ_pos j, fun n => ?_⟩
      cases n with
      | zero => simp
      | succ n =>
        rw [List.getElem?_cons_succ, hj]
        omega
    | false =>
      rw [List.count_cons_of_ne (by decide)] at h
      obtain ⟨i, j, hij, hset⟩ := ih h
      refine ⟨i + 1, j + 1, Nat.succ_lt_succ hij, fun n => ?_⟩
      cases n with
      | zero => simp
      | succ n =>
        rw [List.getElem?_cons_succ, hset]
        omega

/-- At most three flipped bits cancel out in no short pattern. -/
theorem not_dvd_of_count_le_three (hlen : l.length < 2 ^ 31) (h0 : l.count true ≠ 0)
    (h3 : l.count true ≤ 3) : ¬ castagnoli ∣ ofBits l := by
  by_cases h2 : l.count true = 2
  · obtain ⟨i, j, hij⟩ := exists_of_count_two h2
    rw [hij.dvd_iff]
    have hj := hij.lt_length
    have hi := hij.1
    exact Nat.not_dvd_of_pos_of_lt (by omega) (by omega)
  · apply not_dvd_of_odd eval_one_castagnoli
    rw [Nat.odd_iff]
    omega

/-- In a message of less than 2³¹ bits, together with its checksum, no damage of one, two or three
bits goes unnoticed. -/
theorem three_flips_noticed (m d : Bytes) (hl : d.length = m.length + 4)
    (hlen : 8 * d.length < 2 ^ 31) (h0 : (messageBits d).count true ≠ 0)
    (h3 : (messageBits d).count true ≤ 3) :
    Crc32.compute ((flipBits (m ++ encodeLE 4 (Crc32.compute m).toNat) d).take m.length) ≠
      UInt32.ofNat
        (decodeLE 4 ((flipBits (m ++ encodeLE 4 (Crc32.compute m).toNat) d).drop m.length)) :=
  compute_flip_ne hl (not_dvd_of_count_le_three (by rwa [length_messageBits]) h0 h3)

/-- Two bits of the message and one of the checksum. -/
theorem flips_noticed_in_digits :
    Crc32.compute ((flipBits ([0x31, 0x32, 0x33] ++
        encodeLE 4 (Crc32.compute [0x31, 0x32, 0x33]).toNat) [0x80, 0, 1, 0, 0x10, 0, 0]).take 3) ≠
      UInt32.ofNat (decodeLE 4 ((flipBits ([0x31, 0x32, 0x33] ++
        encodeLE 4 (Crc32.compute [0x31, 0x32, 0x33]).toNat) [0x80, 0, 1, 0, 0x10, 0, 0]).drop 3)) :=
  three_flips_noticed [0x31, 0x32, 0x33] [0x80, 0, 1, 0, 0x10, 0, 0] rfl (by decide) (by decide)
    (by decide)

end Flips

section Checksums

theorem eq_zero_of_dvd_ofWord {c : UInt32} (h : castagnoli ∣ ofWord c) : c = 0 := by
  have hz := eq_zero_of_dvd_of_degree_lt h (degree_ofWord_lt c)
  rw [← reflect_ofWord c, hz, ← ofWord_zero, reflect_ofWord]

theorem eq_of_dvd_add {c c' : UInt32} (h : castagnoli ∣ ofWord c + ofWord c') : c = c' := by
  rw [← ofWord_xor] at h
  exact UInt32.xor_eq_zero_iff.mp (eq_zero_of_dvd_ofWord h)

theorem compute_eq_iff (hl : m'.length = m.length) : Crc32.compute m' = Crc32.compute m ↔
    castagnoli ∣ ofBits (messageBits m') + ofBits (messageBits m) := by
  have hres : ∀ x : Bytes, residue (ofWord (Crc32.compute x)) =
      residue (ofWord 0xFFFFFFFF) * residue X ^ (8 * x.length) +
        residue (ofBits (messageBits x)) * residue X ^ 32 + residue (ofWord 0xFFFFFFFF) := by
    intro x
    rw [Crc32.compute, Crc32.final, Crc32.update, ofWord_xor, map_add, residue_foldl_step]
  have hdvd : castagnoli ∣ ofBits (messageBits m') + ofBits (messageBits m) ↔
      residue (ofBits (messageBits m')) = residue (ofBits (messageBits m)) := by
    rw [AdjoinRoot.mk_eq_mk, CharTwo.sub_eq_add]
  rw [hdvd]
  constructor
  · intro h
    have heq := (hres m').symm.trans ((congrArg (fun c => residue (ofWord c)) h).trans (hres m))
    rw [hl, add_left_inj, add_right_inj, ← map_pow, ← map_mul, ← map_mul, AdjoinRoot.mk_eq_mk,
      ← sub_mul] at heq
    exact AdjoinRoot.mk_eq_mk.mpr ((isCoprime_castagnoli 32).dvd_of_dvd_mul_right heq)
  · intro h
    apply eq_of_dvd_add
    rw [← CharTwo.sub_eq_add, ← AdjoinRoot.mk_eq_mk, hres, hres, hl, h]

theorem compute_flip_two_iff (hl : m.length = d.length) (h : TwoSet (messageBits d) i j) :
    Crc32.compute (flipBits m d) = Crc32.compute m ↔ 2 ^ 31 - 1 ∣ j - i := by
  have hlen : (flipBits m d).length = m.length := by simp [flipBits, hl]
  have hsum : ofBits (messageBits (flipBits m d)) + ofBits (messageBits m) =
      ofBits (messageBits d) := by
    rw [messageBits_flip hl, ofBits_xor (by simp [hl]), add_comm, ← add_assoc,
      CharTwo.add_self_eq_zero, zero_add]
  rw [compute_eq_iff hlen, hsum, h.dvd_iff]

/-- Whatever comes before and after them, there is exactly one choice of four bytes that leads to a
checksum. -/
theorem existsUnique_window (a b : Bytes) (c : UInt32) :
    ∃! t : Bytes, t.length = 4 ∧ Crc32.compute (a ++ (t ++ b)) = c := by
  let g : UInt32 → UInt32 := fun v => Crc32.compute (a ++ (encodeLE 4 v.toNat ++ b))
  have hinj : Function.Injective g := by
    intro v v' h
    rw [compute_eq_iff (by simp)] at h
    have hsum : ofBits (messageBits (a ++ (encodeLE 4 v.toNat ++ b))) +
        ofBits (messageBits (a ++ (encodeLE 4 v'.toNat ++ b))) =
          ofWord (v ^^^ v') * X ^ (messageBits b).length := by
      rw [messageBits_append, messageBits_append, messageBits_append, messageBits_append,
        messageBits_encodeLE, messageBits_encodeLE, ofBits_append, ofBits_append, ofBits_append,
        ofBits_append, ofWord_xor, ofWord, ofWord]
      simp only [List.length_append, length_bitsOf]
      -- what the messages have in common cancels out
      have hself := CharTwo.add_self_eq_zero
        (ofBits (messageBits a) * X ^ 32 * X ^ (messageBits b).length + ofBits (messageBits b))
      linear_combination hself
    rw [hsum] at h
    exact UInt32.xor_eq_zero_iff.mp
      (eq_zero_of_dvd_ofWord ((isCoprime_castagnoli _).dvd_of_dvd_mul_right h))
  have : Finite UInt32 := Finite.of_injective UInt32.toFin fun _ _ => UInt32.toFin_inj.mp
  obtain ⟨v, hv⟩ := Finite.surjective_of_injective hinj c
  refine ⟨encodeLE 4 v.toNat, ⟨length_encodeLE 4 _, hv⟩, ?_⟩
  rintro t ⟨ht, htc⟩
  have hlt : decodeLE 4 t < 2 ^ 32 := decodeLE_lt 4 t
  have hword : t = encodeLE 4 (UInt32.ofNat (decodeLE 4 t)).toNat := by
    rw [UInt32.toNat_ofNat', Nat.mod_eq_of_lt hlt]
    have henc := encodeLE_decodeLE t
    rw [ht] at henc
    exact henc.symm
  rw [hword] at htc ⊢
  rw [hinj (htc.trans hv.symm)]

end Checksums

end Xfer.Common
