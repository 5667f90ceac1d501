import Mathlib.Algebra.Field.ZMod
import Mathlib.Algebra.Polynomial.FieldDivision
import Mathlib.Data.List.GetD
import Mathlib.RingTheory.PrincipalIdealDomain

/-! # Bit strings as polynomials over GF(2)

A bit string stands for the polynomial whose coefficients are its bits, the
highest power first. Exclusive or is addition, appending shifts, and a short
burst of bits is a multiple of no polynomial of higher degree with a constant
term.
-/

namespace Xfer.Gf2

open Polynomial

variable {l l' : List Bool} {b : Bool} {m n v u : ℕ}

/-- The coefficient that a bit stands for. -/
def coef (b : Bool) : ZMod 2 := if b then 1 else 0

theorem coef_xor (a b : Bool) : coef (a ^^ b) = coef a + coef b := by
  cases a <;> cases b <;> decide

/-- The polynomial whose coefficients are the bits, the highest power first. -/
noncomputable def ofBits (l : List Bool) : (ZMod 2)[X] := l.foldl (fun p b => p * X + C (coef b)) 0

@[simp] theorem ofBits_nil : ofBits [] = 0 := rfl

theorem ofBits_concat (l : List Bool) (b : Bool) :
    ofBits (l ++ [b]) = ofBits l * X + C (coef b) := by
  simp [ofBits, List.foldl_append]

theorem ofBits_append (l l' : List Bool) :
    ofBits (l ++ l') = ofBits l * X ^ l'.length + ofBits l' := by
  induction l' using List.reverseRecOn with
  | nil => simp
  | append_singleton l' b ih =>
    rw [← List.append_assoc, ofBits_concat, ofBits_concat, ih, List.length_append,
      List.length_singleton]
    ring

theorem ofBits_cons (b : Bool) (l : List Bool) :
    ofBits (b :: l) = C (coef b) * X ^ l.length + ofBits l := by
  rw [← List.singleton_append, ofBits_append]
  simp [ofBits]

theorem ofBits_replicate_false (n : ℕ) : ofBits (List.replicate n false) = 0 := by
  induction n with
  | zero => rfl
  | succ n ih => simp [List.replicate_succ, ofBits_cons, ih, coef]

theorem coeff_ofBits (l : List Bool) (j : ℕ) :
    (ofBits l).coeff j = coef (l.reverse.getD j false) := by
  induction l using List.reverseRecOn generalizing j with
  | nil => simp [coef]
  | append_singleton l b ih =>
    rw [ofBits_concat, List.reverse_append, List.reverse_singleton, List.singleton_append]
    cases j with
    | zero => simp
    | succ j => rw [coeff_add, coeff_mul_X, coeff_C_succ, add_zero, ih, List.getD_cons_succ]

theorem degree_ofBits_lt (l : List Bool) : (ofBits l).degree < l.length := by
  rw [degree_lt_iff_coeff_zero]
  intro j hj
  rw [coeff_ofBits, List.getD_eq_default _ _ (by simpa using hj)]
  rfl

theorem ofBits_inj (hl : l.length = l'.length) (h : ofBits l = ofBits l') : l = l' := by
  rw [← List.reverse_inj]
  refine List.ext_getElem (by simpa using hl) fun j h₁ h₂ => ?_
  have hc := congrArg (coeff · j) h
  simp only [coeff_ofBits, List.getD_eq_getElem _ _ h₁, List.getD_eq_getElem _ _ h₂] at hc
  revert hc
  generalize l.reverse[j] = a
  generalize l'.reverse[j] = b
  cases a <;> cases b <;> decide

theorem ofBits_xor (hl : l.length = l'.length) :
    ofBits (List.zipWith (· ^^ ·) l l') = ofBits l + ofBits l' := by
  induction l generalizing l' with
  | nil =>
    obtain rfl := List.length_eq_zero_iff.mp hl.symm
    simp
  | cons b l ih =>
    cases l' with
    | nil => cases hl
    | cons b' l' =>
      have hl' : l.length = l'.length := Nat.succ.inj hl
      rw [List.zipWith_cons_cons, ofBits_cons, ofBits_cons, ofBits_cons, ih hl', coef_xor,
        List.length_zipWith, hl', Nat.min_self, C_add]
      ring

theorem eval_one_ofBits (l : List Bool) : (ofBits l).eval 1 = (l.count true : ZMod 2) := by
  induction l with
  | nil => simp
  | cons b l ih =>
    rw [ofBits_cons, eval_add, ih]
    cases b with
    | false => simp [coef]
    | true => simp [coef, add_comm]

section Bits

/-- The `n` low bits of a number, least significant first. -/
def bitsOf (n v : ℕ) : List Bool := (List.range n).map v.testBit

@[simp] theorem length_bitsOf (n v : ℕ) : (bitsOf n v).length = n := by simp [bitsOf]

theorem bitsOf_add (m n v : ℕ) : bitsOf (m + n) v = bitsOf m v ++ bitsOf n (v >>> m) := by
  simp [bitsOf, List.range_add, Function.comp_def, Nat.testBit_shiftRight]

theorem bitsOf_one (v : ℕ) : bitsOf 1 v = [v.testBit 0] := rfl

theorem bitsOf_xor (n v u : ℕ) :
    bitsOf n (v ^^^ u) = List.zipWith (· ^^ ·) (bitsOf n v) (bitsOf n u) := by
  simp [bitsOf, List.zipWith_map, List.zipWith_self, Nat.testBit_xor]

theorem bitsOf_zero (n : ℕ) : bitsOf n 0 = List.replicate n false := by
  refine List.eq_replicate_iff.mpr ⟨length_bitsOf n 0, fun b hb => ?_⟩
  obtain ⟨i, -, rfl⟩ := List.mem_map.mp hb
  exact Nat.zero_testBit i

theorem bitsOf_of_lt (h : v < 2 ^ m) : bitsOf (m + n) v = bitsOf m v ++ List.replicate n false := by
  rw [bitsOf_add, Nat.shiftRight_eq_zero v m h, bitsOf_zero]

theorem bitsOf_mod (m v : ℕ) : bitsOf m (v % 2 ^ m) = bitsOf m v := by
  refine List.map_congr_left fun i hi => ?_
  rw [Nat.testBit_mod_two_pow, decide_eq_true (List.mem_range.mp hi), Bool.true_and]

end Bits

section Detection

variable {p : (ZMod 2)[X]} {k : ℕ}

/-- Bits of which an odd number is set are no multiple of a polynomial with an even number of
terms. -/
theorem not_dvd_of_odd (hp : p.eval 1 = 0) (hl : Odd (l.count true)) : ¬ p ∣ ofBits l := by
  rintro ⟨q, hq⟩
  have he := congrArg (eval 1) hq
  rw [eval_one_ofBits, eval_mul, hp, zero_mul, ZMod.natCast_eq_zero_iff_even] at he
  exact Nat.not_even_iff_odd.mpr hl he

/-- A burst that is not longer than the degree is no multiple, wherever it stands. -/
theorem not_dvd_of_burst (h0 : p.coeff 0 ≠ 0) (hl : (l.length : WithBot ℕ) ≤ p.degree)
    (ht : true ∈ l) : ¬ p ∣ ofBits l * X ^ k := by
  intro h
  have hcop : IsCoprime p (X ^ k) := by
    refine IsCoprime.pow_right (IsCoprime.symm ?_)
    have hx : Irreducible (X : (ZMod 2)[X]) := irreducible_X
    exact hx.coprime_iff_not_dvd.mpr fun hd => h0 (X_dvd_iff.mp hd)
  have hz := eq_zero_of_dvd_of_degree_lt (hcop.dvd_of_dvd_mul_right h)
    ((degree_ofBits_lt l).trans_le hl)
  have hf : l = List.replicate l.length false :=
    ofBits_inj (by simp) (hz.trans (ofBits_replicate_false _).symm)
  rw [hf] at ht
  cases List.eq_of_mem_replicate ht

end Detection

end Xfer.Gf2
