import Xfer.Data.Bytes
import Mathlib.Data.Nat.Digits.Defs
import Mathlib.Tactic.Common

/-! # Numbers on the command line

`strtol` reads a decimal integer of any length and returns the `long` nearest to
it. `ParseInt` then keeps the low 32 bits.
-/

namespace Xfer.Cli

/-- `isspace` in the C locale. -/
def isSpace (c : UInt8) : Bool := c = 0x20 ∨ (0x09 ≤ c ∧ c ≤ 0x0D)

def isDigit (c : UInt8) : Bool := 0x30 ≤ c ∧ c ≤ 0x39

def digitsValue (ds : Bytes) : ℕ := ds.foldl (fun v d => 10 * v + (d.toNat - 0x30)) 0

/-- An optional sign, and what is behind it. -/
def sign (s : Bytes) : ℤ × Bytes :=
  if s.head? = some 0x2D then (-1, s.tail)
  else if s.head? = some 0x2B then (1, s.tail)
  else (1, s)

/-- The integer that `strtol` finds at the start of `s`, and what is behind it. -/
def readInteger (s : Bytes) : Option (ℤ × Bytes) :=
  let (σ, t) := sign (s.dropWhile isSpace)
  let digits := t.takeWhile isDigit
  if digits = [] then none else some (σ * digitsValue digits, t.dropWhile isDigit)

/-- The 64-bit `long` nearest to `v`. -/
def toLong (v : ℤ) : Int64 := Int64.ofInt (max (-2 ^ 63) (min v (2 ^ 63 - 1)))

/-- `strtol(s, &end, 10)`: what it returns, and the string that `end` points to. -/
def strtol (s : Bytes) : Int64 × Bytes :=
  match readInteger s with
  | none => (0, s)
  | some (v, rest) => (toLong v, rest)

/-- `ParseInt`. -/
def parseInt (s : Bytes) : Option Int32 :=
  if s = [] then none
  else
    let (v, rest) := strtol s
    if rest = s ∨ rest ≠ [] then none else some v.toInt32

/-- `std::to_string` of a number that is not negative. -/
def toDecimal (n : ℕ) : Bytes := (Nat.toDigits 10 n).map fun c => UInt8.ofNat c.toNat

/-- The signs that a number may have, as they are written. -/
def signs : List (ℤ × Bytes) := [(-1, [0x2D]), (1, [0x2B]), (1, [])]

/-- The string is, as a whole, a decimal integer: white space, a sign, digits. -/
def IsDecimal (s : Bytes) (v : ℤ) : Prop :=
  ∃ spaces digits : Bytes, ∃ σ ∈ signs, s = spaces ++ σ.2 ++ digits ∧
    (∀ c ∈ spaces, isSpace c) ∧ digits ≠ [] ∧ (∀ c ∈ digits, isDigit c) ∧
    v = σ.1 * digitsValue digits

theorem not_isSpace_of_isDigit {c : UInt8} (h : isDigit c) : ¬ isSpace c := by
  simp only [isDigit, isSpace, decide_eq_true_eq, UInt8.le_iff_toNat_le, ← UInt8.toNat_inj] at h ⊢
  simp at h ⊢
  omega

theorem sign_append {σ : ℤ × Bytes} (hσ : σ ∈ signs) {digits : Bytes}
    (h : ∀ c ∈ digits, isDigit c) : sign (σ.2 ++ digits) = (σ.1, digits) := by
  simp only [signs, List.mem_cons, List.not_mem_nil, or_false] at hσ
  rcases hσ with rfl | rfl | rfl
  · rfl
  · rfl
  · cases digits with
    | nil => rfl
    | cons d digits =>
      have hd := h d List.mem_cons_self
      have hne : d ≠ 0x2D ∧ d ≠ 0x2B := by
        constructor <;> rintro rfl <;> exact absurd hd (by decide)
      simp [sign, hne.1, hne.2]

theorem sign_eq (s : Bytes) : ∃ σ ∈ signs, s = σ.2 ++ (sign s).2 ∧ σ.1 = (sign s).1 := by
  unfold sign
  split_ifs with h h
  · obtain ⟨t, rfl⟩ := List.head?_eq_some_iff.mp h
    exact ⟨(-1, [0x2D]), by simp [signs], rfl, rfl⟩
  · obtain ⟨t, rfl⟩ := List.head?_eq_some_iff.mp h
    exact ⟨(1, [0x2B]), by simp [signs], rfl, rfl⟩
  · exact ⟨(1, []), by simp [signs], rfl, rfl⟩

theorem dropWhile_isSpace {σ : ℤ × Bytes} (hσ : σ ∈ signs) {spaces digits : Bytes}
    (hs : ∀ c ∈ spaces, isSpace c) (hne : digits ≠ []) (hd : ∀ c ∈ digits, isDigit c) :
    (spaces ++ σ.2 ++ digits).dropWhile isSpace = σ.2 ++ digits := by
  rw [List.append_assoc, List.dropWhile_append_of_pos hs, List.dropWhile_eq_self_iff]
  intro hl
  simp only [signs, List.mem_cons, List.not_mem_nil, or_false] at hσ
  rcases hσ with rfl | rfl | rfl
  · exact (by decide : ¬ isSpace 0x2D)
  · exact (by decide : ¬ isSpace 0x2B)
  · obtain ⟨d, digits, rfl⟩ := List.exists_cons_of_ne_nil hne
    exact not_isSpace_of_isDigit (hd d List.mem_cons_self)

/-- Nothing is left of a string exactly if it is a decimal integer. -/
theorem readInteger_eq_some_nil_iff {s : Bytes} {v : ℤ} :
    readInteger s = some (v, []) ↔ IsDecimal s v := by
  constructor
  · intro h
    obtain ⟨σ, hσ, hs, h1⟩ := sign_eq (s.dropWhile isSpace)
    simp only [readInteger, ← h1] at h
    split_ifs at h with hne
    simp only [Option.some.injEq, Prod.mk.injEq, List.dropWhile_eq_nil_iff] at h
    rw [List.takeWhile_eq_self_iff.mpr h.2] at h hne
    refine ⟨s.takeWhile isSpace, _, σ, hσ, ?_, fun c hc => List.mem_takeWhile_imp hc, hne, h.2,
      h.1.symm⟩
    rw [List.append_assoc, ← hs, List.takeWhile_append_dropWhile]
  · rintro ⟨spaces, digits, σ, hσ, rfl, hs, hne, hd, rfl⟩
    simp only [readInteger, dropWhile_isSpace hσ hs hne hd, sign_append hσ hd,
      List.takeWhile_eq_self_iff.mpr hd, List.dropWhile_eq_nil_iff.mpr hd, if_neg hne]

theorem IsDecimal.unique {s : Bytes} {v w : ℤ} (h : IsDecimal s v) (h' : IsDecimal s w) :
    v = w := by
  have := (readInteger_eq_some_nil_iff.mpr h).symm.trans (readInteger_eq_some_nil_iff.mpr h')
  simpa using this

theorem IsDecimal.ne_nil {s : Bytes} {v : ℤ} (h : IsDecimal s v) : s ≠ [] := by
  rintro rfl
  obtain ⟨spaces, digits, σ, -, he, -, hne, -⟩ := h
  simp_all

theorem parseInt_eq_some_iff {s : Bytes} {i : Int32} :
    parseInt s = some i ↔ ∃ v, IsDecimal s v ∧ (toLong v).toInt32 = i := by
  simp only [← readInteger_eq_some_nil_iff]
  unfold parseInt strtol
  constructor
  · intro h
    split_ifs at h with hs
    cases hr : readInteger s with
    | none => simp [hr] at h
    | some p =>
      obtain ⟨v, rest⟩ := p
      simp only [hr, ne_eq, Option.ite_none_left_eq_some, not_or, not_not, Option.some.injEq] at h
      exact ⟨v, by rw [h.1.2], h.2⟩
  · rintro ⟨v, hr, rfl⟩
    have hs := (readInteger_eq_some_nil_iff.mp hr).ne_nil
    simp [hr, hs, hs.symm]

theorem parseInt_of_isDecimal {s : Bytes} {v : ℤ} (h : IsDecimal s v) :
    parseInt s = some (toLong v).toInt32 :=
  parseInt_eq_some_iff.mpr ⟨v, h, rfl⟩

theorem toInt_toLong (v : ℤ) : (toLong v).toInt = max (-2 ^ 63) (min v (2 ^ 63 - 1)) := by
  rw [toLong, Int64.toInt_ofInt, Int.bmod_eq_of_le] <;> simp [Int64.size]

theorem toInt_toInt32_toLong (v : ℤ) : (toLong v).toInt32.toInt =
    if v < -2 ^ 63 then 0 else if 2 ^ 63 ≤ v then -1 else v.bmod (2 ^ 32) := by
  rw [Int64.toInt_toInt32, toInt_toLong]
  split_ifs with h h'
  · rw [show max (-2 ^ 63) (min v (2 ^ 63 - 1)) = (-2 ^ 63 : ℤ) by omega]
    rfl
  · rw [show max (-2 ^ 63) (min v (2 ^ 63 - 1)) = (2 ^ 63 - 1 : ℤ) by omega]
    rfl
  · congr 1
    omega

theorem toInt_toInt32_toLong_of_port {v : ℤ} (h : 1 ≤ v ∧ v ≤ 65535) :
    (toLong v).toInt32.toInt = v := by
  rw [toInt_toInt32_toLong, if_neg (by omega), if_neg (by omega), Int.bmod_eq_of_le] <;> omega

theorem digitsValue_append_singleton (ds : Bytes) (d : UInt8) :
    digitsValue (ds ++ [d]) = 10 * digitsValue ds + (d.toNat - 0x30) := by
  simp [digitsValue]

theorem toNat_ofNat_digitChar {n : ℕ} (h : n < 10) :
    (UInt8.ofNat n.digitChar.toNat).toNat = 0x30 + n := by
  rw [Nat.toNat_digitChar_of_lt_ten h, UInt8.toNat_ofNat']
  omega

theorem isDecimal_toDecimal (n : ℕ) : IsDecimal (toDecimal n) n := by
  have digits : (∀ c ∈ toDecimal n, isDigit c) ∧ digitsValue (toDecimal n) = n := by
    induction n using Nat.strongRecOn with
    | ind n ih =>
      have last : ∀ d < 10, isDigit (UInt8.ofNat d.digitChar.toNat) := by decide
      rw [toDecimal, Nat.toDigits_eq_if (by decide)]
      split_ifs with h
      · refine ⟨by simpa using last n h, ?_⟩
        simp [digitsValue, toNat_ofNat_digitChar h]
      · obtain ⟨ihd, ihv⟩ := ih (n / 10) (by omega)
        have hd : n % 10 < 10 := by omega
        rw [List.map_append, List.map_singleton, digitsValue_append_singleton,
          toNat_ofNat_digitChar hd]
        change _ ∧ 10 * digitsValue (toDecimal (n / 10)) + _ = n
        refine ⟨fun c hc => ?_, by omega⟩
        rcases List.mem_append.mp hc with hc | hc
        · exact ihd c hc
        · exact List.mem_singleton.mp hc ▸ last _ hd
  refine ⟨[], toDecimal n, (1, []), by simp [signs], rfl, by simp, ?_, digits.1, ?_⟩
  · simp [toDecimal, Nat.toDigits_ne_nil]
  · rw [digits.2, one_mul]

end Xfer.Cli
