import Mathlib.Data.Nat.Bitwise
import Mathlib.Data.List.Induction
import Mathlib.Data.List.TakeWhile
import Mathlib.Tactic.Ring

/-! # Byte strings

C strings end at their first NUL byte. Fixed-width integers are written and read
least significant byte first, by the shift-and-mask loops that C programs use.
-/

namespace Xfer

abbrev Bytes := List UInt8

/-- What a system call sees of a path that the caller holds as a counted string. -/
def cstr (p : Bytes) : Bytes := p.takeWhile (· ≠ 0)

theorem cstr_isPrefix (p : Bytes) : cstr p <+: p := List.takeWhile_prefix _

theorem cstr_eq_self {p : Bytes} (h : 0 ∉ p) : cstr p = p := by
  rw [cstr, List.takeWhile_eq_self_iff]
  intro b hb
  simpa using fun he : b = 0 => h (he ▸ hb)

theorem zero_notMem_cstr (p : Bytes) : 0 ∉ cstr p := by
  intro h
  simpa using List.mem_takeWhile_imp h

theorem cstr_append {p : Bytes} (q : Bytes) (h : 0 ∉ p) : cstr (p ++ q) = p ++ cstr q := by
  unfold cstr
  apply List.takeWhile_append_of_pos
  intro b hb
  simpa using fun he : b = 0 => h (he ▸ hb)

theorem cstr_append_of_mem {p : Bytes} (q : Bytes) (h : 0 ∈ p) : cstr (p ++ q) = cstr p := by
  unfold cstr
  rw [List.takeWhile_append, if_neg]
  intro hl
  have he := (List.takeWhile_prefix _).eq_of_length hl
  exact zero_notMem_cstr p (by rw [cstr, he]; exact h)

/-- The `n` low bytes of `v`, least significant first. -/
def encodeLE (n v : ℕ) : Bytes :=
  (List.range n).map fun i => UInt8.ofNat ((v >>> (8 * i)) &&& 0xFF)

/-- The integer whose `n` bytes, least significant first, `p` starts with. -/
def decodeLE (n : ℕ) (p : Bytes) : ℕ :=
  (List.range n).foldl (fun v i => v ||| ((p.getD i 0).toNat <<< (8 * i))) 0

@[simp] theorem length_encodeLE (n v : ℕ) : (encodeLE n v).length = n := by
  simp [encodeLE]

theorem decodeLE_succ (n : ℕ) (p : Bytes) :
    decodeLE (n + 1) p = decodeLE n p ||| ((p.getD n 0).toNat <<< (8 * n)) := by
  simp [decodeLE, List.range_succ]

theorem decodeLE_lt (n : ℕ) (p : Bytes) : decodeLE n p < 2 ^ (8 * n) := by
  induction n with
  | zero => simp [decodeLE]
  | succ n ih =>
    rw [decodeLE_succ]
    have hb : (p.getD n 0).toNat < 2 ^ 8 := (p.getD n 0).toNat_lt
    apply Nat.or_lt_two_pow
    · exact ih.trans (Nat.pow_lt_pow_right (by omega) (by omega))
    · rw [Nat.shiftLeft_eq, show 8 * (n + 1) = 8 + 8 * n by omega, Nat.pow_add]
      exact Nat.mul_lt_mul_of_pos_right hb (Nat.two_pow_pos _)

theorem decodeLE_succ_eq_add (n : ℕ) (p : Bytes) :
    decodeLE (n + 1) p = decodeLE n p + 2 ^ (8 * n) * (p.getD n 0).toNat := by
  rw [decodeLE_succ, Nat.or_comm, ← Nat.shiftLeft_add_eq_or_of_lt (decodeLE_lt n p),
    Nat.shiftLeft_eq]
  ring

theorem getD_encodeLE {n i : ℕ} (v : ℕ) (rest : Bytes) (hi : i < n) :
    ((encodeLE n v ++ rest).getD i 0).toNat = v / 2 ^ (8 * i) % 2 ^ 8 := by
  have hl : i < (encodeLE n v).length := by simpa using hi
  rw [List.getD_append _ _ _ _ hl, List.getD_eq_getElem _ _ hl]
  simp only [encodeLE, List.getElem_map, List.getElem_range, UInt8.toNat_ofNat']
  rw [Nat.shiftRight_eq_div_pow, show (0xFF : ℕ) = 2 ^ 8 - 1 from rfl,
    Nat.and_two_pow_sub_one_eq_mod, Nat.mod_mod]

theorem decodeLE_encodeLE_of_le {n m : ℕ} (v : ℕ) (rest : Bytes) (h : n ≤ m) :
    decodeLE n (encodeLE m v ++ rest) = v % 2 ^ (8 * n) := by
  induction n with
  | zero => simp [decodeLE, Nat.mod_one]
  | succ n ih =>
    rw [decodeLE_succ_eq_add, ih (by omega), getD_encodeLE v rest (by omega),
      show 8 * (n + 1) = 8 * n + 8 by omega, Nat.pow_add, Nat.mod_mul]

/-- Reading back what was written yields the value modulo the width. -/
theorem decodeLE_encodeLE (n v : ℕ) (rest : Bytes) :
    decodeLE n (encodeLE n v ++ rest) = v % 2 ^ (8 * n) :=
  decodeLE_encodeLE_of_le v rest le_rfl

theorem decodeLE_append {n : ℕ} {p : Bytes} (rest : Bytes) (h : n ≤ p.length) :
    decodeLE n (p ++ rest) = decodeLE n p := by
  induction n with
  | zero => rfl
  | succ n ih =>
    rw [decodeLE_succ, decodeLE_succ, ih (by omega), List.getD_append _ _ _ _ (by omega)]

theorem encodeLE_decodeLE (p : Bytes) : encodeLE p.length (decodeLE p.length p) = p := by
  induction p using List.reverseRecOn with
  | nil => rfl
  | append_singleton p b ih =>
    have hlt := decodeLE_lt p.length p
    have hget : (p ++ [b]).getD p.length 0 = b := by simp
    rw [List.length_append, List.length_singleton, decodeLE_succ_eq_add, hget,
      decodeLE_append _ le_rfl]
    unfold encodeLE at ih ⊢
    rw [List.range_succ, List.map_append]
    congr 1
    · refine Eq.trans (List.map_congr_left ?_) ih
      intro i hi
      have hi' := List.mem_range.mp hi
      congr 1
      -- the new byte lies above the bits that the mask keeps
      obtain ⟨m, hm⟩ : ∃ m, p.length = i + 1 + m := ⟨p.length - (i + 1), by omega⟩
      have hpow : 2 ^ (8 * p.length) = 2 ^ (8 * i) * (256 * 2 ^ (8 * m)) := by
        rw [hm, show 8 * (i + 1 + m) = 8 * i + (8 + 8 * m) by ring, Nat.pow_add, Nat.pow_add]
      rw [show (0xFF : ℕ) = 2 ^ 8 - 1 from rfl, Nat.and_two_pow_sub_one_eq_mod,
        Nat.and_two_pow_sub_one_eq_mod, Nat.shiftRight_eq_div_pow, Nat.shiftRight_eq_div_pow, hpow,
        mul_assoc, Nat.add_mul_div_left _ _ (Nat.two_pow_pos _), mul_assoc]
      exact Nat.add_mul_mod_self_left _ _ _
    · rw [List.map_singleton, Nat.shiftRight_eq_div_pow, Nat.add_mul_div_left _ _
        (Nat.two_pow_pos _), Nat.div_eq_of_lt hlt, Nat.zero_add, show (0xFF : ℕ) = 2 ^ 8 - 1 from rfl,
        Nat.and_two_pow_sub_one_eq_mod, Nat.mod_eq_of_lt b.toNat_lt, UInt8.ofNat_toNat]

theorem encodeLE_decodeLE_take {n : ℕ} {p : Bytes} (h : n ≤ p.length) :
    encodeLE n (decodeLE n p) = p.take n := by
  have hl : (p.take n).length = n := by rw [List.length_take, Nat.min_eq_left h]
  have := encodeLE_decodeLE (p.take n)
  rw [hl] at this
  rw [← this]
  congr 1
  conv_lhs => rw [← List.take_append_drop n p]
  exact decodeLE_append _ hl.ge

end Xfer
