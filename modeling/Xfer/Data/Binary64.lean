import Mathlib

/-! # Rounding to doubles

A double that is not negative has a place among all of them, and its bits are
the binary expansion of that place. A rounding stays between any two powers of
two that the exact number lies between.
-/

namespace Xfer.Binary64

open Float.Model Float.Model.UnpackedFloat

variable {m n r s : ℕ} {a b e k t : ℤ} {q : ℚ} {acc : Accuracy}

/-- A mantissa and an exponent as a double stores them. -/
structure Canonical (m : ℕ) (e : ℤ) : Prop where
  lt : m < 2 ^ 53
  minimal : -1074 ≤ e
  normal : 2 ^ 52 ≤ m ∨ e = -1074

/-- The place of a number among those that are not negative. -/
def rank (m : ℕ) (e : ℤ) : ℤ := (e + 1074) * 2 ^ 52 + m

theorem log2_lt (hm : m < 2 ^ 52) : m.log2 < 52 := by
  by_cases h : m = 0
  · simp [h]
  · exact (Nat.log2_lt h).mpr hm

theorem log2_normal (h : 2 ^ 52 ≤ m) (h' : m < 2 ^ 53) : m.log2 = 52 :=
  (Nat.log2_eq_iff (by omega)).mpr ⟨h, h'⟩

theorem toNat_packComponents (f g : ℕ) (hf : f < 2 ^ 52) (hg : g < 2 ^ 11) :
    (packComponents Format.binary64 .positive (BitVec.ofNat _ g) (BitVec.ofNat _ f)).toNat =
      g * 2 ^ 52 + f := by
  unfold packComponents
  rw [BitVec.toNat_append, BitVec.toNat_append]
  simp only [Sign.toBitVec, BitVec.toNat_ofNat]
  rw [Nat.mod_eq_of_lt hf, Nat.mod_eq_of_lt hg, ← Nat.shiftLeft_add_eq_or_of_lt hf,
    Nat.shiftLeft_eq]
  simp

theorem toBits_pack (h : Canonical m e) (he : e ≤ 971) (hm : 0 < m) :
    ((Float.Model.pack (.finite .positive m e hm)).toBits.toNat : ℤ) = rank m e := by
  obtain ⟨hlt, hmin, hn⟩ := h
  change ((UnpackedFloat.pack Format.binary64 (.finite .positive m e hm)).toNat : ℤ) = _
  have hbias : (Format.binary64.exponentBias : ℤ) = 1023 := by decide
  have hfin : ¬ 2 ^ Format.binary64.exponentBits ≤ (e + Format.binary64.exponentBias +
      Format.binary64.mantissaBitsWithoutImplicit).toNat + 1 := by
    rw [hbias]
    norm_num
    omega
  simp only [UnpackedFloat.pack, if_neg hfin, rank]
  split
  · rename_i hl
    have hm' : 2 ^ 52 ≤ m := by
      by_contra hlt'
      have := log2_lt (Nat.lt_of_not_le hlt')
      simp only [Format.mantissaBits] at hl
      omega
    have hfrac : BitVec.ofNat 52 m = BitVec.ofNat 52 (m - 2 ^ 52) := by
      apply BitVec.eq_of_toNat_eq
      simp only [BitVec.toNat_ofNat]
      omega
    obtain ⟨g, hg⟩ : ∃ g : ℕ, e + 1075 = g := ⟨(e + 1075).toNat, by omega⟩
    have hexp : (e + Format.binary64.exponentBias +
        Format.binary64.mantissaBitsWithoutImplicit).toNat = g := by
      rw [hbias]
      norm_num
      omega
    rw [hexp]
    change ((packComponents Format.binary64 .positive (BitVec.ofNat _ g)
      (BitVec.ofNat 52 m)).toNat : ℤ) = _
    rw [hfrac]
    erw [toNat_packComponents (m - 2 ^ 52) g (by omega) (by omega)]
    push_cast
    rw [← hg]
    omega
  · rename_i hl
    have hm' : m < 2 ^ 52 := by
      by_contra hlt'
      have := log2_normal (Nat.le_of_not_lt hlt') hlt
      simp only [Format.mantissaBits] at hl
      omega
    obtain rfl : e = -1074 := hn.resolve_left (by omega)
    change ((packComponents Format.binary64 .positive (BitVec.ofNat _ 0)
      (BitVec.ofNat _ m)).toNat : ℤ) = _
    rw [toNat_packComponents _ _ hm' (by norm_num)]
    simp

/-- What is not negative and finite is zero, or is given by a mantissa and an exponent. -/
theorem unpack_of_lt (x : Float) (h : x.toBits.toNat < 2047 * 2 ^ 52) :
    (x.toBits.toNat = 0 ∧ x.toModel.unpack = .zero .positive) ∨
      ∃ m e, ∃ hm : 0 < m, x.toModel.unpack = .finite .positive m e hm ∧ Canonical m e ∧
        (x.toBits.toNat : ℤ) = rank m e := by
  obtain ⟨⟨⟨⟨⟨bits, hb⟩⟩⟩, hv⟩⟩ := x
  change bits < 2047 * 2 ^ 52 at h
  change (bits = 0 ∧ UnpackedFloat.unpack Format.binary64 ⟨⟨bits, hb⟩⟩ = _) ∨
    ∃ m e, ∃ hm : 0 < m, UnpackedFloat.unpack Format.binary64 ⟨⟨bits, hb⟩⟩ = _ ∧ _ ∧ (bits : ℤ) = _
  have hman : (unpackMantissa (⟨⟨bits, hb⟩⟩ : BitVec Format.binary64.numBits)).toNat = bits % 2 ^ 52 := by
    simp [unpackMantissa]
  have hexp : (unpackExponent (⟨⟨bits, hb⟩⟩ : BitVec Format.binary64.numBits)).toNat = bits / 2 ^ 52 := by
    simp [unpackExponent, Nat.shiftRight_eq_div_pow]
    omega
  have hsign : (unpackSign (⟨⟨bits, hb⟩⟩ : BitVec Format.binary64.numBits)) = 0#1 := by
    apply BitVec.eq_of_toNat_eq
    simp [unpackSign, Nat.shiftRight_eq_div_pow]
    omega
  have hbias : (Format.binary64.exponentBias : ℤ) = 1023 := by decide
  have hfin : unpackExponent (⟨⟨bits, hb⟩⟩ : BitVec Format.binary64.numBits) ≠ -1#_ := by
    intro he
    have := congrArg BitVec.toNat he
    rw [hexp] at this
    simp at this
    omega
  unfold UnpackedFloat.unpack
  simp only [if_neg hfin, hsign, hbias]
  split
  · rename_i h0
    have h0' : bits / 2 ^ 52 = 0 := by rw [← hexp, h0]; rfl
    split
    · rename_i hz
      left
      have : bits % 2 ^ 52 = 0 := by rw [← hman, hz]; rfl
      exact ⟨by omega, rfl⟩
    · rename_i hz
      right
      have hne : bits % 2 ^ 52 ≠ 0 := fun h => hz (BitVec.eq_of_toNat_eq (hman.trans h))
      have hpos : 0 < (unpackMantissa (⟨⟨bits, hb⟩⟩ : BitVec Format.binary64.numBits)).toNat := by omega
      refine ⟨_, _, hpos, rfl, ⟨?_, ?_, Or.inr ?_⟩, ?_⟩
      · omega
      · rw [hexp, h0']
        norm_num
      · rw [hexp, h0']
        norm_num
      · rw [rank, hman, hexp, h0']
        norm_num
        omega
  · rename_i h0
    right
    have hne : bits / 2 ^ 52 ≠ 0 := fun h => h0 (BitVec.eq_of_toNat_eq (hexp.trans h))
    have hm : (1#1 ++ unpackMantissa (⟨⟨bits, hb⟩⟩ : BitVec Format.binary64.numBits)).toNat =
        2 ^ 52 + bits % 2 ^ 52 := by
      rw [BitVec.toNat_append, hman, ← Nat.shiftLeft_add_eq_or_of_lt (Nat.mod_lt _ (by norm_num)),
        Nat.shiftLeft_eq]
      simp
    have hpos : 0 < (1#1 ++ unpackMantissa (⟨⟨bits, hb⟩⟩ : BitVec Format.binary64.numBits)).toNat := by omega
    refine ⟨_, _, hpos, rfl, ⟨?_, ?_, Or.inl ?_⟩, ?_⟩
    · omega
    · rw [hexp]
      push_cast
      omega
    · omega
    · rw [rank, hm, hexp]
      push_cast
      omega

theorem two_zpow_pos (k : ℤ) : (0 : ℚ) < 2 ^ k := zpow_pos two_pos k

theorem two_zpow_add (a b : ℤ) : (2 : ℚ) ^ (a + b) = 2 ^ a * 2 ^ b := zpow_add₀ two_ne_zero a b

theorem rank_le_iff (h : Canonical m e) (hk : -1022 ≤ k) :
    rank m e ≤ (1023 + k) * 2 ^ 52 ↔ (m : ℚ) * 2 ^ e ≤ 2 ^ k := by
  obtain ⟨hlt, hmin, hn⟩ := h
  obtain ⟨d, hd⟩ : ∃ d, k = e + d := ⟨k - e, by ring⟩
  rw [hd, two_zpow_add, mul_comm ((2 : ℚ) ^ e), mul_le_mul_iff_left₀ (two_zpow_pos e)]
  unfold rank
  rcases lt_trichotomy d 52 with h | h | h
  · -- the power of two is below all normal numbers with this exponent
    have hm : 2 ^ 52 ≤ m := by omega
    refine iff_of_false (by omega) (not_le.mpr ?_)
    calc (2 : ℚ) ^ d < 2 ^ (52 : ℤ) := zpow_lt_zpow_right₀ one_lt_two h
      _ ≤ m := by exact_mod_cast hm
  · subst h
    constructor
    · intro h
      have hm : m ≤ 2 ^ 52 := by omega
      exact_mod_cast hm
    · intro h
      have hm : m ≤ 2 ^ 52 := by exact_mod_cast h
      omega
  · refine iff_of_true (by omega) ?_
    calc (m : ℚ) ≤ 2 ^ (53 : ℤ) := by exact_mod_cast hlt.le
      _ ≤ 2 ^ d := zpow_le_zpow_right₀ one_le_two (by omega)

theorem le_rank_iff (h : Canonical m e) (hk : -1022 ≤ k) :
    (1023 + k) * 2 ^ 52 ≤ rank m e ↔ 2 ^ k ≤ (m : ℚ) * 2 ^ e := by
  obtain ⟨hlt, hmin, hn⟩ := h
  obtain ⟨d, hd⟩ : ∃ d, k = e + d := ⟨k - e, by ring⟩
  rw [hd, two_zpow_add, mul_comm ((2 : ℚ) ^ e), mul_le_mul_iff_left₀ (two_zpow_pos e)]
  unfold rank
  rcases lt_trichotomy d 52 with h | h | h
  · have hm : 2 ^ 52 ≤ m := by omega
    refine iff_of_true (by omega) ?_
    calc (2 : ℚ) ^ d ≤ 2 ^ (52 : ℤ) := zpow_le_zpow_right₀ one_le_two h.le
      _ ≤ m := by exact_mod_cast hm
  · subst h
    constructor
    · intro h
      have hm : 2 ^ 52 ≤ m := by omega
      exact_mod_cast hm
    · intro h
      have hm : 2 ^ 52 ≤ m := by exact_mod_cast h
      omega
  · refine iff_of_false (by omega) (not_le.mpr ?_)
    calc (m : ℚ) < 2 ^ (53 : ℤ) := by exact_mod_cast hlt
      _ ≤ 2 ^ d := zpow_le_zpow_right₀ one_le_two (by omega)

/-- The number `q` lies where a mantissa with an exponent and an accuracy say. -/
structure Approximates (m : ℕ) (e : ℤ) (acc : Accuracy) (q : ℚ) : Prop where
  le : (m : ℚ) * 2 ^ e ≤ q
  lt : q < (m + 1 : ℕ) * 2 ^ e
  exact : q = (m : ℚ) * 2 ^ e → acc = .exact

theorem mantissa_shift (em : ExtendedMantissa) (s : ℕ) :
    (em >>> s).mantissa = em.mantissa / 2 ^ s := by
  induction s with
  | zero => exact (Nat.div_one _).symm
  | succ s ih =>
    change (em >>> s).mantissa / 2 = _
    rw [ih, Nat.div_div_eq_div_mul, Nat.pow_succ]

theorem shift_of_dvd (m s : ℕ) :
    (⟨m * 2 ^ s, false, false⟩ : ExtendedMantissa) >>> s = ⟨m, false, false⟩ := by
  induction s generalizing m with
  | zero =>
    rw [Nat.pow_zero, Nat.mul_one]
    rfl
  | succ s ih =>
    change ((⟨m * 2 ^ (s + 1), false, false⟩ : ExtendedMantissa) >>> s).shiftRightOne = _
    rw [Nat.pow_succ, Nat.mul_comm (2 ^ s), ← Nat.mul_assoc, ih]
    simp [ExtendedMantissa.shiftRightOne]

theorem roundedMantissa_bounds (em : ExtendedMantissa) :
    em.mantissa ≤ em.roundedMantissa ∧ em.roundedMantissa ≤ em.mantissa + 1 := by
  obtain ⟨m, r, s⟩ := em
  cases r <;> cases s <;> simp [ExtendedMantissa.roundedMantissa, ExtendedMantissa.accuracy,
    Accuracy.roundToNearestEven]
  omega

theorem mantissa_ofMantissaAndAccuracy (m : ℕ) (acc : Accuracy) :
    (ExtendedMantissa.ofMantissaAndAccuracy m acc).mantissa = m := by
  rcases acc with _ | (_ | _ | _) <;> rfl

/-- Where the first shift of a rounding ends. -/
def target (m : ℕ) (e : ℤ) : ℤ := max (m.log2 + e - 52) (-1074)

theorem targetExponent_eq (m : ℕ) (e : ℤ) :
    Format.binary64.targetExponent (totalExponent m e) = target m e := by
  simp only [Format.targetExponent, totalExponent, Format.mantissaBits, Format.minExponent, target]
  norm_num
  omega

/-- The mantissa after the first shift, rounded. -/
def rounded (m : ℕ) (e : ℤ) (acc : Accuracy) : ℕ :=
  (ExtendedMantissa.ofMantissaAndAccuracy m acc >>> (target m e - e).toNat).roundedMantissa

theorem rounded_bounds (m : ℕ) (e : ℤ) (acc : Accuracy) :
    m / 2 ^ (target m e - e).toNat ≤ rounded m e acc ∧
      rounded m e acc ≤ m / 2 ^ (target m e - e).toNat + 1 := by
  have h := roundedMantissa_bounds
    (ExtendedMantissa.ofMantissaAndAccuracy m acc >>> (target m e - e).toNat)
  rwa [mantissa_shift, mantissa_ofMantissaAndAccuracy] at h

theorem rounded_of_dvd (m : ℕ) (e : ℤ) (h : 2 ^ (target m e - e).toNat ∣ m) :
    rounded m e .exact = m / 2 ^ (target m e - e).toNat := by
  obtain ⟨c, hc⟩ := h
  rw [rounded]
  generalize (target m e - e).toNat = s at hc
  subst hc
  change ((⟨2 ^ s * c, false, false⟩ : ExtendedMantissa) >>> s).roundedMantissa = _
  rw [Nat.mul_comm, shift_of_dvd, Nat.mul_div_cancel _ (Nat.two_pow_pos s)]
  rfl

/-- The mantissa is as long as the format says, or the number is below the normal ones. -/
def Long (m : ℕ) (e : ℤ) : Prop := 52 ≤ m.log2 ∨ e ≤ -1074

theorem Long.le_target (h : Long m e) : e ≤ target m e := by
  unfold Long at h
  unfold target
  omega

theorem rounded_le_two_pow (m : ℕ) (e : ℤ) (acc : Accuracy) : rounded m e acc ≤ 2 ^ 53 := by
  have hm : m < 2 ^ (m.log2 + 1) := Nat.lt_log2_self
  have hle : 2 ^ (m.log2 + 1) ≤ 2 ^ 53 * 2 ^ (target m e - e).toNat := by
    rw [← Nat.pow_add]
    exact Nat.pow_le_pow_right two_pos (by unfold target; omega)
  have hdiv : m / 2 ^ (target m e - e).toNat < 2 ^ 53 :=
    (Nat.div_lt_iff_lt_mul (Nat.two_pow_pos _)).mpr (hm.trans_le hle)
  have := (rounded_bounds m e acc).2
  omega

theorem rounded_normal (m : ℕ) (e : ℤ) (acc : Accuracy) (h : Long m e) :
    2 ^ 52 ≤ rounded m e acc ∨ target m e = -1074 := by
  by_cases ht : target m e = -1074
  · exact Or.inr ht
  · left
    have hl : 52 ≤ m.log2 := by
      unfold Long at h
      unfold target at ht
      omega
    have hm : m ≠ 0 := by
      rintro rfl
      simp at hl
    refine le_trans ?_ (rounded_bounds m e acc).1
    rw [Nat.le_div_iff_mul_le (Nat.two_pow_pos _), ← Nat.pow_add]
    refine le_trans (Nat.pow_le_pow_right two_pos ?_) (Nat.log2_self_le hm)
    unfold target at ht ⊢
    omega

theorem value_shift (c : ℕ) (he : e ≤ t) :
    (c : ℚ) * 2 ^ t = ((c * 2 ^ (t - e).toNat : ℕ) : ℚ) * 2 ^ e := by
  have hs : t = ((t - e).toNat : ℤ) + e := by omega
  conv_lhs => rw [hs, two_zpow_add, zpow_natCast]
  push_cast
  ring

theorem target_le (h : Long m e) (hq : (m : ℚ) * 2 ^ e ≤ 2 ^ b) (hb : -1074 ≤ b) :
    target m e ≤ b := by
  by_cases hm : m = 0
  · subst hm
    have := h.resolve_left (by simp)
    unfold target
    simp only [Nat.log2_zero]
    omega
  · have hle : (2 : ℚ) ^ ((m.log2 : ℤ) + e) ≤ 2 ^ b := by
      rw [two_zpow_add, zpow_natCast]
      refine le_trans (mul_le_mul_of_nonneg_right ?_ (two_zpow_pos e).le) hq
      exact_mod_cast Nat.log2_self_le hm
    have := (zpow_le_zpow_iff_right₀ (one_lt_two : (1 : ℚ) < 2)).mp hle
    unfold target
    omega

theorem rounded_le (h : Approximates m e acc q) (hl : Long m e) (hq : q ≤ 2 ^ b) (hb : -1074 ≤ b) :
    (rounded m e acc : ℚ) * 2 ^ target m e ≤ 2 ^ b := by
  have ht := target_le hl (h.le.trans hq) hb
  have he := hl.le_target
  obtain ⟨d, hd⟩ : ∃ d : ℕ, b = d + target m e := ⟨(b - target m e).toNat, by omega⟩
  rw [hd, two_zpow_add, zpow_natCast, mul_le_mul_iff_left₀ (two_zpow_pos _)]
  have hm : m ≤ 2 ^ d * 2 ^ (target m e - e).toNat := by
    have hle := h.le.trans hq
    rw [hd, two_zpow_add, zpow_natCast] at hle
    have hval := value_shift (2 ^ d) he
    push_cast at hval
    rw [hval, mul_le_mul_iff_left₀ (two_zpow_pos e)] at hle
    exact_mod_cast hle
  have hround : rounded m e acc ≤ 2 ^ d := by
    have hdiv := (rounded_bounds m e acc).2
    have hle : m / 2 ^ (target m e - e).toNat ≤ 2 ^ d :=
      Nat.div_le_of_le_mul (by rwa [Nat.mul_comm])
    rcases hle.lt_or_eq with hlt | heq
    · omega
    · -- the number is the power of two, so that nothing is rounded
      have hm' : m = 2 ^ d * 2 ^ (target m e - e).toNat :=
        le_antisymm hm (heq ▸ Nat.div_mul_le_self _ _)
      obtain rfl : acc = .exact := by
        refine h.exact (le_antisymm (hq.trans_eq ?_) h.le)
        rw [hd, two_zpow_add, zpow_natCast]
        have hval := value_shift (2 ^ d) he
        rw [← hm'] at hval
        push_cast at hval
        exact hval
      rw [rounded_of_dvd m e (Dvd.intro_left _ hm'.symm), heq]
  exact_mod_cast hround

theorem le_rounded (h : Approximates m e acc q) (hl : Long m e) (hq : 2 ^ a ≤ q) (ha : -1022 ≤ a) :
    2 ^ a ≤ (rounded m e acc : ℚ) * 2 ^ target m e := by
  have he := hl.le_target
  rcases lt_or_ge a (target m e) with hlt | hge
  · have hr : 2 ^ 52 ≤ rounded m e acc := (rounded_normal m e acc hl).resolve_right (by omega)
    calc (2 : ℚ) ^ a ≤ 1 * 2 ^ target m e := by
          rw [one_mul]
          exact zpow_le_zpow_right₀ one_le_two hlt.le
      _ ≤ rounded m e acc * 2 ^ target m e := by
          refine mul_le_mul_of_nonneg_right ?_ (two_zpow_pos _).le
          exact_mod_cast (Nat.one_le_two_pow.trans hr)
  · obtain ⟨d, hd⟩ : ∃ d : ℕ, a = d + target m e := ⟨(a - target m e).toNat, by omega⟩
    rw [hd, two_zpow_add, zpow_natCast, mul_le_mul_iff_left₀ (two_zpow_pos _)]
    have hm : 2 ^ d * 2 ^ (target m e - e).toNat < m + 1 := by
      have hlt := hq.trans_lt h.lt
      rw [hd, two_zpow_add, zpow_natCast] at hlt
      have hval := value_shift (2 ^ d) he
      push_cast at hval
      rw [hval, mul_lt_mul_iff_left₀ (two_zpow_pos e)] at hlt
      exact_mod_cast hlt
    have hdiv : 2 ^ d ≤ m / 2 ^ (target m e - e).toNat :=
      (Nat.le_div_iff_mul_le (Nat.two_pow_pos _)).mpr (by omega)
    exact_mod_cast hdiv.trans (rounded_bounds m e acc).1

theorem shift_exact (hm : m < 2 ^ 53) (he : -1074 ≤ e) :
    shiftToTargetExponent Format.binary64 m e .exact = (⟨m, false, false⟩, e) := by
  have ht : target m e ≤ e := by
    have hl : m.log2 ≤ 52 := by
      by_cases h : m = 0
      · simp [h]
      · have := (Nat.log2_lt h).mpr hm
        omega
    unfold target
    omega
  have hs : (target m e - e).toNat = 0 := by omega
  rw [shiftToTargetExponent, targetExponent_eq]
  simp only [shiftToExponent, hs, Nat.cast_zero, add_zero]
  rfl

theorem shift_carry (he : -1074 ≤ e) :
    shiftToTargetExponent Format.binary64 (2 ^ 53) e .exact = (⟨2 ^ 52, false, false⟩, e + 1) := by
  have ht : target (2 ^ 53) e - e = 1 := by
    unfold target
    rw [Nat.log2_two_pow]
    push_cast
    omega
  rw [shiftToTargetExponent, targetExponent_eq]
  simp only [shiftToExponent, ht]
  rfl

/-- A rounding, up to the carry that it may cause. -/
theorem roundWithAccuracy_eq (sign : Sign) (acc : Accuracy) (h : Long m e) :
    roundWithAccuracy Format.binary64 sign m e acc =
      if h0 : rounded m e acc = 0 then .zero sign
      else if rounded m e acc < 2 ^ 53 then
        .finite sign (rounded m e acc) (target m e) (Nat.pos_of_ne_zero h0)
      else .finite sign (2 ^ 52) (target m e + 1) (Nat.two_pow_pos 52) := by
  have ht : -1074 ≤ target m e := le_max_right _ _
  have hfirst : shiftToTargetExponent Format.binary64 m e acc =
      (ExtendedMantissa.ofMantissaAndAccuracy m acc >>> (target m e - e).toNat, target m e) := by
    rw [shiftToTargetExponent, targetExponent_eq]
    simp only [shiftToExponent, Prod.mk.injEq, true_and]
    have := h.le_target
    omega
  rw [roundWithAccuracy, hfirst]
  simp only
  have hr : (ExtendedMantissa.ofMantissaAndAccuracy m acc >>>
      (target m e - e).toNat).roundedMantissa = rounded m e acc := rfl
  rw [hr]
  rcases (rounded_le_two_pow m e acc).lt_or_eq with hlt | heq
  · rw [shift_exact hlt ht]
    simp only [if_pos hlt]
  · rw [heq, shift_carry ht]
    norm_num

/-- A rounding stays between powers of two. -/
theorem bits_round (h : Approximates m e acc q) (hl : Long m e) (hq : q ≤ 2 ^ b) (hb : -1022 ≤ b)
    (hb' : b ≤ 1023) :
    ((Float.Model.pack (roundWithAccuracy Format.binary64 .positive m e acc)).toBits.toNat : ℤ) ≤
      (1023 + b) * 2 ^ 52 ∧ ∀ a : ℤ, -1022 ≤ a → 2 ^ a ≤ q → (1023 + a) * 2 ^ 52 ≤
        (Float.Model.pack (roundWithAccuracy Format.binary64 .positive m e acc)).toBits.toNat := by
  have ht : -1074 ≤ target m e := le_max_right _ _
  have hle := rounded_le h hl hq (by omega)
  have hge : ∀ a : ℤ, -1022 ≤ a → 2 ^ a ≤ q → 2 ^ a ≤ (rounded m e acc : ℚ) * 2 ^ target m e :=
    fun a ha hqa => le_rounded h hl hqa ha
  have hcan := rounded_normal m e acc hl
  -- a canonical number with the value of the rounded one has its place between the powers of two
  have key : ∀ m' e' (hm' : 0 < m'), Canonical m' e' →
      (m' : ℚ) * 2 ^ e' = rounded m e acc * 2 ^ target m e →
      ((Float.Model.pack (.finite .positive m' e' hm')).toBits.toNat : ℤ) ≤ (1023 + b) * 2 ^ 52 ∧
        ∀ a : ℤ, -1022 ≤ a → 2 ^ a ≤ q → (1023 + a) * 2 ^ 52 ≤
          (Float.Model.pack (.finite .positive m' e' hm')).toBits.toNat := by
    intro m' e' hm' hc hv
    have hrank := (rank_le_iff hc hb).mpr (hv ▸ hle)
    have he' : e' ≤ 971 := by
      unfold rank at hrank
      have := hc.normal
      omega
    rw [toBits_pack hc he' hm']
    exact ⟨hrank, fun a ha hqa => (le_rank_iff hc ha).mpr (hv ▸ hge a ha hqa)⟩
  rw [roundWithAccuracy_eq _ _ hl]
  split
  · rename_i h0
    have hz : (Float.Model.pack (.zero .positive)).toBits.toNat = 0 := by decide
    rw [hz]
    refine ⟨by norm_num; omega, fun a ha hqa => ?_⟩
    have := hge a ha hqa
    rw [h0, Nat.cast_zero, zero_mul] at this
    exact absurd this (not_le.mpr (two_zpow_pos a))
  · split
    · rename_i hlt
      exact key _ _ _ ⟨hlt, ht, hcan⟩ rfl
    · rename_i hge'
      have heq : rounded m e acc = 2 ^ 53 :=
        le_antisymm (rounded_le_two_pow m e acc) (Nat.le_of_not_lt hge')
      refine key _ _ _ ⟨by norm_num, by omega, Or.inl le_rfl⟩ ?_
      rw [heq, two_zpow_add]
      push_cast
      ring

end Xfer.Binary64
