import Xfer.Data.Binary64

/-! # Bounds of doubles

How doubles that are not negative are bounded by powers of two, and what the
arithmetic, the comparisons and the conversions do to the bounds. A bound is one
on the bits, so that it can be decided for a constant.
-/

namespace Xfer.Binary64

open Float.Model Float.Model.UnpackedFloat

variable {x y : Float} {m n m₁ m₂ : ℕ} {a b c d e e₁ e₂ k : ℤ} {q : ℚ}

/-- The number is not negative and at most a power of two. -/
def AtMost (k : ℤ) (x : Float) : Prop := (x.toBits.toNat : ℤ) ≤ (1023 + k) * 2 ^ 52

/-- The number is at least a power of two. -/
def AtLeast (k : ℤ) (x : Float) : Prop := (1023 + k) * 2 ^ 52 ≤ x.toBits.toNat

instance : Decidable (AtMost k x) := inferInstanceAs (Decidable ((_ : ℤ) ≤ _))

instance : Decidable (AtLeast k x) := inferInstanceAs (Decidable ((_ : ℤ) ≤ _))

theorem AtMost.mono (h : AtMost a x) (hab : a ≤ b) : AtMost b x := by
  unfold AtMost at h ⊢
  omega

theorem AtLeast.mono (h : AtLeast b x) (hab : a ≤ b) : AtLeast a x := by
  unfold AtLeast at h ⊢
  omega

theorem AtMost.unpack (h : AtMost b x) (hb : -1022 ≤ b) (hb' : b ≤ 1023) :
    (x.toBits.toNat = 0 ∧ x.toModel.unpack = .zero .positive) ∨
      ∃ m e, ∃ hm : 0 < m, x.toModel.unpack = .finite .positive m e hm ∧ Canonical m e ∧
        (x.toBits.toNat : ℤ) = rank m e ∧ (m : ℚ) * 2 ^ e ≤ 2 ^ b := by
  unfold AtMost at h
  refine (unpack_of_lt x (by omega)).imp_right ?_
  rintro ⟨m, e, hm, hu, hc, hr⟩
  exact ⟨m, e, hm, hu, hc, hr, (rank_le_iff hc hb).mp (hr ▸ h)⟩

theorem AtLeast.unpack (h : AtLeast a x) (ha : -1022 ≤ a) (h' : AtMost b x) (hb' : b ≤ 1023) :
    ∃ m e, ∃ hm : 0 < m, x.toModel.unpack = .finite .positive m e hm ∧ Canonical m e ∧
      2 ^ a ≤ (m : ℚ) * 2 ^ e ∧ (m : ℚ) * 2 ^ e ≤ 2 ^ b := by
  have hab : a ≤ b := by
    unfold AtMost at h'
    unfold AtLeast at h
    omega
  rcases h'.unpack (by omega) hb' with ⟨h0, -⟩ | ⟨m, e, hm, hu, hc, hr, hle⟩
  · unfold AtLeast at h
    omega
  · exact ⟨m, e, hm, hu, hc, (le_rank_iff hc ha).mp (hr ▸ h), hle⟩

theorem Long.of_canonical_mul (h₁ : Canonical m₁ e₁) (h₂ : Canonical m₂ e₂) (hm₁ : 0 < m₁)
    (hm₂ : 0 < m₂) : Long (m₁ * m₂) (e₁ + e₂) := by
  unfold Long
  have hlog : 2 ^ 52 ≤ m₁ * m₂ → 52 ≤ (m₁ * m₂).log2 := fun h =>
    (Nat.le_log2 (Nat.mul_pos hm₁ hm₂).ne').mpr h
  rcases h₁.normal with h | h
  · exact Or.inl (hlog (h.trans (Nat.le_mul_of_pos_right _ hm₂)))
  · rcases h₂.normal with h' | h'
    · exact Or.inl (hlog (h'.trans (Nat.le_mul_of_pos_left _ hm₁)))
    · right
      omega

theorem approximates_exact (m : ℕ) (e : ℤ) : Approximates m e .exact (m * 2 ^ e) where
  le := le_rfl
  lt := by
    refine mul_lt_mul_of_pos_right ?_ (two_zpow_pos e)
    exact_mod_cast Nat.lt_succ_self m
  exact _ := rfl

theorem AtMost.mul (hx : AtMost a x) (hy : AtMost b y) (ha : -1022 ≤ a) (hb : -1022 ≤ b)
    (hab : -1022 ≤ a + b) (hab' : a + b ≤ 1023) (ha' : a ≤ 1023) (hb' : b ≤ 1023) :
    AtMost (a + b) (x * y) := by
  change ((Float.Model.pack (UnpackedFloat.mul Format.binary64 x.toModel.unpack
    y.toModel.unpack)).toBits.toNat : ℤ) ≤ _
  have hzero : ((Float.Model.pack (.zero .positive)).toBits.toNat : ℤ) ≤
      (1023 + (a + b)) * 2 ^ 52 := by
    have : (Float.Model.pack (.zero .positive)).toBits.toNat = 0 := by decide
    omega
  rcases hx.unpack ha ha' with ⟨-, hu⟩ | ⟨m₁, e₁, hm₁, hu, hc₁, -, hv₁⟩
  · rcases hy.unpack hb hb' with ⟨-, hu'⟩ | ⟨m₂, e₂, hm₂, hu', hc₂, -, hv₂⟩
    all_goals rw [hu, hu']; exact hzero
  · rcases hy.unpack hb hb' with ⟨-, hu'⟩ | ⟨m₂, e₂, hm₂, hu', hc₂, -, hv₂⟩
    · rw [hu, hu']
      exact hzero
    · rw [hu, hu']
      refine (bits_round (approximates_exact _ _) (.of_canonical_mul hc₁ hc₂ hm₁ hm₂) ?_ hab hab').1
      calc ((m₁ * m₂ : ℕ) : ℚ) * 2 ^ (e₁ + e₂) = (m₁ * 2 ^ e₁) * (m₂ * 2 ^ e₂) := by
            rw [two_zpow_add]
            push_cast
            ring
        _ ≤ 2 ^ a * 2 ^ b := mul_le_mul hv₁ hv₂ (by positivity) (two_zpow_pos a).le
        _ = 2 ^ (a + b) := (two_zpow_add a b).symm

/-- The quotient of two mantissas, as long as it has to be. -/
theorem approximates_divCore (e₁ e₂ : ℤ) (hm₁ : 0 < m₁) (hm₂ : 0 < m₂) :
    ∃ m e acc, divCore Format.binary64 m₁ e₁ m₂ e₂ = (m, e, acc) ∧ Long m e ∧
      Approximates m e acc ((m₁ * 2 ^ e₁) / (m₂ * 2 ^ e₂)) := by
  have ht : Format.binary64.targetExponent (totalExponent m₁ e₁ - totalExponent m₂ e₂) =
      max (m₁.log2 + e₁ - m₂.log2 - e₂ - 53) (-1074) := by
    simp only [Format.targetExponent, totalExponent, Format.mantissaBits, Format.minExponent]
    norm_num
    omega
  unfold divCore
  simp only [ht, Nat.shiftLeft_eq]
  generalize hE : min (e₁ - e₂) (max (m₁.log2 + e₁ - m₂.log2 - e₂ - 53) (-1074)) = E
  obtain ⟨s, hs⟩ : ∃ s : ℕ, e₁ - e₂ = s + E := ⟨(e₁ - e₂ - E).toNat, by omega⟩
  have hs' : (e₁ - e₂ - E).toNat = s := by omega
  rw [hs']
  refine ⟨_, _, _, rfl, ?_, ?_⟩
  · unfold Long
    by_cases hmin : E ≤ -1074
    · exact Or.inr hmin
    · left
      have hle : 2 ^ 52 * m₂ ≤ m₁ * 2 ^ s := by
        calc 2 ^ 52 * m₂ ≤ 2 ^ 52 * 2 ^ (m₂.log2 + 1) :=
              Nat.mul_le_mul_left _ Nat.lt_log2_self.le
          _ = 2 ^ (m₂.log2 + 53) := by
              rw [← Nat.pow_add]
              congr 1
              omega
          _ ≤ 2 ^ (m₁.log2 + s) := Nat.pow_le_pow_right two_pos (by omega)
          _ = 2 ^ m₁.log2 * 2 ^ s := Nat.pow_add ..
          _ ≤ m₁ * 2 ^ s := Nat.mul_le_mul_right _ (Nat.log2_self_le hm₁.ne')
      have hdiv : 2 ^ 52 ≤ m₁ * 2 ^ s / m₂ := (Nat.le_div_iff_mul_le hm₂).mpr hle
      exact (Nat.le_log2 (by omega)).mpr hdiv
  · have hpos : (0 : ℚ) < m₂ := by exact_mod_cast hm₂
    have hq : (m₁ : ℚ) * 2 ^ e₁ / (m₂ * 2 ^ e₂) = ((m₁ * 2 ^ s : ℕ) : ℚ) / m₂ * 2 ^ E := by
      have he : e₁ = s + E + e₂ := by omega
      have hne : (m₂ : ℚ) * 2 ^ e₂ ≠ 0 := (mul_pos hpos (two_zpow_pos e₂)).ne'
      rw [he, two_zpow_add, two_zpow_add, zpow_natCast, div_mul_eq_mul_div,
        div_eq_div_iff hne hpos.ne']
      push_cast
      ring
    rw [hq]
    have hdivmod := Nat.div_add_mod (m₁ * 2 ^ s) m₂
    have hmod := Nat.mod_lt (m₁ * 2 ^ s) hm₂
    generalize m₁ * 2 ^ s = M at hdivmod hmod
    refine ⟨?_, ?_, fun h => ?_⟩
    · refine mul_le_mul_of_nonneg_right ?_ (two_zpow_pos E).le
      rw [le_div_iff₀ hpos]
      exact_mod_cast Nat.div_mul_le_self M m₂
    · refine mul_lt_mul_of_pos_right ?_ (two_zpow_pos E)
      rw [div_lt_iff₀ hpos]
      have hlt : M < (M / m₂ + 1) * m₂ := by
        rw [Nat.succ_mul, Nat.mul_comm]
        omega
      exact_mod_cast hlt
    · have heq := mul_right_cancel₀ (two_zpow_pos E).ne' h
      rw [div_eq_iff hpos.ne'] at heq
      have heq' : M = M / m₂ * m₂ := by exact_mod_cast heq
      have hzero : M % m₂ = 0 := by
        rw [Nat.mul_comm] at heq'
        omega
      rw [accuracyOfFraction, if_pos hzero]

theorem div_bounds (hx : AtMost a x) (hy : AtLeast c y) (hy' : AtMost d y) (ha : -1022 ≤ a)
    (ha' : a ≤ 1023) (hc : -1022 ≤ c) (hd : d ≤ 1023) (hac : -1022 ≤ a - c) (hac' : a - c ≤ 1023) :
    AtMost (a - c) (x / y) ∧
      ∀ l, -1022 ≤ l → -1022 ≤ l - d → AtLeast l x → AtLeast (l - d) (x / y) := by
  change ((Float.Model.pack (UnpackedFloat.div Format.binary64 x.toModel.unpack
    y.toModel.unpack)).toBits.toNat : ℤ) ≤ _ ∧ ∀ l : ℤ, -1022 ≤ l → -1022 ≤ l - d → AtLeast l x →
      _ ≤ ((Float.Model.pack (UnpackedFloat.div Format.binary64 x.toModel.unpack
        y.toModel.unpack)).toBits.toNat : ℤ)
  obtain ⟨m₂, e₂, hm₂, hu₂, hc₂, hge, hle⟩ := hy.unpack hc hy' hd
  have hpos₂ : (0 : ℚ) < m₂ * 2 ^ e₂ := (two_zpow_pos c).trans_le hge
  rw [hu₂]
  rcases hx.unpack ha ha' with ⟨h0, hu⟩ | ⟨m₁, e₁, hm₁, hu, hc₁, hr, hv₁⟩
  · rw [hu]
    have hz : (Float.Model.pack (.zero .positive)).toBits.toNat = 0 := by decide
    refine ⟨?_, fun l hl _ h => ?_⟩
    · change ((Float.Model.pack (.zero .positive)).toBits.toNat : ℤ) ≤ _
      omega
    · unfold AtLeast at h
      omega
  · rw [hu]
    obtain ⟨m, e, acc, hcore, hlong, happ⟩ := approximates_divCore e₁ e₂ hm₁ hm₂
    simp only [UnpackedFloat.div, hcore]
    have hq : (m₁ : ℚ) * 2 ^ e₁ / (m₂ * 2 ^ e₂) ≤ 2 ^ (a - c) := by
      rw [div_le_iff₀ hpos₂]
      calc (m₁ : ℚ) * 2 ^ e₁ ≤ 2 ^ (a - c + c) := by rwa [sub_add_cancel]
        _ = 2 ^ (a - c) * 2 ^ c := two_zpow_add ..
        _ ≤ 2 ^ (a - c) * (m₂ * 2 ^ e₂) := mul_le_mul_of_nonneg_left hge (two_zpow_pos _).le
    obtain ⟨hup, hdown⟩ := bits_round happ hlong hq hac hac'
    refine ⟨hup, fun l hl hld h => hdown (l - d) hld ?_⟩
    have hv := (le_rank_iff hc₁ hl).mp (hr ▸ h)
    rw [le_div_iff₀ hpos₂]
    calc (2 : ℚ) ^ (l - d) * (m₂ * 2 ^ e₂) ≤ 2 ^ (l - d) * 2 ^ d :=
          mul_le_mul_of_nonneg_left hle (two_zpow_pos _).le
      _ = 2 ^ l := by rw [← two_zpow_add, sub_add_cancel]
      _ ≤ m₁ * 2 ^ e₁ := hv

theorem target_of_shift (m s : ℕ) (e : ℤ) (hm : 0 < m) :
    target (m * 2 ^ s) (e - s) = target m e := by
  have hlog : (m * 2 ^ s).log2 = m.log2 + s := by
    rw [Nat.log2_eq_iff (by positivity), Nat.pow_add, Nat.add_right_comm, Nat.pow_add]
    exact ⟨Nat.mul_le_mul_right _ (Nat.log2_self_le hm.ne'),
      Nat.mul_lt_mul_of_pos_right Nat.lt_log2_self (Nat.two_pow_pos s)⟩
  unfold target
  rw [hlog]
  push_cast
  omega

/-- A number that is given by any mantissa is rounded between powers of two. -/
theorem bits_normalize (hm : 0 < m) (hq : (m : ℚ) * 2 ^ e ≤ 2 ^ b) (hb : -1022 ≤ b)
    (hb' : b ≤ 1023) :
    ((Float.Model.pack (UnpackedFloat.normalize Format.binary64 m e .positive)).toBits.toNat : ℤ) ≤
      (1023 + b) * 2 ^ 52 ∧ ∀ a : ℤ, -1022 ≤ a → 2 ^ a ≤ (m : ℚ) * 2 ^ e → (1023 + a) * 2 ^ 52 ≤
        (Float.Model.pack (UnpackedFloat.normalize Format.binary64 m e .positive)).toBits.toNat := by
  have hcmp : compare (m : ℤ) 0 = .gt := by
    rw [compare_gt_iff_gt]
    exact_mod_cast hm
  obtain ⟨s, hs⟩ : ∃ s : ℕ, (e - target m e).toNat = s := ⟨_, rfl⟩
  have hval : (m : ℚ) * 2 ^ e = (m * 2 ^ s : ℕ) * 2 ^ (e - s) := by
    have := value_shift m (e := e - s) (t := e) (by omega)
    rwa [sub_sub_cancel, Int.toNat_natCast] at this
  have hlong : Long (m * 2 ^ s) (e - s) := by
    have ht := target_of_shift m s e hm
    unfold Long
    unfold target at hs ht
    omega
  have happ : Approximates (m * 2 ^ s) (e - s) .exact ((m : ℚ) * 2 ^ e) :=
    hval ▸ approximates_exact (m * 2 ^ s) (e - s)
  have hround := bits_round happ hlong hq hb hb'
  unfold UnpackedFloat.normalize
  rw [hcmp]
  simp only [UnpackedFloat.round, decreaseExponent, targetExponent_eq, Int.toNat_natCast, hs,
    Nat.shiftLeft_eq]
  exact hround

theorem toFloat_bounds (n : UInt64) (k : ℕ) (hk : k ≤ 1023) :
    (n.toNat ≤ 2 ^ k → AtMost k n.toFloat) ∧ (2 ^ k ≤ n.toNat → AtLeast k n.toFloat) := by
  have hbits : n.toFloat.toBits =
      (Float.Model.pack (UnpackedFloat.normalize Format.binary64 (n.toNat : ℤ) 0 .positive)).toBits := rfl
  unfold AtMost AtLeast
  rw [hbits]
  rcases Nat.eq_zero_or_pos n.toNat with h0 | hpos
  · rw [h0]
    have hz : (Float.Model.pack (UnpackedFloat.normalize Format.binary64 ((0 : ℕ) : ℤ) 0
        .positive)).toBits.toNat = 0 := by
      decide
    have hp := Nat.two_pow_pos k
    omega
  · constructor
    · intro h
      refine (bits_normalize hpos (b := k) ?_ (by omega) (by omega)).1
      rw [zpow_zero, mul_one, zpow_natCast]
      exact_mod_cast h
    · intro h
      refine (bits_normalize hpos (b := 64) ?_ (by omega) (by omega)).2 k (by omega) ?_
      · rw [zpow_zero, mul_one]
        exact_mod_cast n.toNat_lt.le
      · rw [zpow_zero, mul_one, zpow_natCast]
        exact_mod_cast h

theorem toBits_pack_unpack (h : AtMost b x) (hb : -1022 ≤ b) (hb' : b ≤ 1023) :
    (Float.Model.pack x.toModel.unpack).toBits.toNat = x.toBits.toNat := by
  rcases h.unpack hb hb' with ⟨h0, hu⟩ | ⟨m, e, hm, hu, hc, hr, -⟩
  · rw [hu, h0]
    decide
  · have he : e ≤ 971 := by
      have := hc.normal
      unfold AtMost at h
      unfold rank at hr
      omega
    have := toBits_pack hc he hm
    rw [hu]
    omega

theorem value_min (m : ℕ) (h : c ≤ e) :
    (((m * 2 ^ (e - c).toNat : ℕ) : ℤ) : ℚ) * 2 ^ c = m * 2 ^ e := by
  rw [Int.cast_natCast]
  exact (value_shift m h).symm

theorem AtMost.add (hx : AtMost a x) (hy : AtMost a y) (ha : -1022 ≤ a) (ha' : a < 1023) :
    AtMost (a + 1) (x + y) := by
  change ((Float.Model.pack (UnpackedFloat.add Format.binary64 x.toModel.unpack
    y.toModel.unpack)).toBits.toNat : ℤ) ≤ _
  have hsame : ∀ {z : Float}, AtMost a z →
      ((Float.Model.pack z.toModel.unpack).toBits.toNat : ℤ) ≤ (1023 + (a + 1)) * 2 ^ 52 := by
    intro z hz
    rw [toBits_pack_unpack hz ha ha'.le]
    exact hz.mono (by omega)
  rcases hx.unpack ha ha'.le with ⟨-, hu⟩ | ⟨m₁, e₁, hm₁, hu, -, -, hv₁⟩
  · have hy' := hsame hy
    rcases hy.unpack ha ha'.le with ⟨-, hu'⟩ | ⟨m₂, e₂, hm₂, hu', -⟩
    all_goals rw [hu'] at hy'; rw [hu, hu']; exact hy'
  · rcases hy.unpack ha ha'.le with ⟨-, hu'⟩ | ⟨m₂, e₂, hm₂, hu', -, -, hv₂⟩
    · have hx' := hsame hx
      rw [hu] at hx'
      rw [hu, hu']
      exact hx'
    · rw [hu, hu']
      simp only [UnpackedFloat.add, decreaseExponent, Nat.shiftLeft_eq, Sign.apply, ← Nat.cast_add]
      refine (bits_normalize (by positivity) ?_ (by omega) (by omega)).1
      have h₁ := value_min m₁ (min_le_left e₁ e₂)
      have h₂ := value_min m₂ (min_le_right e₁ e₂)
      rw [Int.cast_natCast] at h₁ h₂
      rw [Nat.cast_add, add_mul, h₁, h₂, two_zpow_add, zpow_one]
      linarith

/-- Zero or a number, with a negative sign. -/
def IsNegative (u : UnpackedFloat) : Prop :=
  u = .zero .negative ∨ ∃ m e, ∃ hm : 0 < m, u = .finite .negative m e hm

theorem toNat_packComponents_negative (g : BitVec 11) (f : BitVec 52) :
    2 ^ 63 ≤ (packComponents Format.binary64 .negative g f).toNat := by
  unfold packComponents
  rw [BitVec.toNat_append, BitVec.toNat_append, ← Nat.shiftLeft_add_eq_or_of_lt f.isLt,
    ← Nat.shiftLeft_add_eq_or_of_lt g.isLt, Nat.shiftLeft_eq, Nat.shiftLeft_eq]
  simp only [Sign.toBitVec, BitVec.toNat_ofNat]
  omega

theorem IsNegative.le_bits {u : UnpackedFloat} (h : IsNegative u) :
    2 ^ 63 ≤ (Float.Model.pack u).toBits.toNat := by
  change _ ≤ (UnpackedFloat.pack Format.binary64 u).toNat
  rcases h with rfl | ⟨m, e, hm, rfl⟩
  · exact toNat_packComponents_negative _ _
  · unfold UnpackedFloat.pack
    simp only
    split
    · exact toNat_packComponents_negative _ _
    · split <;> exact toNat_packComponents_negative _ _

theorem isNegative_normalize {z : ℤ} (hz : z < 0) (e : ℤ) :
    IsNegative (UnpackedFloat.normalize Format.binary64 z e .positive) := by
  unfold UnpackedFloat.normalize
  rw [compare_lt_iff_lt.mpr hz]
  simp only [UnpackedFloat.round, roundWithAccuracy]
  split
  · exact Or.inl rfl
  · exact Or.inr ⟨_, _, _, rfl⟩

/-- A difference is at most what it is taken from, or it is negative. -/
theorem AtMost.sub (hx : AtMost a x) (hy : AtMost b y) (ha : -1022 ≤ a) (ha' : a ≤ 1023)
    (hb : -1022 ≤ b) (hb' : b ≤ 1023) :
    AtMost a (x - y) ∨ 2 ^ 63 ≤ (x - y).toBits.toNat := by
  change ((Float.Model.pack (UnpackedFloat.sub Format.binary64 x.toModel.unpack
    y.toModel.unpack)).toBits.toNat : ℤ) ≤ _ ∨ 2 ^ 63 ≤ (Float.Model.pack (UnpackedFloat.sub
      Format.binary64 x.toModel.unpack y.toModel.unpack)).toBits.toNat
  have hz : (Float.Model.pack (.zero .positive)).toBits.toNat = 0 := by decide
  have hx' := toBits_pack_unpack hx ha ha'
  rcases hx.unpack ha ha' with ⟨-, hu⟩ | ⟨m₁, e₁, hm₁, hu, -, -, hv₁⟩
  · rcases hy.unpack hb hb' with ⟨-, hu'⟩ | ⟨m₂, e₂, hm₂, hu', -⟩
    · left
      rw [hu, hu']
      change ((Float.Model.pack (.zero .positive)).toBits.toNat : ℤ) ≤ _
      omega
    · right
      rw [hu, hu']
      exact IsNegative.le_bits (Or.inr ⟨m₂, e₂, hm₂, rfl⟩)
  · rcases hy.unpack hb hb' with ⟨-, hu'⟩ | ⟨m₂, e₂, hm₂, hu', -⟩
    · left
      rw [hu] at hx'
      rw [hu, hu']
      change ((Float.Model.pack (.finite .positive m₁ e₁ hm₁)).toBits.toNat : ℤ) ≤ _
      rw [hx']
      exact hx
    · rw [hu, hu']
      simp only [UnpackedFloat.sub, decreaseExponent, Nat.shiftLeft_eq, Sign.apply]
      have h₁ := value_min m₁ (min_le_left e₁ e₂)
      rw [Int.cast_natCast] at h₁
      generalize m₁ * 2 ^ (e₁ - min e₁ e₂).toNat = n₁ at h₁
      generalize m₂ * 2 ^ (e₂ - min e₁ e₂).toNat = n₂
      rcases lt_trichotomy n₁ n₂ with hlt | heq | hgt
      · exact Or.inr (isNegative_normalize (by omega) _).le_bits
      · left
        rw [heq, sub_self]
        change ((Float.Model.pack (.zero .positive)).toBits.toNat : ℤ) ≤ _
        omega
      · left
        obtain ⟨d, rfl⟩ := Nat.exists_eq_add_of_lt hgt
        have hsub : ((n₂ + d + 1 : ℕ) : ℤ) - n₂ = (d + 1 : ℕ) := by omega
        rw [hsub]
        refine (bits_normalize (Nat.succ_pos d) ?_ ha ha').1
        refine le_trans (mul_le_mul_of_nonneg_right ?_ (two_zpow_pos _).le) (h₁.trans_le hv₁)
        exact_mod_cast (by omega : d + 1 ≤ n₂ + d + 1)

/-- Numbers are compared like their places. -/
theorem compare_rank (h₁ : Canonical m₁ e₁) (h₂ : Canonical m₂ e₂) :
    (compare e₁ e₂).then (compare m₁ m₂) = compare (rank m₁ e₁) (rank m₂ e₂) := by
  have hn₁ := h₁.normal
  have hn₂ := h₂.normal
  have hl₁ := h₁.lt
  have hl₂ := h₂.lt
  have hm₁ := h₁.minimal
  have hm₂ := h₂.minimal
  unfold rank
  rcases lt_trichotomy e₁ e₂ with h | h | h
  · have he : compare e₁ e₂ = .lt := compare_lt_iff_lt.mpr h
    rw [he, Ordering.lt_then, eq_comm, compare_lt_iff_lt]
    omega
  · subst h
    rw [compare_eq_iff_eq.mpr rfl, Ordering.eq_then]
    rcases lt_trichotomy m₁ m₂ with hm | hm | hm
    · rw [compare_lt_iff_lt.mpr hm, eq_comm, compare_lt_iff_lt]
      omega
    · rw [compare_eq_iff_eq.mpr hm, eq_comm, compare_eq_iff_eq]
      omega
    · rw [compare_gt_iff_gt.mpr hm, eq_comm, compare_gt_iff_gt]
      omega
  · have he : compare e₁ e₂ = .gt := compare_gt_iff_gt.mpr h
    rw [he, Ordering.gt_then, eq_comm, compare_gt_iff_gt]
    omega

theorem rank_pos (h : Canonical m e) (hm : 0 < m) : 0 < rank m e := by
  have := h.minimal
  unfold rank
  omega

theorem compare_unpack (hx : AtMost a x) (hy : AtMost b y) (ha : -1022 ≤ a) (ha' : a ≤ 1023)
    (hb : -1022 ≤ b) (hb' : b ≤ 1023) :
    x.toModel.unpack.compare y.toModel.unpack =
      some (compare (x.toBits.toNat : ℤ) y.toBits.toNat) := by
  rcases hx.unpack ha ha' with ⟨h0, hu⟩ | ⟨m₁, e₁, hm₁, hu, hc₁, hr₁, -⟩
  · rcases hy.unpack hb hb' with ⟨h0', hu'⟩ | ⟨m₂, e₂, hm₂, hu', hc₂, hr₂, -⟩
    · rw [hu, hu', h0, h0']
      rfl
    · have hpos := rank_pos hc₂ hm₂
      have hlt : compare (x.toBits.toNat : ℤ) y.toBits.toNat = .lt :=
        compare_lt_iff_lt.mpr (by omega)
      rw [hu, hu', hlt]
      rfl
  · have hpos := rank_pos hc₁ hm₁
    rcases hy.unpack hb hb' with ⟨h0', hu'⟩ | ⟨m₂, e₂, hm₂, hu', hc₂, hr₂, -⟩
    · have hgt : compare (x.toBits.toNat : ℤ) y.toBits.toNat = .gt :=
        compare_gt_iff_gt.mpr (by omega)
      rw [hu, hu', hgt]
      rfl
    · rw [hu, hu', hr₁, hr₂, ← compare_rank hc₁ hc₂]
      rfl

theorem lt_iff_unpack : x < y ↔ x.toModel.unpack.lt y.toModel.unpack = true := by
  change decide (x.toModel < y.toModel) = true ↔ _
  rw [decide_eq_true_iff]
  rfl

theorem le_iff_unpack : x ≤ y ↔ x.toModel.unpack.le y.toModel.unpack = true := by
  change decide (x.toModel ≤ y.toModel) = true ↔ _
  rw [decide_eq_true_iff]
  rfl

section Compare

variable (hx : AtMost a x) (hy : AtMost b y) (ha : -1022 ≤ a) (ha' : a ≤ 1023) (hb : -1022 ≤ b)
  (hb' : b ≤ 1023)
include hx hy ha ha' hb hb'

theorem lt_iff : x < y ↔ x.toBits.toNat < y.toBits.toNat := by
  have hcast : x.toBits.toNat < y.toBits.toNat ↔ (x.toBits.toNat : ℤ) < y.toBits.toNat :=
    Int.ofNat_lt.symm
  rw [lt_iff_unpack, UnpackedFloat.lt, compare_unpack hx hy ha ha' hb hb', hcast,
    ← compare_lt_iff_lt]
  simp

theorem le_iff : x ≤ y ↔ x.toBits.toNat ≤ y.toBits.toNat := by
  rw [le_iff_unpack, UnpackedFloat.le, compare_unpack hx hy ha ha' hb hb', Option.any_some,
    Int.isLE_compare, Nat.cast_le]

theorem AtMost.of_lt (hlt : x < y) : AtMost b x := by
  rw [lt_iff hx hy ha ha' hb hb'] at hlt
  unfold AtMost at hy ⊢
  omega

theorem AtMost.of_not_le (hle : ¬ y ≤ x) : AtMost b x := by
  rw [le_iff hy hx hb hb' ha ha'] at hle
  unfold AtMost at hy ⊢
  omega

end Compare

theorem unpack_of_le (hx : 2 ^ 63 ≤ x.toBits.toNat) :
    x.toModel.unpack = .infinity .negative ∨ IsNegative x.toModel.unpack := by
  obtain ⟨⟨⟨⟨⟨bits, hb⟩⟩⟩, hv⟩⟩ := x
  change 2 ^ 63 ≤ bits at hx
  change UnpackedFloat.unpack Format.binary64 ⟨⟨bits, hb⟩⟩ = _ ∨
    IsNegative (UnpackedFloat.unpack Format.binary64 ⟨⟨bits, hb⟩⟩)
  have hsign : unpackSign (⟨⟨bits, hb⟩⟩ : BitVec Format.binary64.numBits) = 1#1 := by
    apply BitVec.eq_of_toNat_eq
    simp [unpackSign, Nat.shiftRight_eq_div_pow]
    omega
  have hneg : Sign.ofBitVec 1#1 = .negative := rfl
  unfold UnpackedFloat.unpack
  simp only [hsign, hneg]
  split
  · rename_i he
    split
    · exact Or.inl rfl
    · rename_i hm
      have hnan := congrArg BitVec.toNat (hv.eq_packedNaN he hm)
      have hlt : (packedNaN Format.binary64).toNat < 2 ^ 63 := by decide
      rw [← hnan] at hlt
      exact absurd hx (Nat.not_le.mpr hlt)
  · right
    split
    · split
      · exact Or.inl rfl
      · exact Or.inr ⟨_, _, _, rfl⟩
    · exact Or.inr ⟨_, _, _, rfl⟩

theorem lt_of_negative (hx : 2 ^ 63 ≤ x.toBits.toNat) (hy : AtLeast a y) (ha : -1022 ≤ a)
    (hy' : AtMost b y) (hb' : b ≤ 1023) : x < y := by
  obtain ⟨m, e, hm, hu, -⟩ := hy.unpack ha hy' hb'
  rw [lt_iff_unpack, hu]
  rcases unpack_of_le hx with hu' | hu' | ⟨m', e', hm', hu'⟩ <;> rw [hu'] <;> rfl

theorem toUInt64_of_lt_one (h : x.toBits.toNat < 1023 * 2 ^ 52) : x.toUInt64 = 0 := by
  change UnpackedFloat.toUInt64 x.toModel.unpack = 0
  have hx : AtMost 0 x := by
    unfold AtMost
    omega
  rcases hx.unpack (by norm_num) (by norm_num) with ⟨-, hu⟩ | ⟨m, e, hm, hu, hc, hr, hv⟩
  · rw [hu]
    rfl
  · rw [hu]
    have hlt' := hc.lt
    have he : e ≤ -52 := by
      unfold rank at hr
      omega
    have hlt : m < 2 ^ (0 - e).toNat := by
      rcases he.lt_or_eq with he | rfl
      · exact hlt'.trans_le (Nat.pow_le_pow_right two_pos (by omega))
      · unfold rank at hr
        have h52 : (0 - (-52 : ℤ)).toNat = 52 := rfl
        rw [h52]
        omega
    have hz : e.toNat = 0 := by omega
    simp only [UnpackedFloat.toUInt64, UnpackedFloat.toInt, roundToInt, decreaseExponent,
      shiftToExponent, sub_zero, hz, Nat.cast_zero, mantissa_shift, mantissa_ofMantissaAndAccuracy,
      Nat.shiftLeft_zero, Nat.div_eq_of_lt hlt]
    rfl

end Xfer.Binary64
