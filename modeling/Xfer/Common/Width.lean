import Xfer.Common.Progress
import Xfer.Data.Doubles

/-! # The width of the line

How long what is formatted can get: the numbers of bytes by their units, the
duration and the percentage, and from them the length of a label from which on
the line can overrun its buffer.
-/

namespace Xfer.Common

open Binary64

variable {x : Float} {k : ℤ} {d n prec : ℕ} {bytes : UInt64}

theorem roundHalfEven_le {N : ℕ} (hd : 0 < d) (h : n ≤ N * d) : roundHalfEven n d ≤ N := by
  have hle : n / d ≤ N := Nat.div_le_of_le_mul (Nat.mul_comm N d ▸ h)
  unfold roundHalfEven
  split
  · exact hle
  · rename_i hup
    rcases hle.lt_or_eq with hlt | heq
    · exact hlt
    · -- nothing is left that could be rounded up
      have hmod : n % d = 0 := by
        have hdm := Nat.div_add_mod n d
        rw [heq, Nat.mul_comm] at hdm
        omega
      exact absurd (Or.inl (by omega)) hup

theorem scaled_le (j : ℕ) (h : AtMost j x) (hj : j ≤ 1023) (prec : ℕ) :
    scaled prec x ≤ 2 ^ j * 10 ^ prec := by
  unfold AtMost at h
  unfold scaled
  generalize x.toBits.toNat = bits at h
  simp only
  have hexp : bits / 2 ^ 52 % 2 ^ 11 = bits / 2 ^ 52 := Nat.mod_eq_of_lt (by omega)
  rw [hexp]
  generalize hN : 1075 = N
  refine roundHalfEven_le (pow_pos two_pos N) ?_
  have hval : (if bits / 2 ^ 52 = 0 then bits % 2 ^ 52 else bits % 2 ^ 52 + 2 ^ 52) *
      2 ^ max (bits / 2 ^ 52) 1 ≤ 2 ^ (j + N) := by
    rcases Nat.lt_or_ge (bits / 2 ^ 52) (1023 + j) with hlt | hge
    · calc _ ≤ 2 ^ 53 * 2 ^ (1022 + j) := by
            refine Nat.mul_le_mul ?_ (Nat.pow_le_pow_right two_pos (by omega))
            split <;> omega
        _ = 2 ^ (j + N) := by
            rw [← Nat.pow_add]
            congr 1
            omega
    · have hf : bits % 2 ^ 52 = 0 := by omega
      have he : bits / 2 ^ 52 = 1023 + j := by omega
      rw [hf, he, if_neg (by omega), max_eq_left (by omega), Nat.zero_add, ← Nat.pow_add]
      exact Nat.pow_le_pow_right two_pos (by omega)
  calc _ ≤ 2 ^ (j + N) * 10 ^ prec := Nat.mul_le_mul_right _ hval
    _ = 2 ^ j * 10 ^ prec * 2 ^ N := by rw [Nat.pow_add, Nat.mul_right_comm]

theorem length_magnitude (prec : ℕ) (x : Float) : (magnitude prec x).length =
    max (prec + 1) (Nat.toDigits 10 (scaled prec x)).length + if prec = 0 then 0 else 1 := by
  have hdot : (ascii ".").length = 1 := rfl
  unfold magnitude
  simp only [List.splitAt_eq]
  split
  · rw [List.length_take]
    simp only [List.length_append, List.length_replicate, List.length_map]
    omega
  · simp only [List.length_append, List.length_take, List.length_drop, List.length_replicate,
      List.length_map, hdot]
    omega

theorem length_fixed_le (prec j : ℕ) (h : AtMost j x) (hj : j ≤ 1023)
    (hd : 2 ^ j * 10 ^ prec < 10 ^ d) (hp : prec < d) (h3 : 2 < d) :
    (fixed prec x).length ≤ d + if prec = 0 then 0 else 1 := by
  have hdigits : (Nat.toDigits 10 (scaled prec x)).length ≤ d :=
    (Nat.length_toDigits_le_iff (by norm_num) (by omega)).mpr ((scaled_le j h hj prec).trans_lt hd)
  have hsign : ¬ 2 ^ 63 ≤ x.toBits.toNat := by
    unfold AtMost at h
    omega
  have hinf : (ascii "inf").length = 3 := rfl
  have hnan : (ascii "nan").length = 3 := rfl
  unfold fixed
  rw [if_neg hsign]
  have hmag := length_magnitude prec x
  split
  · omega
  · split
    · rw [List.nil_append]
      omega
    · rw [List.nil_append]
      omega

theorem le_length_fixed (prec : ℕ) (x : Float) :
    (if prec = 0 then 1 else 3) ≤ (fixed prec x).length := by
  have hinf : (ascii "inf").length = 3 := rfl
  have hnan : (ascii "nan").length = 3 := rfl
  have hmag := length_magnitude prec x
  unfold fixed
  by_cases hn : x.isNaN = true
  · rw [if_pos hn, hnan]
    split <;> omega
  · rw [if_neg hn, List.length_append]
    by_cases hi : x.isInf = true
    · rw [if_pos hi, hinf]
      split <;> omega
    · rw [if_neg hi, hmag]
      split <;> omega

theorem scaleUnit_cases (n j unit : ℕ) (h : AtMost j x) (hj : j ≤ 1023) (hn : 10 * n ≤ j) :
    AtMost 10 (scaleUnit n x unit).1 ∨
      (scaleUnit n x unit).2 = unit + n ∧ AtMost (j - 10 * n : ℕ) (scaleUnit n x unit).1 := by
  have hlo : AtLeast 10 1024.0 := by decide
  have hhi : AtMost 10 1024.0 := by decide
  induction n generalizing x j unit with
  | zero => exact Or.inr ⟨rfl, h⟩
  | succ n ih =>
    unfold scaleUnit
    split
    · have hdiv : AtMost ((j - 10 : ℕ) : ℤ) (x / 1024.0) := by
        rw [Nat.cast_sub (by omega)]
        exact (div_bounds h hlo hhi (by omega) (by omega) (by omega) (by omega) (by omega)
          (by omega)).1
      rcases ih (j - 10) (unit + 1) hdiv (by omega) (by omega) with h | ⟨hu, h⟩
      · exact Or.inl h
      · refine Or.inr ⟨by rw [hu]; omega, ?_⟩
        rwa [show j - 10 * (n + 1) = j - 10 - 10 * n by omega]
    · rename_i hlt
      exact Or.inl (h.of_not_le hhi (by omega) (by omega) (by omega) (by omega) hlt)

theorem length_unit_le (unit : ℕ) : (kUnits.getD unit []).length ≤ if unit = 0 then 1 else 3 := by
  rcases unit with _ | _ | _ | _ | _ | _ | unit
  all_goals first | decide | skip
  simp [kUnits]

theorem length_snprintf_le (size : ℕ) (text : Bytes) :
    (snprintf size text).2.length ≤ text.length := (List.take_prefix _ _).length_le

theorem formatBytes_eq (bytes : UInt64) : formatBytes bytes = (snprintf 32
    (fixed (if (scaleUnit 5 bytes.toFloat 0).2 = 0 then 0 else 2) (scaleUnit 5 bytes.toFloat 0).1 ++
      ascii " " ++ kUnits.getD (scaleUnit 5 bytes.toFloat 0).2 [])).2 := rfl

/-- A number of bytes takes at most twelve characters, and eleven if it is below `2 ^ 63`. -/
theorem length_formatBytes_le (j : ℕ) (hj : 60 ≤ j) (hj' : j ≤ 64) (h : bytes.toNat ≤ 2 ^ j) :
    (formatBytes bytes).length ≤ if j = 64 then 12 else 11 := by
  have hspace : (ascii " ").length = 1 := rfl
  have hx := (toFloat_bounds bytes j (by omega)).1 h
  rw [formatBytes_eq]
  have hcases := scaleUnit_cases 5 j 0 hx (by omega) (by omega)
  generalize scaleUnit 5 bytes.toFloat 0 = r at hcases ⊢
  obtain ⟨value, unit⟩ := r
  change AtMost ((10 : ℕ) : ℤ) value ∨ unit = 0 + 5 ∧ AtMost (j - 50 : ℕ) value at hcases
  refine (length_snprintf_le _ _).trans ?_
  have hunit := length_unit_le unit
  simp only [List.length_append, hspace]
  by_cases h0 : unit = 0
  · rw [if_pos h0] at hunit ⊢
    have h10 : AtMost ((10 : ℕ) : ℤ) value := hcases.resolve_right fun h => by omega
    have hfix : (fixed 0 value).length ≤ 4 := length_fixed_le (d := 4) 0 10 h10
      (by norm_num) (by norm_num) (by norm_num) (by norm_num)
    split <;> omega
  · rw [if_neg h0] at hunit ⊢
    have hfix : (fixed 2 value).length ≤ if j = 64 then 8 else 7 := by
      split
      · have h14 : AtMost ((14 : ℕ) : ℤ) value := by
          rcases hcases with h | ⟨-, h⟩
          · exact h.mono (by norm_num)
          · exact h.mono (by omega)
        exact length_fixed_le (d := 7) 2 14 h14 (by norm_num) (by norm_num) (by norm_num)
          (by norm_num)
      · have h13 : AtMost ((13 : ℕ) : ℤ) value := by
          rcases hcases with h | ⟨-, h⟩
          · exact h.mono (by norm_num)
          · exact h.mono (by omega)
        exact length_fixed_le (d := 6) 2 13 h13 (by norm_num) (by norm_num) (by norm_num)
          (by norm_num)
    by_cases h64 : j = 64
    · rw [if_pos h64] at hfix ⊢
      omega
    · rw [if_neg h64] at hfix ⊢
      omega

/-- A duration takes as many characters as its hours do. -/
theorem length_formatDuration_le (j : ℕ) (hj : 20 ≤ j) (hj' : j ≤ 1000) (h : AtMost j x)
    (hd : 2 ^ (j - 11) * 10 ^ 2 < 10 ^ d) (hd' : 7 ≤ d) : (formatDuration x).length ≤ d + 3 := by
  have hms : (ascii " ms").length = 3 := rfl
  have hs : (ascii " s").length = 2 := rfl
  have hmin : (ascii " min").length = 4 := rfl
  have hh : (ascii " h").length = 2 := rfl
  have below : ∀ {k : ℕ} {c : Float}, k ≤ 1023 → AtMost k c → x < c → AtMost k x :=
    fun hk hc hlt => h.of_lt hc (by omega) (by omega) (by omega) (by omega) hlt
  unfold formatDuration
  refine (length_snprintf_le _ _).trans ?_
  split
  · rename_i hlt
    have hx : AtMost ((0 : ℕ) : ℤ) x := below (by norm_num) (by decide) hlt
    have hmul : AtMost ((10 : ℕ) : ℤ) (x * 1000.0) := hx.mul (b := 10) (by decide)
      (by norm_num) (by norm_num) (by norm_num) (by norm_num) (by norm_num) (by norm_num)
    have hfix : (fixed 0 (x * 1000.0)).length ≤ 4 := length_fixed_le (d := 4) 0 10 hmul
      (by norm_num) (by norm_num) (by norm_num) (by norm_num)
    rw [List.length_append, hms]
    omega
  · split
    · rename_i hlt
      have hx : AtMost ((6 : ℕ) : ℤ) x := below (by norm_num) (by decide) hlt
      have hfix : (fixed 2 x).length ≤ 5 := length_fixed_le (d := 4) 2 6 hx
        (by norm_num) (by norm_num) (by norm_num) (by norm_num)
      rw [List.length_append, hs]
      omega
    · split
      · rename_i hlt
        have hx : AtMost ((12 : ℕ) : ℤ) x := below (by norm_num) (by decide) hlt
        have hdiv : AtMost ((7 : ℕ) : ℤ) (x / 60.0) := (div_bounds (c := 5) (d := 6) hx
          (by decide) (by decide) (by norm_num) (by norm_num) (by norm_num)
          (by norm_num) (by norm_num) (by norm_num)).1
        have hfix : (fixed 1 (x / 60.0)).length ≤ 5 := length_fixed_le (d := 4) 1 7 hdiv
          (by norm_num) (by norm_num) (by norm_num) (by norm_num)
        rw [List.length_append, hmin]
        omega
      · have hdiv : AtMost ((j - 11 : ℕ) : ℤ) (x / 3600.0) := by
          rw [Nat.cast_sub (by omega)]
          exact (div_bounds (c := 11) (d := 12) h (by decide) (by decide)
            (by omega) (by omega) (by norm_num) (by norm_num) (by omega) (by omega)).1
        have hfix : (fixed 2 (x / 3600.0)).length ≤ d + 1 :=
          length_fixed_le 2 (j - 11) hdiv (by omega) hd (by omega) (by omega)
        rw [List.length_append, hh]
        omega

theorem length_formatDuration_le_31 (x : Float) : (formatDuration x).length ≤ 31 :=
  List.length_take_le _ _

theorem length_nothing : (formatBytes 0).length = 3 ∧ (formatDuration 0.0).length = 4 ∧
    (fixed 1 100.0).length = 5 ∧ ∀ n < 16, (formatBytes (UInt64.ofNat n)).length ≤ 4 := by
  decide +kernel

theorem three_le_formatBytes (bytes : UInt64) : 3 ≤ (formatBytes bytes).length := by
  have hspace : (ascii " ").length = 1 := rfl
  rw [formatBytes_eq]
  generalize scaleUnit 5 bytes.toFloat 0 = r
  obtain ⟨value, unit⟩ := r
  have hfix := le_length_fixed (if unit = 0 then 0 else 2) value
  simp only [snprintf, List.length_take, List.length_append, hspace]
  by_cases h0 : unit = 0
  · have hB : (kUnits.getD unit []).length = 1 := by
      rw [h0]
      rfl
    simp only [h0, if_true] at hfix hB ⊢
    omega
  · simp only [h0, if_false, OfNat.ofNat_ne_zero] at hfix ⊢
    omega

theorem four_le_formatDuration (x : Float) : 4 ≤ (formatDuration x).length := by
  have hms : (ascii " ms").length = 3 := rfl
  have hs : (ascii " s").length = 2 := rfl
  have hmin : (ascii " min").length = 4 := rfl
  have hh : (ascii " h").length = 2 := rfl
  have h₀ : 1 ≤ (fixed 0 (x * 1000.0)).length := le_length_fixed 0 _
  have h₁ : 3 ≤ (fixed 2 x).length := le_length_fixed 2 _
  have h₂ : 3 ≤ (fixed 1 (x / 60.0)).length := le_length_fixed 1 _
  have h₃ : 3 ≤ (fixed 2 (x / 3600.0)).length := le_length_fixed 2 _
  unfold formatDuration
  simp only [snprintf, List.length_take]
  split
  · rw [List.length_append, hms]
    omega
  · split
    · rw [List.length_append, hs]
      omega
    · split
      · rw [List.length_append, hmin]
        omega
      · rw [List.length_append, hh]
        omega

section Clock

variable {start now : Timespec}

theorem atMost_nowSec (t : Timespec) : AtMost 64 (nowSec t) := by
  have hsec : AtMost ((63 : ℕ) : ℤ) t.sec.toFloat :=
    (toFloat_bounds t.sec 63 (by norm_num)).1 t.sec_lt.le
  have hnsec : AtMost ((30 : ℕ) : ℤ) t.nsec.toFloat :=
    (toFloat_bounds t.nsec 30 (by norm_num)).1 (t.nsec_lt.le.trans (by norm_num))
  have hmul : AtMost ((30 : ℕ) + 0 : ℤ) (t.nsec.toFloat * 1e-9) := hnsec.mul (b := 0)
    (by decide) (by norm_num) (by norm_num) (by norm_num) (by norm_num) (by norm_num)
    (by norm_num)
  exact hsec.add (hmul.mono (by norm_num)) (by norm_num) (by norm_num)

/-- The time that has passed, where less than a microsecond counts as one. -/
def safeElapsed (start now : Float) : Float :=
  if now - start < 1e-6 then 1e-6 else now - start

theorem safeElapsed_bounds (start now : Timespec) :
    AtLeast (-20) (safeElapsed (nowSec start) (nowSec now)) ∧
      AtMost 64 (safeElapsed (nowSec start) (nowSec now)) := by
  have hlo : AtLeast (-20) 1e-6 := by decide
  have hhi : AtMost 64 1e-6 := by decide
  unfold safeElapsed
  split
  · exact ⟨hlo, hhi⟩
  · rename_i hge
    rcases (atMost_nowSec now).sub (atMost_nowSec start) (by norm_num) (by norm_num) (by norm_num)
      (by norm_num) with h | h
    · rw [lt_iff h hhi (by norm_num) (by norm_num) (by norm_num) (by norm_num)] at hge
      refine ⟨?_, h⟩
      unfold AtLeast at hlo ⊢
      omega
    · exact absurd (lt_of_negative h hlo (by norm_num) hhi (by norm_num)) hge

end Clock

theorem Conversion.toUInt64_of_lt_one (conv : Conversion) (h : x.toBits.toNat < 1023 * 2 ^ 52) :
    conv.toUInt64 x = 0 := by
  have hx : AtMost 0 x := by
    unfold AtMost
    omega
  have hlo : -1.0 < x := by
    have hu : (-1.0 : Float).toModel.unpack.lt x.toModel.unpack = true := by
      have hone : (-1.0 : Float).toModel.unpack =
          .finite .negative (2 ^ 52) (-52) (by decide) := rfl
      rw [hone]
      rcases hx.unpack (by norm_num) (by norm_num) with ⟨-, hu⟩ | ⟨m, e, hm, hu, -⟩
      all_goals rw [hu]; rfl
    exact lt_iff_unpack.mpr hu
  have hhi : x < 18446744073709551616.0 := by
    have hb : (18446744073709551616.0 : Float).toBits.toNat = 1087 * 2 ^ 52 := by decide
    have hc : AtMost 64 18446744073709551616.0 := by decide
    rw [lt_iff hx hc (by norm_num) (by norm_num) (by norm_num) (by norm_num), hb]
    omega
  rw [conv.truncates x hlo hhi, Binary64.toUInt64_of_lt_one h]

namespace Progress

variable (conv : Conversion) (p : Progress) (final : Bool) (now : Float)

theorem length_padTo (width : ℕ) (text : Bytes) :
    (padTo width text).length = max width text.length := by
  rw [padTo, List.length_append, List.length_replicate]
  omega

section Bounds

variable {p} {start t : Timespec}

theorem speed_eq : p.speed now = p.done.toFloat / safeElapsed p.startTime now := rfl

theorem speed_bounds (hstart : p.startTime = nowSec start) :
    AtMost 84 (p.speed (nowSec t)) ∧
      (2 ^ 63 ≤ p.done.toNat → AtLeast (-1) (p.speed (nowSec t))) := by
  obtain ⟨hlo, hhi⟩ := safeElapsed_bounds start t
  have hdone : AtMost ((64 : ℕ) : ℤ) p.done.toFloat :=
    (toFloat_bounds p.done 64 (by norm_num)).1 p.done.toNat_lt.le
  rw [speed_eq, hstart]
  obtain ⟨hup, hdown⟩ := div_bounds hdone hlo hhi (by norm_num) (by norm_num) (by norm_num)
    (by norm_num) (by norm_num) (by norm_num)
  refine ⟨hup, fun h => ?_⟩
  have h63 : AtLeast ((63 : ℕ) : ℤ) p.done.toFloat := (toFloat_bounds p.done 63 (by norm_num)).2 h
  exact hdown (63 : ℕ) (by norm_num) (by norm_num) h63

theorem length_rest_le (hstart : p.startTime = nowSec start) (hleft : p.done < p.total) :
    (formatBytes p.done).length + (formatBytes (conv.toUInt64 (p.speed (nowSec t)))).length +
      (formatDuration (p.eta (nowSec t))).length ≤ 45 := by
  obtain ⟨hup, hdown⟩ := speed_bounds (t := t) hstart
  have heta : p.eta (nowSec t) = (p.total - p.done).toFloat / p.speed (nowSec t) := if_pos hleft
  rw [heta]
  generalize p.speed (nowSec t) = speed at hup hdown
  generalize (p.total - p.done) = left
  have hbytes : ∀ n, (formatBytes n).length ≤ 12 := fun n =>
    length_formatBytes_le 64 (by norm_num) le_rfl n.toNat_lt.le
  have hleft : AtMost ((64 : ℕ) : ℤ) left.toFloat :=
    (toFloat_bounds left 64 (by norm_num)).1 left.toNat_lt.le
  have h31 := length_formatDuration_le_31 (left.toFloat / speed)
  have hdone := hbytes p.done
  rcases Nat.lt_or_ge speed.toBits.toNat (1023 * 2 ^ 52) with hslow | hfast
  · have hzero : (formatBytes (conv.toUInt64 speed)).length = 3 := by
      rw [conv.toUInt64_of_lt_one hslow]
      exact length_nothing.1
    rcases Nat.lt_or_ge p.done.toNat (2 ^ 63) with hsmall | hlarge
    · have h11 : (formatBytes p.done).length ≤ 11 :=
        length_formatBytes_le 63 (by norm_num) (by norm_num) hsmall.le
      omega
    · have hdiv : AtMost ((65 : ℕ) : ℤ) (left.toFloat / speed) :=
        (div_bounds hleft (hdown hlarge) hup (by norm_num) (by norm_num) (by norm_num) (by norm_num)
          (by norm_num) (by norm_num)).1
      have h22 := length_formatDuration_le 65 (by norm_num) (by norm_num) hdiv (d := 19)
        (by norm_num) (by norm_num)
      omega
  · have hone : AtLeast 0 speed := by
      unfold AtLeast
      omega
    have hdiv : AtMost ((64 : ℕ) : ℤ) (left.toFloat / speed) :=
      (div_bounds hleft hone hup (by norm_num) (by norm_num) (by norm_num) (by norm_num)
        (by norm_num) (by norm_num)).1
    have h21 := length_formatDuration_le 64 (by norm_num) (by norm_num) hdiv (d := 18)
      (by norm_num) (by norm_num)
    have hspeed := hbytes (conv.toUInt64 speed)
    omega

theorem length_pct_le (j k : ℕ) (hdone : p.done.toNat ≤ 2 ^ j) (htotal : 2 ^ k ≤ p.total.toNat)
    (hk : k ≤ j + 7) (hj : j ≤ 64) (hd : 2 ^ (j + 7 - k) * 10 < 10 ^ d) (h3 : 2 < d) :
    (fixed 1 p.pct).length ≤ d + 1 := by
  have hpos : p.total > 0 := by
    have := Nat.two_pow_pos k
    rw [gt_iff_lt, UInt64.lt_iff_toNat_lt, UInt64.toNat_zero]
    omega
  have h100 : AtMost ((7 : ℕ) : ℤ) 100.0 := by decide
  have hd' : AtMost (j : ℤ) p.done.toFloat := (toFloat_bounds p.done j (by omega)).1 hdone
  have hmul : AtMost (((7 : ℕ) : ℤ) + j) (100.0 * p.done.toFloat) := h100.mul hd' (by norm_num)
    (by omega) (by omega) (by omega) (by norm_num) (by omega)
  have hlo : AtLeast (k : ℤ) p.total.toFloat := (toFloat_bounds p.total k (by omega)).2 htotal
  have hhi : AtMost ((64 : ℕ) : ℤ) p.total.toFloat :=
    (toFloat_bounds p.total 64 (by norm_num)).1 p.total.toNat_lt.le
  have hdiv := (div_bounds hmul hlo hhi (by omega) (by omega) (by omega) (by norm_num) (by omega)
    (by omega)).1
  have hpct : AtMost ((j + 7 - k : ℕ) : ℤ) p.pct := by
    unfold pct
    rw [if_pos hpos]
    exact hdiv.mono (by omega)
  have := length_fixed_le (d := d) 1 (j + 7 - k) hpct (by omega) (by simpa using hd)
    (by omega) h3
  simpa using this

theorem length_pct_of_lt (h : p.done < p.total) : (fixed 1 p.pct).length ≤ 5 := by
  rw [UInt64.lt_iff_toNat_lt] at h
  have h0 : p.total.toNat ≠ 0 := by omega
  have hself := Nat.log2_self_le h0
  have hlt : p.total.toNat < 2 ^ (p.total.toNat.log2 + 1) := Nat.lt_log2_self
  have hlog : p.total.toNat.log2 < 64 := (Nat.log2_lt h0).mpr p.total.toNat_lt
  refine length_pct_le (p.total.toNat.log2 + 1) p.total.toNat.log2 (by omega) hself (by omega)
    (by omega) (d := 4) ?_ (by norm_num)
  rw [show p.total.toNat.log2 + 1 + 7 - p.total.toNat.log2 = 8 by omega]
  norm_num

/-- Once the total is reached, the larger the total is, the smaller is the percentage. -/
theorem length_pct_add_total_le :
    max 5 (fixed 1 p.pct).length + (formatBytes p.total).length ≤ 34 := by
  have hdone := p.done.toNat_lt.le
  have htotal := p.total.toNat_lt
  obtain ⟨hno, -, h100, hfew⟩ := length_nothing
  rcases Nat.lt_or_ge p.total.toNat 16 with hsmall | h16
  · rcases Nat.eq_zero_or_pos p.total.toNat with h0 | hpos
    · have h0' : p.total = 0 := UInt64.toNat_inj.mp h0
      have hpct : p.pct = 100.0 := by rw [pct, h0', if_neg (by decide)]
      rw [hpct, h0']
      omega
    · have hlen : (formatBytes p.total).length ≤ 4 := by
        rw [← UInt64.ofNat_toNat (x := p.total)]
        exact hfew _ hsmall
      have hpct := length_pct_le (p := p) 64 0 hdone hpos (by norm_num) le_rfl
        (d := 23) (by norm_num) (by norm_num)
      omega
  · rcases Nat.lt_or_ge p.total.toNat (2 ^ 63) with hlt | hge
    · have hlen : (formatBytes p.total).length ≤ 11 :=
        length_formatBytes_le 63 (by norm_num) (by norm_num) hlt.le
      have hpct := length_pct_le (p := p) 64 4 hdone (by simpa using h16) (by norm_num) le_rfl
        (d := 22) (by norm_num) (by norm_num)
      omega
    · have hlen : (formatBytes p.total).length ≤ 12 :=
        length_formatBytes_le 64 (by norm_num) le_rfl htotal.le
      have hpct := length_pct_le (p := p) 64 63 hdone hge (by norm_num) le_rfl
        (d := 4) (by norm_num) (by norm_num)
      omega

end Bounds

/-- The five fields. -/
def fieldsWidth : ℕ := ((p.fields conv now).map List.length).sum

theorem fieldsWidth_eq : p.fieldsWidth conv now = max 5 (fixed 1 p.pct).length +
    (formatBytes p.done).length + (formatBytes p.total).length +
      (formatBytes (conv.toUInt64 (p.speed now))).length + (formatDuration (p.eta now)).length := by
  simp only [fieldsWidth, fields, List.map_cons, List.map_nil, List.sum_cons, List.sum_nil,
    length_padTo]
  omega

theorem le_fieldsWidth : 18 ≤ p.fieldsWidth conv now := by
  have h₁ := three_le_formatBytes p.done
  have h₂ := three_le_formatBytes p.total
  have h₃ := three_le_formatBytes (conv.toUInt64 (p.speed now))
  have h₄ := four_le_formatDuration (p.eta now)
  rw [fieldsWidth_eq]
  omega

/-- With readings of the clock, the fields take at most 62 characters. -/
theorem fieldsWidth_le {start t : Timespec} (hstart : p.startTime = nowSec start) :
    p.fieldsWidth conv (nowSec t) ≤ 62 := by
  have hbytes : ∀ n, (formatBytes n).length ≤ 12 := fun n =>
    length_formatBytes_le 64 (by norm_num) le_rfl n.toNat_lt.le
  rw [fieldsWidth_eq]
  by_cases hleft : p.done < p.total
  · have hpct := length_pct_of_lt hleft
    have hrest := length_rest_le (t := t) conv hstart hleft
    have htotal := hbytes p.total
    omega
  · have heta : (formatDuration (p.eta (nowSec t))).length = 4 := by
      unfold eta
      rw [if_neg hleft]
      exact length_nothing.2.1
    have hpct := length_pct_add_total_le (p := p)
    have hdone := hbytes p.done
    have hspeed := hbytes (conv.toUInt64 (p.speed (nowSec t)))
    omega

/-- The label up to its first NUL, the fields and the 22 characters around them. -/
def width : ℕ := (cstr p.label).length + p.fieldsWidth conv now + 22

theorem length_line : (p.line conv now).length = p.width conv now := by
  have h₁ : (ascii "  ").length = 2 := rfl
  have h₂ : (ascii "%  [").length = 4 := rfl
  have h₃ : (ascii "/").length = 1 := rfl
  have h₄ : (ascii ", ").length = 2 := rfl
  have h₅ : (ascii "/s, eta ").length = 8 := rfl
  have h₆ : (ascii "]").length = 1 := rfl
  simp only [line, width, fieldsWidth_eq, length_padTo, List.length_append, h₁, h₂, h₃, h₄, h₅, h₆,
    List.length_cons, List.length_nil]
  omega

/-- A line is written within what has been stored if it fits the buffer, and if it is too long
even for the result of `snprintf`. -/
theorem render_within :
    (∀ w, p.render conv final now = some w → w.count ≤ w.stored.length) ↔
      p.width conv now ≤ 511 ∨ 2 ^ 31 ≤ p.width conv now := by
  rw [← length_line]
  generalize hl : p.line conv now = text
  simp only [render, snprintf, hl]
  rcases Nat.lt_or_ge text.length (2 ^ 31) with h | h
  · rw [if_pos h, if_neg (by omega)]
    simp only [Option.some.injEq, forall_eq', Int.toNat_natCast, List.length_take]
    omega
  · rw [if_neg (Nat.not_lt.mpr h), if_pos (by omega)]
    exact iff_of_true (by simp) (Or.inr h)

/-- The clock at its start. -/
def zeroTime : Timespec := ⟨0, 0, by decide, by decide⟩

/-- The last second that the clock can show. -/
def lastTime : Timespec := ⟨0x7fffffffffffffff, 0, by decide, by decide⟩

/-- A bar with nothing to do. -/
def idle : Progress :=
  { label := ascii "recv", total := 0, startTime := nowSec zeroTime, lastRender := 0.0,
    enabled := true }

/-- A bar that has got slowly to its first gibibyte, of as many as there can be. -/
def endless : Progress :=
  { label := ascii "recv", total := 0xffffffffffffffff, done := 0x3fffec78,
    startTime := nowSec zeroTime, lastRender := 0.0, enabled := true }

theorem fieldsWidth_idle : idle.fieldsWidth conv (nowSec zeroTime) = 18 := by
  have hslow : (idle.speed (nowSec zeroTime)).toBits.toNat < 1023 * 2 ^ 52 := by
    decide
  obtain ⟨hno, hnever, h100, -⟩ := length_nothing
  have hpct : idle.pct = 100.0 := rfl
  have hdone : idle.done = 0 := rfl
  have htotal : idle.total = 0 := rfl
  have heta : idle.eta (nowSec zeroTime) = 0.0 := rfl
  rw [fieldsWidth_eq, conv.toUInt64_of_lt_one hslow, hpct, hdone, htotal, heta, h100, hno, hnever]
  rfl

theorem fieldsWidth_endless : endless.fieldsWidth conv (nowSec lastTime) = 62 := by
  have hslow : (endless.speed (nowSec lastTime)).toBits.toNat < 1023 * 2 ^ 52 := by
    decide
  rw [fieldsWidth_eq, conv.toUInt64_of_lt_one hslow]
  decide +kernel

theorem width_setLabel (label : Bytes) : (p.setLabel label).width conv now =
    (cstr label).length + p.fieldsWidth conv now + 22 := rfl

/-- What `Render` writes stays within what has been stored, whatever the counters and the clock
are, if and only if the label leaves room for the widest fields, or is so long that `snprintf`
fails with the narrowest ones. -/
theorem render_within_iff (conv : Conversion) (label : Bytes) :
    (∀ (p : Progress) (start t : Timespec) (final : Bool) (w : Fwrite), p.label = label →
        p.startTime = nowSec start → p.render conv final (nowSec t) = some w →
        w.count ≤ w.stored.length) ↔
      (cstr label).length ≤ 427 ∨ 2 ^ 31 - 40 ≤ (cstr label).length := by
  constructor
  · intro h
    have hidle := (render_within conv (idle.setLabel label) false (nowSec zeroTime)).mp
      fun w => h _ zeroTime _ _ w rfl rfl
    have hendless := (render_within conv (endless.setLabel label) false (nowSec lastTime)).mp
      fun w => h _ zeroTime _ _ w rfl rfl
    rw [width_setLabel, fieldsWidth_idle] at hidle
    rw [width_setLabel, fieldsWidth_endless] at hendless
    omega
  · rintro h p start t final w rfl hstart
    refine (render_within conv p final (nowSec t)).mpr ?_ w
    have hle := fieldsWidth_le (t := t) conv p hstart
    have hge := le_fieldsWidth conv p (nowSec t)
    rw [width]
    omega

/-- A conversion that stops at the largest number. -/
def saturating : Conversion := ⟨Float.toUInt64, fun _ _ _ => rfl⟩

/-- The receiver's bar, showing the path of a record, which it has not checked yet. -/
def hostile : Progress := idle.setLabel (List.replicate 600 0x61)

theorem hostile_overruns : ¬ ∀ (conv : Conversion) (p : Progress) (start t : Timespec)
    (final : Bool) (w : Fwrite), p.startTime = nowSec start →
      p.render conv final (nowSec t) = some w → w.count ≤ w.stored.length := by
  intro h
  have hwithin := (render_within saturating hostile false (nowSec zeroTime)).mp
    fun w => h saturating hostile zeroTime zeroTime false w rfl
  have hno : (0 : UInt8) ∉ List.replicate 600 0x61 := fun hm =>
    absurd (List.eq_of_mem_replicate hm) (by decide)
  have hlong : (cstr (List.replicate 600 0x61)).length = 600 := by
    rw [cstr_eq_self hno, List.length_replicate]
  rw [hostile, width_setLabel, fieldsWidth_idle] at hwithin
  omega

end Progress

end Xfer.Common
