import Mathlib.Algebra.Group.Nat.Defs
import TolerantScript.Binary.Format

/-!
Rounding to a format. A quotient that the format holds is its own rounding, and no quotient of a
whole step or more becomes zero.
-/

namespace TolerantScript.Binary

/-! Ranks of numbers that are far from infinity. -/

theorem le_roundDiv (num den : Nat) : num / den ≤ roundDiv num den := by
  simp only [roundDiv]
  split
  · omega
  · split <;> omega

theorem roundDiv_le (num den : Nat) : roundDiv num den ≤ num / den + 1 := by
  have hparity : num / den % 2 < 2 := Nat.mod_lt _ (by decide)
  simp only [roundDiv]
  split
  · omega
  · split <;> omega

namespace Format

variable {f : Format}

theorem one_eq (f : Format) : f.one = 2 ^ f.scale := rfl

theorem two_pow_precision (h : 0 < f.precision) : 2 ^ f.precision = 2 * f.lead := by
  obtain ⟨p, hp⟩ : ∃ p, f.precision = p + 1 := ⟨f.precision - 1, by omega⟩
  simp only [lead, hp, Nat.add_sub_cancel, Nat.pow_eq]
  rw [Nat.pow_succ, Nat.mul_comm]

theorem rank_le {num den k : Nat} (hprecision : 0 < f.precision) (hk : f.precision ≤ k)
    (h : num * f.one / den < 2 ^ k) : f.rank num den ≤ (k - f.precision + 2) * f.lead := by
  generalize hn : num * f.one = n at h
  generalize hshift : (n / den).log2 - (f.precision - 1) = shift
  have hlog : (n / den).log2 < k := by
    by_cases hzero : n / den = 0
    · rw [hzero, Nat.log2_zero]
      omega
    · exact (Nat.log2_lt hzero).mpr h
  have hquotient : n / (den * 2 ^ shift) < 2 ^ f.precision := by
    rw [← Nat.div_div_eq_div_mul, Nat.div_lt_iff_lt_mul (Nat.two_pow_pos shift), ← Nat.pow_add]
    have hself : n / den < 2 ^ ((n / den).log2 + 1) := Nat.lt_log2_self
    have hpow : 2 ^ ((n / den).log2 + 1) ≤ 2 ^ (f.precision + shift) :=
      Nat.pow_le_pow_right (by decide) (by omega)
    omega
  have hround := roundDiv_le n (den * 2 ^ shift)
  have hlead := two_pow_precision hprecision
  have hsteps : shift * f.lead ≤ (k - f.precision) * f.lead :=
    Nat.mul_le_mul_right f.lead (by omega)
  have hrank : f.rank num den ≤ shift * f.lead + roundDiv n (den * 2 ^ shift) := by
    simp only [rank, hn, hshift]
    exact Nat.min_le_right _ _
  rw [Nat.add_mul]
  omega

theorem units_lt {rank k : Nat} (hprecision : 0 < f.precision) (h : rank ≤ k * f.lead) :
    f.units rank < 2 ^ (f.precision + k) := by
  have hlead := two_pow_precision hprecision
  have hpos : 0 < f.lead := Nat.two_pow_pos _
  have hquotient : rank / f.lead ≤ k := Nat.div_le_of_le_mul (by rwa [Nat.mul_comm])
  have hpow : 2 ^ (rank / f.lead - 1) ≤ 2 ^ k := Nat.pow_le_pow_right (by decide) (by omega)
  have hone : 1 ≤ 2 ^ k := Nat.one_le_two_pow
  rw [Nat.pow_add, hlead]
  unfold units
  split
  case isTrue hsmall =>
    have hbound : f.lead * 1 ≤ f.lead * 2 ^ k := Nat.mul_le_mul_left f.lead hone
    rw [Nat.mul_assoc]
    omega
  case isFalse =>
    have hremainder : rank % f.lead < f.lead := Nat.mod_lt _ hpos
    exact Nat.mul_lt_mul_of_lt_of_le (by omega) hpow (by omega)

theorem whole_lt (f : Format) {n k : Nat} (h : n < 2 ^ k) :
    n * f.one / 1 < 2 ^ (k + f.scale) := by
  rw [Nat.div_one, one_eq, Nat.pow_add]
  exact Nat.mul_lt_mul_of_pos_right h (Nat.two_pow_pos _)

theorem product_lt (f : Format) {a b i j k : Nat} (hk : i + j = f.scale + k) (ha : a < 2 ^ i)
    (hb : b < 2 ^ j) : a * b * f.one / (f.one * f.one) < 2 ^ k := by
  have hpos : 0 < f.one := Nat.two_pow_pos _
  have hbound : a * b < 2 ^ i * 2 ^ j := Nat.mul_lt_mul'' ha hb
  rw [← Nat.pow_add, hk, Nat.pow_add, ← one_eq] at hbound
  rw [Nat.mul_div_mul_right _ _ hpos]
  exact Nat.div_lt_of_lt_mul hbound

/-! Numbers that the format holds. -/

theorem lead_pos (f : Format) : 0 < f.lead := Nat.two_pow_pos _

/-- So many units, in steps of `2 ^ shift` of them. The significand is full unless the steps are
single units. -/
structure Significand (f : Format) (shift steps : Nat) : Prop where
  lt : steps < 2 * f.lead
  full : shift = 0 ∨ f.lead ≤ steps

theorem units_of_significand {shift steps : Nat} (h : f.Significand shift steps) :
    f.units (shift * f.lead + steps) = steps * 2 ^ shift := by
  have hlead := f.lead_pos
  have hlt := h.lt
  by_cases hfull : f.lead ≤ steps
  · have hrank : shift * f.lead + steps = steps - f.lead + (shift + 1) * f.lead := by
      rw [Nat.add_mul]
      omega
    have hremainder : (shift * f.lead + steps) % f.lead = steps - f.lead := by
      rw [hrank, Nat.add_mul_mod_self_right, Nat.mod_eq_of_lt (by omega)]
    have hquotient : (shift * f.lead + steps) / f.lead = shift + 1 := by
      rw [hrank, Nat.add_mul_div_right _ _ hlead, Nat.div_eq_of_lt (by omega), Nat.zero_add]
    rw [units, if_neg (by omega), hremainder, hquotient, Nat.sub_add_cancel hfull]
    rfl
  · obtain rfl : shift = 0 := h.full.resolve_right hfull
    rw [units, if_pos (by omega)]
    simp

/-- Every finite number has few enough digits in base two, with zeros after them. -/
theorem exists_steps (hprecision : 0 < f.precision) (rank : Nat) :
    ∃ steps j, f.units rank = steps * 2 ^ j ∧ steps < 2 ^ f.precision := by
  have hlead := two_pow_precision hprecision
  have hpos := f.lead_pos
  unfold units
  split
  case isTrue hsmall => exact ⟨rank, 0, by simp, by omega⟩
  case isFalse =>
    have hremainder : rank % f.lead < f.lead := Nat.mod_lt _ hpos
    exact ⟨rank % f.lead + f.lead, rank / f.lead - 1, rfl, by omega⟩

theorem significand_div (hprecision : 0 < f.precision) (n : Nat) :
    f.Significand (n.log2 - (f.precision - 1)) (n / 2 ^ (n.log2 - (f.precision - 1))) := by
  generalize hshift : n.log2 - (f.precision - 1) = shift
  constructor
  · rw [← two_pow_precision hprecision, Nat.div_lt_iff_lt_mul (Nat.two_pow_pos shift),
      ← Nat.pow_add]
    have hself : n < 2 ^ (n.log2 + 1) := Nat.lt_log2_self
    have hpow : 2 ^ (n.log2 + 1) ≤ 2 ^ (f.precision + shift) :=
      Nat.pow_le_pow_right (by decide) (by omega)
    omega
  · by_cases hlow : shift = 0
    · exact .inl hlow
    · right
      have hn : n ≠ 0 := by
        rintro rfl
        rw [Nat.log2_zero] at hshift
        omega
      have hlog : n.log2 = f.precision - 1 + shift := by omega
      have hself : 2 ^ n.log2 ≤ n := Nat.log2_self_le hn
      rw [hlog, Nat.pow_add] at hself
      exact (Nat.le_div_iff_mul_le (Nat.two_pow_pos shift)).mpr hself

theorem two_pow_dvd {steps j : Nat} (hprecision : 0 < f.precision)
    (hsteps : steps < 2 ^ f.precision) :
    2 ^ ((steps * 2 ^ j).log2 - (f.precision - 1)) ∣ steps * 2 ^ j := by
  by_cases hzero : steps = 0
  · rw [hzero, Nat.zero_mul]
    exact Nat.dvd_zero _
  · have hpos : 0 < 2 ^ j := Nat.two_pow_pos j
    have hlog : (steps * 2 ^ j).log2 < f.precision + j := by
      rw [Nat.log2_lt (Nat.mul_ne_zero hzero (Nat.ne_of_gt hpos)), Nat.pow_add]
      exact Nat.mul_lt_mul_of_pos_right hsteps hpos
    exact Nat.dvd_mul_left_of_dvd (Nat.pow_dvd_pow 2 (by omega)) steps

/-- A finite number that the format holds is its own rounding. -/
theorem units_rank {num den steps j : Nat} (hprecision : 0 < f.precision) (hden : 0 < den)
    (hsteps : steps < 2 ^ f.precision) (h : num * f.one = steps * 2 ^ j * den)
    (hfinite : f.rank num den < f.infinity) : f.units (f.rank num den) = steps * 2 ^ j := by
  generalize hn : steps * 2 ^ j = n at h
  have hwhole : num * f.one / den = n := by
    rw [h, Nat.mul_div_cancel n hden]
  generalize hshift : n.log2 - (f.precision - 1) = shift
  obtain ⟨full, hfull⟩ : 2 ^ shift ∣ n := by
    rw [← hshift, ← hn]
    exact two_pow_dvd hprecision hsteps
  have hround : roundDiv (n * den) (den * 2 ^ shift) = full := by
    rw [hfull, Nat.mul_comm (2 ^ shift), Nat.mul_assoc, Nat.mul_comm (2 ^ shift)]
    exact roundDiv_mul full _ (Nat.mul_pos hden (Nat.two_pow_pos shift))
  have hrank : f.rank num den = shift * f.lead + full := by
    have hmin : f.rank num den = min f.infinity (shift * f.lead + full) := by
      simp only [rank, hwhole, hshift, Nat.pow_eq]
      rw [h, hround]
    omega
  have hsignificand := significand_div hprecision n
  rw [hshift, hfull, Nat.mul_div_cancel_left full (Nat.two_pow_pos shift)] at hsignificand
  rw [hrank, units_of_significand hsignificand, hfull, Nat.mul_comm]

theorem units_eq_zero_iff (rank : Nat) : f.units rank = 0 ↔ rank = 0 := by
  have hlead := f.lead_pos
  unfold units
  split
  case isTrue hsmall => rfl
  case isFalse hfull =>
    have hpos : 0 < (rank % f.lead + f.lead) * 2 ^ (rank / f.lead - 1) :=
      Nat.mul_pos (by omega) (Nat.two_pow_pos _)
    exact iff_of_false (Nat.ne_of_gt hpos) (by omega)

theorem rank_pos {num den : Nat} (hinfinity : 0 < f.infinity) (hden : 0 < den)
    (h : den ≤ num * f.one) : 0 < f.rank num den := by
  generalize hn : num * f.one = n at h
  generalize hshift : (n / den).log2 - (f.precision - 1) = shift
  have hwhole : 0 < n / den := Nat.div_pos h hden
  have hstep : 2 ^ shift ≤ n / den := by
    have hself : 2 ^ (n / den).log2 ≤ n / den := Nat.log2_self_le (Nat.ne_of_gt hwhole)
    have hpow : 2 ^ shift ≤ 2 ^ (n / den).log2 := Nat.pow_le_pow_right (by decide) (by omega)
    omega
  have hquotient : 0 < n / (den * 2 ^ shift) := by
    rw [← Nat.div_div_eq_div_mul]
    exact Nat.div_pos hstep (Nat.two_pow_pos shift)
  have hround := le_roundDiv n (den * 2 ^ shift)
  simp only [rank, hn, hshift, Nat.pow_eq]
  omega

end Format

end TolerantScript.Binary
