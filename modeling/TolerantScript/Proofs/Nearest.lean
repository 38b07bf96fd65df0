import Mathlib.Data.Nat.Dist
import Mathlib.Order.Monotone.Basic
import TolerantScript.Proofs.Rounding

/-!
Rounding goes to the nearest number. Every quotient lies between two neighbouring numbers of the
format and takes the nearer of the two, halfway the one of even rank; nothing else in the format is
as near. So rounding keeps the order of the quotients and gives each number back to itself.
-/

namespace TolerantScript.Binary.Format

variable {f : Format}

/-! The numbers of a format, in order. -/

theorem exists_significand (f : Format) (rank : Nat) :
    ∃ shift steps, f.Significand shift steps ∧ rank = shift * f.lead + steps := by
  have hlead := f.lead_pos
  by_cases hsmall : rank < f.lead
  · exact ⟨0, rank, ⟨by omega, .inl rfl⟩, by omega⟩
  · have hquotient : 0 < rank / f.lead := Nat.div_pos (by omega) hlead
    have hremainder : rank % f.lead < f.lead := Nat.mod_lt _ hlead
    refine ⟨rank / f.lead - 1, rank % f.lead + f.lead, ⟨by omega, .inr (by omega)⟩, ?_⟩
    have hrank := Nat.div_add_mod' rank f.lead
    rw [Nat.sub_mul]
    have hle : 1 * f.lead ≤ rank / f.lead * f.lead := Nat.mul_le_mul_right f.lead hquotient
    omega

/-- One step up, where a significand that runs over goes on in steps of double size. -/
theorem units_succ_of_significand {shift steps : Nat} (h : f.Significand shift steps) :
    f.units (shift * f.lead + steps + 1) = (steps + 1) * 2 ^ shift := by
  have hlt := h.lt
  by_cases hover : steps + 1 = 2 * f.lead
  · have hnext : f.Significand (shift + 1) f.lead :=
      ⟨by have := f.lead_pos; omega, .inr (Nat.le_refl _)⟩
    have hrank : shift * f.lead + steps + 1 = (shift + 1) * f.lead + f.lead := by
      rw [Nat.add_mul]
      omega
    rw [hrank, units_of_significand hnext, hover, Nat.pow_succ, Nat.mul_comm 2, Nat.mul_assoc,
      Nat.mul_comm 2]
  · have hnext : f.Significand shift (steps + 1) :=
      ⟨by omega, h.full.imp_right fun hfull => by omega⟩
    exact units_of_significand hnext

theorem units_strictMono (f : Format) : StrictMono f.units := by
  refine strictMono_nat_of_lt_succ fun rank => ?_
  obtain ⟨shift, steps, h, rfl⟩ := f.exists_significand rank
  rw [units_of_significand h, units_succ_of_significand h]
  exact Nat.mul_lt_mul_of_pos_right (Nat.lt_succ_self steps) (Nat.two_pow_pos shift)

theorem units_mul_lt {low high den : Nat} (hden : 0 < den) (h : low < high) :
    f.units low * den < f.units high * den :=
  Nat.mul_lt_mul_of_pos_right (f.units_strictMono h) hden

theorem units_mul_le {low high : Nat} (h : low ≤ high) (den : Nat) :
    f.units low * den ≤ f.units high * den :=
  Nat.mul_le_mul_right den (f.units_strictMono.monotone h)

/-! Between two neighbours. -/

structure Between (f : Format) (num den low : Nat) : Prop where
  le : f.units low * den ≤ num * f.one
  lt : num * f.one < f.units (low + 1) * den

/-- The quotient is nearer to the number of the rank than to the next one, or it is halfway and the
rank is even. -/
def FallsBack (f : Format) (num den low : Nat) : Prop :=
  2 * (num * f.one) < (f.units low + f.units (low + 1)) * den ∨
    2 * (num * f.one) = (f.units low + f.units (low + 1)) * den ∧ low % 2 = 0

theorem even_lead (h : 1 < f.precision) : f.lead % 2 = 0 := by
  obtain ⟨p, hp⟩ : ∃ p, f.precision = p + 2 := ⟨f.precision - 2, by omega⟩
  have hlead : f.lead = 2 ^ p * 2 := by
    rw [← Nat.pow_succ, lead, hp]
    rfl
  rw [hlead]
  exact Nat.mul_mod_left _ _

/-- Rounding takes one of the two neighbours, unless they are beyond infinity. -/
theorem rank_between (hprecision : 1 < f.precision) (num : Nat) {den : Nat} (hden : 0 < den) :
    ∃ low, f.Between num den low ∧
      (f.FallsBack num den low ∧ f.rank num den = min f.infinity low ∨
        ¬f.FallsBack num den low ∧ f.rank num den = min f.infinity (low + 1)) := by
  generalize hn : num * f.one = n
  generalize hshift : (n / den).log2 - (f.precision - 1) = shift
  generalize hsteps : n / (den * 2 ^ shift) = steps
  generalize hrest : n % (den * 2 ^ shift) = rest
  have hsignificand : f.Significand shift steps := by
    have h := significand_div (f := f) (by omega) (n / den)
    rwa [hshift, Nat.div_div_eq_div_mul, hsteps] at h
  have hstep : 0 < den * 2 ^ shift := Nat.mul_pos hden (Nat.two_pow_pos shift)
  have hsplit : steps * (den * 2 ^ shift) + rest = n := by
    rw [← hsteps, ← hrest]
    exact Nat.div_add_mod' n _
  have hless : rest < den * 2 ^ shift := hrest ▸ Nat.mod_lt _ hstep
  have hlow : f.units (shift * f.lead + steps) * den = steps * (den * 2 ^ shift) := by
    rw [units_of_significand hsignificand, Nat.mul_assoc, Nat.mul_comm (2 ^ shift)]
  have hhigh : f.units (shift * f.lead + steps + 1) * den =
      steps * (den * 2 ^ shift) + den * 2 ^ shift := by
    rw [units_succ_of_significand hsignificand, Nat.mul_assoc, Nat.mul_comm (2 ^ shift),
      Nat.succ_mul]
  have hparity : (shift * f.lead + steps) % 2 = steps % 2 := by
    rw [Nat.add_mod, Nat.mul_mod, even_lead hprecision]
    omega
  have hback : f.FallsBack num den (shift * f.lead + steps) ↔
      2 * rest < den * 2 ^ shift ∨ 2 * rest = den * 2 ^ shift ∧ steps % 2 = 0 := by
    rw [FallsBack, Nat.add_mul, hlow, hhigh, hparity, hn]
    omega
  have hrank : f.rank num den =
      min f.infinity (shift * f.lead + roundDiv n (den * 2 ^ shift)) := by
    simp only [rank, hn, hshift, Nat.pow_eq]
  refine ⟨shift * f.lead + steps, ⟨by omega, by omega⟩, ?_⟩
  rw [hback, hrank, roundDiv]
  simp only [hsteps, hrest]
  split
  · exact .inl ⟨by omega, rfl⟩
  · split
    · exact .inr ⟨by omega, rfl⟩
    · by_cases heven : steps % 2 = 0
      · exact .inl ⟨by omega, by rw [heven]; rfl⟩
      · exact .inr ⟨by omega, by rw [Nat.mod_two_ne_zero.mp heven]; rfl⟩

/-! The nearest number. -/

/-- How far the quotient is from the number of the rank, in units divided by `den`. Infinity counts
as the number that would come after the greatest finite one. -/
def distance (f : Format) (num den rank : Nat) : Nat :=
  Nat.dist (num * f.one) (f.units rank * den)

/-- No other number is as near to the quotient, unless it is exactly as near and the rank is
even. -/
def IsNearest (f : Format) (num den rank : Nat) : Prop :=
  rank ≤ f.infinity ∧ ∀ other ≤ f.infinity, other ≠ rank →
    f.distance num den rank < f.distance num den other ∨
      f.distance num den rank = f.distance num den other ∧ rank % 2 = 0

theorem IsNearest.not_lt {num den r r' : Nat} (hden : 0 < den) (h : f.IsNearest num den r)
    (h' : f.IsNearest num den r') : ¬r < r' := by
  intro hlt
  obtain ⟨hr, hnearest⟩ := h
  obtain ⟨hr', hnearest'⟩ := h'
  have htie := hnearest r' hr' (by omega)
  have htie' := hnearest' r hr (by omega)
  -- both are even, so that another number stands between them, which is nearer than either
  have hnext := hnearest (r + 1) (by omega) (by omega)
  have hmiddle : r + 1 < r' := by omega
  have hlow := units_mul_lt (f := f) hden (Nat.lt_add_one r)
  have hhigh := units_mul_lt (f := f) hden hmiddle
  simp only [distance, Nat.dist] at htie htie' hnext
  omega

theorem IsNearest.unique {num den r r' : Nat} (hden : 0 < den) (h : f.IsNearest num den r)
    (h' : f.IsNearest num den r') : r = r' := by
  have := h.not_lt hden h'
  have := h'.not_lt hden h
  omega

theorem isNearest_rank (hprecision : 1 < f.precision) (num : Nat) {den : Nat} (hden : 0 < den) :
    f.IsNearest num den (f.rank num den) := by
  obtain ⟨low, hbetween, hchoice⟩ := rank_between hprecision num hden
  have hle := hbetween.le
  have hlt := hbetween.lt
  refine ⟨f.rank_le_infinity num den, fun other hother hne => ?_⟩
  by_cases hbeyond : f.infinity ≤ low
  · -- all numbers are below the quotient, and infinity is the last of them
    have hrank : f.rank num den = f.infinity := by omega
    rw [hrank] at hne ⊢
    have hinfinity := units_mul_le (f := f) hbeyond den
    have hother' := units_mul_lt (f := f) hden (show other < f.infinity by omega)
    left
    simp only [distance, Nat.dist]
    omega
  · have hside : f.units other * den ≤ f.units low * den ∧ (other ≠ low →
          f.units other * den < f.units low * den) ∨
        f.units (low + 1) * den ≤ f.units other * den ∧ (other ≠ low + 1 →
          f.units (low + 1) * den < f.units other * den) := by
      by_cases hbelow : other ≤ low
      · exact .inl ⟨units_mul_le hbelow den, fun h => units_mul_lt hden (by omega)⟩
      · exact .inr ⟨units_mul_le (by omega) den, fun h => units_mul_lt hden (by omega)⟩
    obtain ⟨hback, hrank⟩ | ⟨hback, hrank⟩ := hchoice
    · obtain rfl : low = f.rank num den := by omega
      rw [FallsBack, Nat.add_mul] at hback
      simp only [distance, Nat.dist]
      omega
    · have hhigh : low + 1 = f.rank num den := by omega
      rw [← hhigh] at hne ⊢
      rw [FallsBack, Nat.add_mul] at hback
      simp only [distance, Nat.dist]
      omega

theorem isNearest_iff (hprecision : 1 < f.precision) {num den rank : Nat} (hden : 0 < den) :
    f.IsNearest num den rank ↔ f.rank num den = rank := by
  constructor
  · exact (isNearest_rank hprecision num hden).unique hden
  · rintro rfl
    exact isNearest_rank hprecision num hden

theorem isNearest_of_eq {num den rank : Nat} (hden : 0 < den) (hrank : rank ≤ f.infinity)
    (h : num * f.one = f.units rank * den) : f.IsNearest num den rank := by
  refine ⟨hrank, fun other _ hne => .inl ?_⟩
  simp only [distance, Nat.dist, h]
  rcases Nat.lt_or_gt_of_ne hne with hlt | hlt
  · have := units_mul_lt (f := f) hden hlt
    omega
  · have := units_mul_lt (f := f) hden hlt
    omega

theorem isNearest_zero {num den : Nat} (h : 2 * (num * f.one) < den) : f.IsNearest num den 0 := by
  have hzero : f.units 0 = 0 := (units_eq_zero_iff 0).mpr rfl
  refine ⟨Nat.zero_le _, fun other _ hne => .inl ?_⟩
  have hunits : 1 ≤ f.units other :=
    Nat.one_le_iff_ne_zero.mpr (mt (units_eq_zero_iff other).mp hne)
  have hother : 1 * den ≤ f.units other * den := Nat.mul_le_mul_right den hunits
  simp only [distance, Nat.dist, hzero]
  omega

/-! Rounding and order. -/

/-- A lesser quotient between the same two numbers falls back if the greater one does. -/
theorem FallsBack.of_le {num den num' den' low : Nat} (hden : 0 < den) (hden' : 0 < den')
    (h : num * f.one * den' ≤ num' * f.one * den) (hback : f.FallsBack num' den' low) :
    f.FallsBack num den low := by
  unfold FallsBack at hback ⊢
  generalize f.units low + f.units (low + 1) = sum at hback ⊢
  have hdouble : 2 * (num * f.one) * den' ≤ 2 * (num' * f.one) * den := by
    rw [Nat.mul_assoc 2, Nat.mul_assoc 2]
    exact Nat.mul_le_mul_left 2 h
  have hswap : sum * den * den' = sum * den' * den := Nat.mul_right_comm sum den den'
  obtain hless | ⟨hhalf, heven⟩ := hback
  · left
    refine Nat.lt_of_mul_lt_mul_right (a := den') ?_
    rw [hswap]
    exact Nat.lt_of_le_of_lt hdouble (Nat.mul_lt_mul_of_pos_right hless hden)
  · rw [hhalf, ← hswap] at hdouble
    have hle := Nat.le_of_mul_le_mul_right hdouble hden'
    exact (Nat.lt_or_eq_of_le hle).imp_right fun hequal => ⟨hequal, heven⟩

theorem rank_mono (hprecision : 1 < f.precision) {num den num' den' : Nat} (hden : 0 < den)
    (hden' : 0 < den') (h : num * den' ≤ num' * den) : f.rank num den ≤ f.rank num' den' := by
  obtain ⟨low, hbetween, hchoice⟩ := rank_between hprecision num hden
  obtain ⟨low', hbetween', hchoice'⟩ := rank_between hprecision num' hden'
  have hscaled : num * f.one * den' ≤ num' * f.one * den := by
    rw [Nat.mul_right_comm, Nat.mul_right_comm num']
    exact Nat.mul_le_mul_right f.one h
  have horder : low < low' + 1 := by
    rw [← f.units_strictMono.lt_iff_lt]
    refine Nat.lt_of_mul_lt_mul_right (a := den * den') ?_
    calc f.units low * (den * den') = f.units low * den * den' := (Nat.mul_assoc _ _ _).symm
      _ ≤ num * f.one * den' := Nat.mul_le_mul_right den' hbetween.le
      _ ≤ num' * f.one * den := hscaled
      _ < f.units (low' + 1) * den' * den := Nat.mul_lt_mul_of_pos_right hbetween'.lt hden
      _ = f.units (low' + 1) * (den * den') := by rw [Nat.mul_assoc, Nat.mul_comm den']
  by_cases hsame : low = low'
  · subst hsame
    obtain ⟨-, hrank⟩ | ⟨hnot, hrank⟩ := hchoice
    · omega
    · obtain ⟨hback, -⟩ | ⟨-, hrank'⟩ := hchoice'
      · exact absurd (hback.of_le hden hden' hscaled) hnot
      · omega
  · omega

theorem rank_congr (hprecision : 1 < f.precision) {num den num' den' : Nat} (hden : 0 < den)
    (hden' : 0 < den') (h : num * den' = num' * den) : f.rank num den = f.rank num' den' :=
  Nat.le_antisymm (rank_mono hprecision hden hden' (Nat.le_of_eq h))
    (rank_mono hprecision hden' hden (Nat.le_of_eq h.symm))

theorem one_pos (f : Format) : 0 < f.one := Nat.two_pow_pos _

theorem rank_units (hprecision : 1 < f.precision) {rank : Nat} (hrank : rank ≤ f.infinity) :
    f.rank (f.units rank) f.one = rank :=
  (isNearest_iff hprecision f.one_pos).mp (isNearest_of_eq f.one_pos hrank rfl)

theorem one_dvd_units_rank (hprecision : 1 < f.precision) {n : Nat} (h : f.rank n 1 < f.infinity) :
    f.one ∣ f.units (f.rank n 1) := by
  obtain ⟨low, hbetween, hchoice⟩ := rank_between hprecision n Nat.one_pos
  obtain ⟨shift, steps, hsignificand, rfl⟩ := f.exists_significand low
  have hlow := units_of_significand hsignificand
  have hhigh := units_succ_of_significand hsignificand
  by_cases hfine : shift ≤ f.scale
  · -- the steps divide one, so that the whole number is itself a number of the format
    have hone : f.one = 2 ^ (f.scale - shift) * 2 ^ shift := by
      rw [← Nat.pow_add, Nat.sub_add_cancel hfine, one_eq]
    have hexact : n * f.one = steps * 2 ^ shift := by
      have hle := hbetween.le
      have hlt := hbetween.lt
      rw [hlow, hone, Nat.mul_one, ← Nat.mul_assoc] at hle
      rw [hhigh, hone, Nat.mul_one, ← Nat.mul_assoc] at hlt
      have hle' := Nat.le_of_mul_le_mul_right hle (Nat.two_pow_pos shift)
      have hlt' := Nat.lt_of_mul_lt_mul_right hlt
      rw [hone, ← Nat.mul_assoc, show n * 2 ^ (f.scale - shift) = steps by omega]
    have hnearest : f.IsNearest n 1 (shift * f.lead + steps) :=
      isNearest_of_eq Nat.one_pos (by omega) (by rw [hexact, hlow, Nat.mul_one])
    rw [(isNearest_iff hprecision Nat.one_pos).mp hnearest, hlow, ← hexact]
    exact Nat.dvd_mul_left _ _
  · have hone : f.one ∣ 2 ^ shift := Nat.pow_dvd_pow 2 (by omega)
    obtain ⟨-, hrank⟩ | ⟨-, hrank⟩ := hchoice
    · rw [show f.rank n 1 = shift * f.lead + steps by omega, hlow]
      exact Nat.dvd_mul_left_of_dvd hone _
    · rw [show f.rank n 1 = shift * f.lead + steps + 1 by omega, hhigh]
      exact Nat.dvd_mul_left_of_dvd hone _

end TolerantScript.Binary.Format
