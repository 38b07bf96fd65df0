import Mathlib.Data.List.TakeWhile
import TolerantScript.Proofs.IntegerLiteral
import TolerantScript.Proofs.Nearest

/-!
Floats written as decimals and read again. Reading takes the number nearest to the decimal. Writing
gives a decimal that the number is nearest to, in full if the number is whole and else with the
fewest places. So the text of every float, the infinite ones included, is a literal of this float
and of no integer.
-/

namespace TolerantScript

open Binary

/-! Digits. -/

namespace Text

variable {radix : Nat}

theorem IsNumeral.append {cs cs' : List Char} {w w' : Nat} (h : IsNumeral radix cs w)
    (h' : IsNumeral radix cs' w') : IsNumeral radix (cs ++ cs') (w * radix ^ cs'.length + w') := by
  obtain ⟨ds, hne, hds, rfl⟩ := h
  obtain ⟨ds', -, hds', rfl⟩ := h'
  refine ⟨ds ++ ds', by simp [hne], List.rel_append hds hds', ?_⟩
  rw [List.reverse_append, Nat.ofDigits_append, List.length_reverse, hds'.length_eq, Nat.mul_comm,
    Nat.add_comm]

theorem IsNumeral.zeros (hradix : 0 < radix) {cs : List Char} {w : Nat} (h : IsNumeral radix cs w)
    (count : Nat) : IsNumeral radix (List.replicate count '0' ++ cs) w := by
  induction count with
  | zero => exact h
  | succ count ih =>
    obtain ⟨ds, hne, hds, hw⟩ := ih
    refine ⟨0 :: ds, List.cons_ne_nil _ _, .cons ⟨hradix, .inl rfl⟩ hds, ?_⟩
    rw [List.reverse_cons, Nat.ofDigits_append, hw]
    simp

theorem IsNumeral.isDigit {cs : List Char} {w : Nat} (h : IsNumeral 10 cs w) :
    ∀ c ∈ cs, c.isDigit = true := by
  have hdigits : ∀ d < 10, (Nat.digitChar d).isDigit = true ∧
      (Nat.digitChar d).toUpper.isDigit = true := by decide
  obtain ⟨ds, -, hds, -⟩ := h
  induction hds with
  | nil => simp
  | cons hd _ ih =>
    refine List.forall_mem_cons.mpr ⟨?_, ih⟩
    obtain ⟨hlt, rfl | rfl⟩ := hd
    · exact (hdigits _ hlt).1
    · exact (hdigits _ hlt).2

theorem IsNumeral.ne_nil {cs : List Char} {w : Nat} (h : IsNumeral radix cs w) : cs ≠ [] := by
  rintro rfl
  obtain ⟨_, hne, _ | _, -⟩ := h
  exact hne rfl

theorem isNumeral_decimal (n : Nat) : IsNumeral 10 (decimal n) n := isNumeral_toDigits (by decide) n

theorem isNumeral_paddedDecimal (width n : Nat) : IsNumeral 10 (paddedDecimal width n) n :=
  (isNumeral_decimal n).zeros (by decide) _

theorem length_paddedDecimal {width n : Nat} (hwidth : 0 < width) (hn : n < 10 ^ width) :
    (paddedDecimal width n).length = width := by
  have hlength : (decimal n).length ≤ width := Nat.toDigits_length 10 n width hwidth hn
  rw [paddedDecimal, List.length_append, List.length_replicate]
  omega

/-- A decimal with a point, as it is written: a sign if the number is negative, then digits on both
sides of the point and nothing else. It is given by its digits without the point, and by how many of
them come after it. -/
inductive SpellsDecimal (negative : Bool) : List Char → (digits places : Nat) → Prop where
  | mk {whole fraction : List Char} {w v : Nat} :
    IsNumeral 10 whole w → IsNumeral 10 fraction v →
    SpellsDecimal negative ((if negative then ['-'] else []) ++ whole ++ '.' :: fraction)
      (w * 10 ^ fraction.length + v) fraction.length

namespace SpellsDecimal

variable {negative : Bool} {cs : List Char} {digits places : Nat}

theorem mem (h : SpellsDecimal negative cs digits places) :
    '.' ∈ cs ∧ ∀ c ∈ cs, c = '-' ∨ c = '.' ∨ c.isDigit = true := by
  obtain ⟨hwhole, hfraction⟩ := h
  refine ⟨by simp, fun c hc => ?_⟩
  rw [List.mem_append, List.mem_append, List.mem_cons] at hc
  obtain (hsign | hc) | rfl | hc := hc
  · cases negative with
    | true => exact .inl (List.mem_singleton.mp hsign)
    | false => cases hsign
  · exact .inr (.inr (hwhole.isDigit c hc))
  · exact .inr (.inl rfl)
  · exact .inr (.inr (hfraction.isDigit c hc))

theorem places_pos (h : SpellsDecimal negative cs digits places) : 0 < places := by
  obtain ⟨-, hfraction⟩ := h
  exact List.length_pos_iff.mpr hfraction.ne_nil

end SpellsDecimal

end Text

open Text

namespace Single

/-! Reading. -/

theorem splitSign_of_digit (negative : Bool) {c : Char} (hc : c.isDigit = true) (cs : List Char) :
    splitSign ((if negative then ['-'] else []) ++ c :: cs) = (negative, c :: cs) := by
  cases negative with
  | true => rfl
  | false =>
    simp only [Bool.false_eq_true, if_false, List.nil_append]
    unfold splitSign
    split
    case h_1 h => cases h; cases hc
    case h_2 h => cases h; cases hc
    case h_3 => rfl

theorem readWord?_of_digit (negative : Bool) {c : Char} {d : Nat} (hc : IsDigit 10 c d)
    (cs : List Char) : readWord? negative (c :: cs) = none := by
  have hsame : ∀ d < 10, (Nat.digitChar d).toUpper = Nat.digitChar d := by decide
  have hletters : ∀ d < 10, (Nat.digitChar d).toLower ≠ 'n' ∧ (Nat.digitChar d).toLower ≠ 'i' := by
    decide
  obtain ⟨hd, hc⟩ := hc
  rw [hsame d hd, or_self] at hc
  subst hc
  simp [readWord?, hletters d hd]

theorem rank_of_log2 {digits places : Nat} (h : digits.log2 + 151 < 3 * places) :
    Format.single.rank digits (10 ^ places) = 0 := by
  refine (Format.isNearest_iff (by decide) (Nat.pow_pos (by decide))).mp (Format.isNearest_zero ?_)
  calc 2 * (digits * Format.single.one) = digits * 2 ^ 150 := by
        rw [Format.one_eq, Nat.mul_left_comm]
        rfl
    _ < 2 ^ (digits.log2 + 1) * 2 ^ 150 := Nat.mul_lt_mul_of_pos_right Nat.lt_log2_self (by decide)
    _ = 2 ^ (digits.log2 + 151) := (Nat.pow_add ..).symm
    _ ≤ 2 ^ (3 * places) := Nat.pow_le_pow_right (by decide) (by omega)
    _ = 8 ^ places := by rw [Nat.pow_mul]
    _ ≤ 10 ^ places := Nat.pow_le_pow_left (by decide) places

theorem ofDecimal_neg (negative : Bool) (digits : Nat) {places : Nat} (h : 0 < places) :
    ofDecimal negative digits (0 - (places : Int)) = nearest negative digits (10 ^ places) := by
  obtain ⟨k, rfl⟩ : ∃ k, places = k + 1 := ⟨places - 1, by omega⟩
  have hexponent : (0 : Int) - ((k + 1 : Nat) : Int) = .negSucc k := by omega
  rw [hexponent]
  simp only [ofDecimal]
  split
  case isTrue hsmall => rw [nearest, rank_of_log2 hsmall, zero]
  case isFalse => rfl

theorem read?_of_spells {negative : Bool} {cs : List Char} {digits places : Nat}
    (h : SpellsDecimal negative cs digits places) :
    read? cs = some (nearest negative digits (10 ^ places)) := by
  have hplaces := h.places_pos
  obtain @⟨whole, fraction, w, v, hwhole, hfraction⟩ := h
  have hdigits : numeral? 10 (whole ++ fraction) = some (w * 10 ^ fraction.length + v) :=
    (numeral?_eq_some_iff (by decide) _ _).mpr (hwhole.append hfraction)
  have hpoint : ¬Char.isDigit '.' = true := by decide
  have htake : (whole ++ '.' :: fraction).takeWhile Char.isDigit = whole := by
    rw [List.takeWhile_append_of_pos hwhole.isDigit, List.takeWhile_cons_of_neg hpoint,
      List.append_nil]
  have hdrop : (whole ++ '.' :: fraction).dropWhile Char.isDigit = '.' :: fraction := by
    rw [List.dropWhile_append_of_pos hwhole.isDigit, List.dropWhile_cons_of_neg hpoint]
  have hsplit : splitFraction ('.' :: fraction) = (fraction, []) := by
    rw [splitFraction, List.takeWhile_eq_self_iff.mpr hfraction.isDigit,
      List.dropWhile_eq_nil_iff.mpr hfraction.isDigit]
  have hread : readDecimal? negative (whole ++ '.' :: fraction) =
      some (nearest negative (w * 10 ^ fraction.length + v) (10 ^ fraction.length)) := by
    rw [readDecimal?, htake, hdrop, hsplit]
    simp only [hdigits, exponent?, Option.bind_eq_bind, Option.bind_some, Option.pure_def]
    rw [ofDecimal_neg negative _ hplaces]
  cases hcs : whole with
  | nil => exact absurd hcs hwhole.ne_nil
  | cons c rest =>
    have hc : c.isDigit = true := hwhole.isDigit c (by simp [hcs])
    rw [hcs] at hread hwhole
    obtain ⟨d, hd⟩ := hwhole.head
    rw [read?, List.append_assoc, List.cons_append, splitSign_of_digit negative hc]
    simp only [readWord?_of_digit negative hd]
    exact hread

/-! Writing. -/

/-- The decimal rounds to the number: no other number of the format is as near to it, and none is
equally near unless the number is the even one of the two. -/
def IsRounding (x : Single) (digits places : Nat) : Prop :=
  Format.single.IsNearest digits (10 ^ places) x.rank

theorem isRounding_iff (x : Single) (digits places : Nat) :
    x.IsRounding digits places ↔ Format.single.rank digits (10 ^ places) = x.rank :=
  Format.isNearest_iff (by decide) (Nat.pow_pos (by decide))

/-- The digits of a number in decimal: a whole number exactly and with one place, which is zero, any
other number with as few places as round to it. -/
structure IsShortest (x : Single) (digits places : Nat) : Prop where
  rounds : x.IsRounding digits places
  whole : Format.single.one ∣ x.magnitude →
    places = 1 ∧ digits * Format.single.one = 10 * x.magnitude
  fewest : ¬Format.single.one ∣ x.magnitude →
    ∀ digits' places', x.IsRounding digits' places' → places ≤ places'

variable {rank : Nat}

theorem rank_of_digitsAt? {places digits : Nat} (h : digitsAt? rank places = some digits) :
    Format.single.rank digits (10 ^ places) = rank := by
  simp only [digitsAt?, Nat.pow_eq] at h
  split at h
  case isTrue hlow =>
    cases h
    simp only [Bool.and_eq_true, beq_iff_eq] at hlow
    exact hlow.1
  case isFalse =>
    split at h
    case isTrue hhigh =>
      cases h
      exact eq_of_beq hhigh
    case isFalse => cases h

theorem neighbours_of_digitsAt? {places : Nat} (h : digitsAt? rank places = none) :
    Format.single.rank (Format.single.units rank * 10 ^ places / Format.single.one) (10 ^ places) ≠
        rank ∧
      Format.single.rank (Format.single.units rank * 10 ^ places / Format.single.one + 1)
        (10 ^ places) ≠ rank := by
  simp only [digitsAt?, Nat.pow_eq] at h
  split at h
  case isTrue => cases h
  case isFalse hlow =>
    split at h
    case isTrue => cases h
    case isFalse hhigh =>
      simp only [beq_iff_eq] at hhigh
      simp only [Bool.and_eq_true, Bool.or_eq_true, Bool.not_eq_true', beq_iff_eq,
        beq_eq_false_iff_ne, hhigh, ne_eq, not_false_eq_true, true_or, and_true] at hlow
      exact ⟨hlow, hhigh⟩

/-- Where neither neighbour of the exact value reads back, no decimal does: rounding keeps the
order. -/
theorem rank_ne_of_digitsAt? {places : Nat} (hrank : rank ≤ Format.single.infinity)
    (h : digitsAt? rank places = none) (digits : Nat) :
    Format.single.rank digits (10 ^ places) ≠ rank := by
  have hten : 0 < 10 ^ places := Nat.pow_pos (by decide)
  have hone := Format.single.one_pos
  have hprecision : 1 < Format.single.precision := by decide
  have hself := Format.rank_units hprecision hrank
  obtain ⟨hlow, hhigh⟩ := neighbours_of_digitsAt? h
  have hdown := Nat.div_mul_le_self (Format.single.units rank * 10 ^ places) Format.single.one
  have hup := Nat.lt_div_mul_add (a := Format.single.units rank * 10 ^ places) hone
  intro hreads
  generalize Format.single.units rank * 10 ^ places / Format.single.one = low
    at hlow hhigh hdown hup
  by_cases hside : digits ≤ low
  · have hle := Format.rank_mono hprecision hten hten (Nat.mul_le_mul_right (10 ^ places) hside)
    have hle' := Format.rank_mono hprecision hten hone hdown
    omega
  · have hle := Format.rank_mono hprecision hten hten
      (Nat.mul_le_mul_right (10 ^ places) (show low + 1 ≤ digits by omega))
    have hle' := Format.rank_mono hprecision hone hten
      (show Format.single.units rank * 10 ^ places ≤ (low + 1) * Format.single.one by
        rw [Nat.succ_mul]
        omega)
    omega

theorem rank_exact (hrank : rank ≤ Format.single.infinity) {places : Nat}
    (h : Format.single.scale ≤ places) :
    Format.single.rank (Format.single.units rank * 10 ^ places / Format.single.one) (10 ^ places) =
      rank := by
  have hten : Format.single.one ∣ 10 ^ places := by
    rw [Format.one_eq]
    exact Nat.dvd_trans (pow_dvd_pow_of_dvd (by decide) _) (Nat.pow_dvd_pow 10 h)
  have hdvd : Format.single.one ∣ Format.single.units rank * 10 ^ places :=
    Nat.dvd_mul_left_of_dvd hten _
  have hsame := Format.rank_congr (f := Format.single) (by decide) (Nat.pow_pos (by decide))
    Format.single.one_pos (Nat.div_mul_cancel hdvd)
  rw [hsame, Format.rank_units (by decide) hrank]

/-- The search stops at the first number of places for which there are digits, and never fails if
there are digits for the last one. -/
theorem firstFrom_spec {find : Nat → Option Nat} {last : Nat → Nat} {Found : Nat → Nat → Prop}
    (hsome : ∀ places digits, find places = some digits → Found digits places)
    (hnone : ∀ places, find places = none → ∀ digits, ¬Found digits places) {tries places : Nat}
    (hlast : Found (last (places + tries)) (places + tries)) :
    Found (firstFrom find last tries places).1 (firstFrom find last tries places).2 ∧
      places ≤ (firstFrom find last tries places).2 ∧
      ∀ p, places ≤ p → p < (firstFrom find last tries places).2 → ∀ digits, ¬Found digits p := by
  induction tries generalizing places with
  | zero => exact ⟨hlast, Nat.le_refl _, fun p hp hlt => absurd hlt (Nat.not_lt.mpr hp)⟩
  | succ tries ih =>
    rw [firstFrom]
    cases hfind : find places with
    | some digits =>
      exact ⟨hsome places digits hfind, Nat.le_refl _,
        fun p hp hlt => absurd hlt (Nat.not_lt.mpr hp)⟩
    | none =>
      rw [Nat.add_comm tries, ← Nat.add_assoc] at hlast
      obtain ⟨hfound, hle, hfewer⟩ := ih hlast
      refine ⟨hfound, Nat.le_of_succ_le hle, fun p hp hlt => ?_⟩
      by_cases hfirst : p = places
      · exact hfirst ▸ hnone places hfind
      · exact hfewer p (by omega) hlt

theorem shortest_spec (hrank : rank ≤ Format.single.infinity) :
    Format.single.rank (shortest rank).1 (10 ^ (shortest rank).2) = rank ∧ 1 ≤ (shortest rank).2 ∧
      ∀ p, 1 ≤ p → p < (shortest rank).2 → ∀ digits, Format.single.rank digits (10 ^ p) ≠ rank := by
  have hlast : Format.single.scale ≤ 1 + 148 := by decide
  exact firstFrom_spec (fun _ _ => rank_of_digitsAt?) (fun _ => rank_ne_of_digitsAt? hrank)
    (rank_exact hrank hlast)

theorem spells_fractionText (negative : Bool) (digits : Nat) {places : Nat} (h : 0 < places) :
    SpellsDecimal negative ((if negative then ['-'] else []) ++ fractionText digits places) digits
      places := by
  have hfraction : digits % 10 ^ places < 10 ^ places := Nat.mod_lt _ (Nat.pow_pos (by decide))
  have hspells : SpellsDecimal negative _ _ _ := .mk (isNumeral_decimal (digits / 10 ^ places))
    (isNumeral_paddedDecimal places (digits % 10 ^ places))
  rwa [length_paddedDecimal h hfraction, Nat.div_add_mod', List.append_assoc] at hspells

theorem spells_wholeText (negative : Bool) (n : Nat) :
    SpellsDecimal negative ((if negative then ['-'] else []) ++ wholeText n) (10 * n) 1 := by
  have hzero : IsNumeral 10 ['0'] 0 := isNumeral_decimal 0
  have hspells : SpellsDecimal negative _ _ _ := .mk (isNumeral_decimal n) hzero
  rwa [List.length_singleton, Nat.pow_one, Nat.add_zero, Nat.mul_comm, List.append_assoc] at hspells

theorem chars_of_isFinite {x : Single} (h : x.isFinite = true) :
    x.chars = (if x.isNegative then ['-'] else []) ++ magnitudeText x.rank := by
  have hnan : ¬x.isNaN = true := by
    simp only [isFinite, isNaN, decide_eq_true_eq] at h ⊢
    omega
  rw [chars, if_neg hnan, if_pos h]
  cases x.isNegative <;> rfl

theorem not_isRounding_zero {x : Single} (hx : x.isFinite = true)
    (h : ¬Format.single.one ∣ x.magnitude) (digits : Nat) : ¬x.IsRounding digits 0 := by
  intro hrounding
  have hrank := (isRounding_iff x digits 0).mp hrounding
  rw [Nat.pow_zero] at hrank
  refine h ?_
  rw [magnitude, ← hrank]
  refine Format.one_dvd_units_rank (by decide) ?_
  rw [hrank]
  exact of_decide_eq_true hx

theorem exists_spells {x : Single} (hx : x.isFinite = true) :
    ∃ digits places, SpellsDecimal x.isNegative x.chars digits places ∧
      x.IsShortest digits places := by
  have hrank : x.rank ≤ Format.single.infinity := Nat.le_of_lt (of_decide_eq_true hx)
  rw [chars_of_isFinite hx, magnitudeText]
  by_cases hwhole : Format.single.units x.rank % Format.single.one = 0
  · rw [if_pos hwhole]
    have hdvd : Format.single.one ∣ x.magnitude := Nat.dvd_of_mod_eq_zero hwhole
    have hexact :
        10 * (x.magnitude / Format.single.one) * Format.single.one = 10 * x.magnitude := by
      rw [Nat.mul_assoc, Nat.div_mul_cancel hdvd]
    refine ⟨_, _, spells_wholeText _ _, ?_, fun _ => ⟨rfl, hexact⟩, fun h => absurd hdvd h⟩
    refine Format.isNearest_of_eq (by decide) hrank (hexact.trans ?_)
    rw [Nat.mul_comm, Nat.pow_one]
    rfl
  · rw [if_neg hwhole]
    have hdvd : ¬Format.single.one ∣ x.magnitude := fun h => hwhole (Nat.mod_eq_zero_of_dvd h)
    have hspec := shortest_spec hrank
    generalize shortest x.rank = found at hspec ⊢
    obtain ⟨digits, places⟩ := found
    obtain ⟨hreads, hplaces, hfewer⟩ := hspec
    refine ⟨_, _, spells_fractionText _ _ hplaces, (isRounding_iff x _ _).mpr hreads,
      fun h => absurd h hdvd, fun _ digits' places' hrounds => ?_⟩
    refine Nat.le_of_not_lt fun hless => ?_
    cases places' with
    | zero => exact not_isRounding_zero hx hdvd digits' hrounds
    | succ k =>
      exact hfewer (k + 1) (by omega) hless digits' ((isRounding_iff x _ _).mp hrounds)

theorem eq_infinity {x : Single} (hnan : x.isNaN = false) (hfinite : ¬x.isFinite = true) :
    x = infinity x.isNegative := by
  have hrank : x.rank = Format.single.infinity := by
    simp only [isNaN, isFinite, decide_eq_false_iff_not, decide_eq_true_eq] at hnan hfinite
    omega
  rw [infinity, ← hrank, ofRank_rank]

theorem chars_infinity (negative : Bool) :
    (infinity negative).chars = (if negative then ['-'] else []) ++ ['i', 'n', 'f'] := by
  cases negative <;> decide

theorem read?_chars {x : Single} (hx : x.isNaN = false) : read? x.chars = some x := by
  by_cases hfinite : x.isFinite = true
  · obtain ⟨digits, places, hspells, hshortest⟩ := exists_spells hfinite
    rw [read?_of_spells hspells, nearest, (isRounding_iff x digits places).mp hshortest.rounds,
      ofRank_rank]
  · rw [eq_infinity hx hfinite, chars_infinity]
    cases x.isNegative <;> decide

end Single

/-! Texts as literals. -/

namespace Text

theorem IsNumeral.mem {radix : Nat} (hradix : radix ≤ 16) {cs : List Char} {w : Nat}
    (h : IsNumeral radix cs w) : ∀ c ∈ cs, (digitValue c).isSome = true := by
  obtain ⟨ds, -, hds, -⟩ := h
  induction hds with
  | nil => simp
  | @cons c d _ _ hd _ ih =>
    have hvalue := (digitValue_eq_some_iff c d).mpr ⟨Nat.lt_of_lt_of_le hd.1 hradix, hd.2⟩
    exact List.forall_mem_cons.mpr ⟨by rw [hvalue]; rfl, ih⟩

theorem not_whiteSpace_of_isDigit {c : Char} (h : c.isDigit = true) : c.toNat ∉ whiteSpace := by
  simp only [Char.isDigit, Bool.and_eq_true, decide_eq_true_eq] at h
  have hlow : 48 ≤ c.toNat := h.1
  have hhigh : c.toNat ≤ 57 := h.2
  simp only [whiteSpace, List.mem_cons, List.not_mem_nil, or_false]
  omega

end Text

theorem SpellsInteger.mem {cs : List Char} {n : Int32} (h : SpellsInteger cs n) :
    ∀ c ∈ cs, c = 'x' ∨ c = 'X' ∨ (digitValue c).isSome = true := by
  have hnumeral {radix : Nat} {digits : List Char} {w : Nat} (hw : IsNumeral radix digits w)
      (hradix : radix ≤ 16) : ∀ c ∈ digits, c = 'x' ∨ c = 'X' ∨ (digitValue c).isSome = true :=
    fun c hc => .inr (.inr (hw.mem hradix c hc))
  have hzero : '0' = 'x' ∨ '0' = 'X' ∨ (digitValue '0').isSome = true := .inr (.inr rfl)
  cases h with
  | hexadecimal hx hdigits =>
    obtain ⟨w, hw, -⟩ := hdigits
    exact List.forall_mem_cons.mpr ⟨hzero,
      List.forall_mem_cons.mpr ⟨hx.imp_right .inl, hnumeral hw (by decide)⟩⟩
  | octal hdigits =>
    obtain ⟨w, hw, -⟩ := hdigits
    exact List.forall_mem_cons.mpr ⟨hzero, hnumeral hw (by decide)⟩
  | zero => exact List.forall_mem_singleton.mpr hzero
  | decimal _ hdigits =>
    obtain ⟨w, hw, -⟩ := hdigits
    exact hnumeral hw (by decide)

theorem Single.chars_not_whiteSpace {x : Single} (hx : x.isNaN = false) :
    ∀ c ∈ x.chars, c.toNat ∉ whiteSpace := by
  by_cases hfinite : x.isFinite = true
  · obtain ⟨digits, places, hspells, -⟩ := exists_spells hfinite
    intro c hc
    obtain rfl | rfl | hdigit := hspells.mem.2 c hc
    · decide
    · decide
    · exact not_whiteSpace_of_isDigit hdigit
  · rw [eq_infinity hx hfinite, chars_infinity]
    cases x.isNegative <;> simp [whiteSpace]

/-- The point, or the first letter of the word for infinity, stands in no integer. -/
theorem Single.not_spellsInteger {x : Single} (hx : x.isNaN = false) (n : Int32) :
    ¬SpellsInteger x.chars n := by
  intro h
  by_cases hfinite : x.isFinite = true
  · obtain ⟨digits, places, hspells, -⟩ := exists_spells hfinite
    exact absurd (h.mem '.' hspells.mem.1) (by decide)
  · have hi : 'i' ∈ x.chars := by
      rw [eq_infinity hx hfinite, chars_infinity]
      simp
    exact absurd (h.mem 'i' hi) (by decide)

theorem Literal.value_float (text : String) : value ⟨.float, text⟩ =
    match Single.read? (trim text.toList) with
    | some x => .ok (.float x)
    | none => .error (.badLiteral .float text) := by
  rw [value]
  cases Single.read? (trim text.toList) <;> rfl

/-- The text of a float is a literal of the same float, bit for bit, and of no integer. A finite
float is written without an exponent, as a decimal with digits on both sides of the point: if it is
whole exactly and with one zero, and else with the fewest places that round to it. -/
theorem floats_read_back (x : Single) (hx : x.isNaN = false) :
    Literal.value ⟨.float, (Value.float x).text⟩ = .ok (.float x) ∧
      Literal.value ⟨.int, (Value.float x).text⟩ =
        .error (.badLiteral .int (Value.float x).text) ∧
      (x.isFinite = true →
        'e' ∉ (Value.float x).text.toList ∧ 'E' ∉ (Value.float x).text.toList ∧
        ∃ digits places,
          SpellsDecimal x.isNegative (Value.float x).text.toList digits places ∧
          x.IsShortest digits places) := by
  have htext : (Value.float x).text.toList = x.chars := String.toList_ofList
  have htrim : trim x.chars = x.chars :=
    (IsTrimmed.refl (Single.chars_not_whiteSpace hx)).eq_trim.symm
  refine ⟨?_, ?_, fun hfinite => ?_⟩
  · rw [Literal.value_float, htext, htrim, Single.read?_chars hx]
  · rw [Literal.value_int_eq_error_iff, htext, htrim]
    exact ⟨Single.not_spellsInteger hx, rfl⟩
  · obtain ⟨digits, places, hspells, hshortest⟩ := Single.exists_spells hfinite
    rw [htext]
    have hcharacters := hspells.mem.2
    refine ⟨fun he => ?_, fun hE => ?_, digits, places, hspells, hshortest⟩
    · exact absurd (hcharacters 'e' he) (by decide)
    · exact absurd (hcharacters 'E' hE) (by decide)

/-- The least positive number with its sign changed, the hardest one to write. -/
def Single.leastNegative : Single := ⟨0x80000001⟩

theorem floats_read_back_leastNegative :
    Single.leastNegative.isNaN = false ∧
      (Value.float Single.leastNegative).text = "-0.000000000000000000000000000000000000000000001" ∧
      Literal.value ⟨.float, "-0.000000000000000000000000000000000000000000001"⟩ =
        .ok (.float Single.leastNegative) ∧
      ∃ digits places,
        SpellsDecimal true (Value.float Single.leastNegative).text.toList digits places ∧
        Single.leastNegative.IsShortest digits places := by
  have hnan : Single.leastNegative.isNaN = false := by decide
  have htext : (Value.float Single.leastNegative).text =
      "-0.000000000000000000000000000000000000000000001" := by decide +kernel
  obtain ⟨hreads, -, hwritten⟩ := floats_read_back Single.leastNegative hnan
  obtain ⟨-, -, hdecimal⟩ := hwritten (by decide)
  rw [htext] at hreads
  exact ⟨hnan, htext, hreads, hdecimal⟩

end TolerantScript
