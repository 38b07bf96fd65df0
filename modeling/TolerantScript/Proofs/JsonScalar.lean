import Mathlib.Algebra.Group.Nat.Defs
import Mathlib.Tactic.SplitIfs
import TolerantScript.Json.Reader
import TolerantScript.Json.Writer
import TolerantScript.Proofs.Rounding

/-!
Strings and natural numbers written as JSON and read again: every character comes back from its
escape, and every number of 64 bits from its digits.
-/

namespace TolerantScript.Json

/-! Strings. -/

namespace Quoted

theorem readFrom_step {mode mode' : Mode} {read read' : List Char} {c : Char} (cs : List Char)
    (hopen : isPlain mode = false ∨ c ≠ '"') (h : step true mode read c = .ok (mode', read')) :
    readFrom true mode read (c :: cs) = readFrom true mode' read' cs := by
  have hclosed : (decide (c = '"') && isPlain mode) = false := by
    obtain hmode | hc := hopen
    · rw [hmode, Bool.and_false]
    · rw [decide_eq_false hc, Bool.false_and]
  rw [readFrom, hclosed, h]
  rfl

theorem step_backslash (read : List Char) : step true .plain read '\\' = .ok (.escape, read) := rfl

theorem readFrom_letter {d c : Char} (hd : d ≠ 'u') (h : unescape d = some c)
    (read cs : List Char) :
    readFrom true .plain read ('\\' :: d :: cs) = readFrom true .plain (c :: read) cs := by
  have hletter : step true .escape read d = .ok (.plain, c :: read) := by
    simp only [step, if_neg hd, h]
  rw [readFrom_step _ (.inr (by decide)) (step_backslash read), readFrom_step cs (.inl rfl) hletter]

theorem step_code (digits : List Char) (c : Char) (read : List Char)
    (h : (String.ofList (digits ++ [c])).utf8ByteSize < 4) :
    step true (.code none digits) read c = .ok (.code none (digits ++ [c]), read) :=
  if_pos h

/-- What the two last digits of a numbered escape write, and that three digits are too few. -/
theorem numeral_control : ∀ n < 0x20,
    (String.ofList ['0', '0', Nat.digitChar (n / 16)]).utf8ByteSize < 4 ∧
      ¬(String.ofList ['0', '0', Nat.digitChar (n / 16), Nat.digitChar (n % 16)]).utf8ByteSize < 4 ∧
      Text.numeral? 16 ['0', '0', Nat.digitChar (n / 16), Nat.digitChar (n % 16)] = some n := by
  decide +kernel

theorem afterCode_control {c : Char} (hc : c.toNat < 0x20) (read : List Char) :
    afterCode true none c.toNat read = .ok (.plain, c :: read) := by
  have htrailing : isTrailing c.toNat = false := by
    simp only [isTrailing, Bool.and_eq_false_iff, decide_eq_false_iff_not]
    omega
  have hleading : isLeading c.toNat = false := by
    simp only [isLeading, Bool.and_eq_false_iff, decide_eq_false_iff_not]
    omega
  simp [afterCode, htrailing, hleading]

theorem readFrom_controlEscape {c : Char} (hc : c.toNat < 0x20) (read cs : List Char) :
    readFrom true .plain read (controlEscape c ++ cs) = readFrom true .plain (c :: read) cs := by
  obtain ⟨hthree, hfour, hvalue⟩ := numeral_control c.toNat hc
  have hnumbered : step true .escape read 'u' = .ok (.code none [], read) := rfl
  have hfirst : step true (.code none []) read '0' = .ok (.code none ['0'], read) :=
    step_code [] '0' read (by decide +kernel)
  have hsecond : step true (.code none ['0']) read '0' = .ok (.code none ['0', '0'], read) :=
    step_code ['0'] '0' read (by decide +kernel)
  have hthird : step true (.code none ['0', '0']) read (Nat.digitChar (c.toNat / 16)) =
      .ok (.code none ['0', '0', Nat.digitChar (c.toNat / 16)], read) :=
    step_code ['0', '0'] (Nat.digitChar (c.toNat / 16)) read hthree
  have hlast : step true (.code none ['0', '0', Nat.digitChar (c.toNat / 16)]) read
      (Nat.digitChar (c.toNat % 16)) = .ok (.plain, c :: read) := by
    simp only [step, List.cons_append, List.nil_append]
    rw [if_neg hfour, hvalue]
    exact afterCode_control hc read
  simp only [controlEscape, List.cons_append, List.nil_append]
  rw [readFrom_step _ (.inr (by decide)) (step_backslash read),
    readFrom_step _ (.inl rfl) hnumbered, readFrom_step _ (.inl rfl) hfirst,
    readFrom_step _ (.inl rfl) hsecond, readFrom_step _ (.inl rfl) hthird]
  exact readFrom_step cs (.inl rfl) hlast

theorem eq_ofNat_of_toNat {c : Char} {n : Nat} (h : c.toNat = n) : c = Char.ofNat n := by
  rw [← h, Char.ofNat_toNat]

/-- Whatever the character, its escape is read as the character. -/
theorem readFrom_escape (c : Char) (read cs : List Char) :
    readFrom true .plain read (escape c ++ cs) = readFrom true .plain (c :: read) cs := by
  unfold escape
  split_ifs with hquote hslash hnewline hreturn htab hback hfeed hcontrol
  · exact readFrom_letter (by decide) (by rw [hquote]; decide) read cs
  · exact readFrom_letter (by decide) (by rw [hslash]; decide) read cs
  · exact readFrom_letter (by decide) (by rw [hnewline]; decide) read cs
  · exact readFrom_letter (by decide) (by rw [hreturn]; decide) read cs
  · exact readFrom_letter (by decide) (by rw [htab]; decide) read cs
  · exact readFrom_letter (by decide) (by rw [eq_ofNat_of_toNat hback]; decide) read cs
  · exact readFrom_letter (by decide) (by rw [eq_ofNat_of_toNat hfeed]; decide) read cs
  · exact readFrom_controlEscape hcontrol read cs
  · have hplain : step true .plain read c = .ok (.plain, c :: read) := by
      simp only [step, if_neg hslash, if_neg hcontrol]
    exact readFrom_step cs (.inr hquote) hplain

theorem readFrom_escapes (content read rest : List Char) :
    readFrom true .plain read (content.foldr (fun c cs => escape c ++ cs) ('"' :: rest)) =
      .ok (read.reverse ++ content, rest) := by
  induction content generalizing read with
  | nil => simp [readFrom, isPlain]
  | cons c content ih =>
    rw [List.foldr_cons, readFrom_escape, ih, List.reverse_cons, List.append_assoc]
    rfl

theorem read_quoted (s : String) (rest : List Char) :
    ∃ cs, quoted s rest = '"' :: cs ∧ Quoted.read cs = .ok (s, rest) := by
  refine ⟨_, rfl, ?_⟩
  rw [Quoted.read, readFrom_escapes]
  simp

end Quoted

/-! Natural numbers. -/

def Parted (cs : List Char) : Prop :=
  ∀ c, cs.head? = some c → c.isDigit = false ∧ c ≠ '.' ∧ c ≠ 'e' ∧ c ≠ 'E'

namespace Numeral

theorem head?_decimal {n : Nat} (h : 0 < n) : (Text.decimal n).head? ≠ some '0' := by
  induction n using Nat.strongRecOn with
  | ind n ih =>
    unfold Text.decimal at ih ⊢
    by_cases hsmall : n < 10
    · rw [Nat.toDigits_of_lt_base hsmall]
      have hdigits : ∀ k < 10, 0 < k → [Nat.digitChar k].head? ≠ some '0' := by decide
      exact hdigits n hsmall h
    · rw [Nat.toDigits_of_base_le (by decide) (by omega)]
      have hhigh := ih (n / 10) (by omega) (by omega)
      cases hdigits : Nat.toDigits 10 (n / 10) with
      | nil => exact absurd hdigits Nat.toDigits_ne_nil
      | cons d ds =>
        rw [hdigits] at hhigh
        exact hhigh

theorem isDigit_of_mem_decimal {n : Nat} {c : Char} (h : c ∈ Text.decimal n) : c.isDigit = true :=
  Nat.isDigit_of_mem_toDigits (by decide) (by decide) h

theorem takeWhile_decimal (n : Nat) {tail : List Char} (htail : Parted tail) :
    (Text.decimal n ++ tail).takeWhile Char.isDigit = Text.decimal n ∧
      (Text.decimal n ++ tail).dropWhile Char.isDigit = tail := by
  have hdigits : ∀ c ∈ Text.decimal n, c.isDigit = true := fun c => isDigit_of_mem_decimal
  rw [List.takeWhile_append_of_pos hdigits, List.dropWhile_append_of_pos hdigits]
  cases tail with
  | nil => simp
  | cons c cs =>
    have hc : c.isDigit = false := (htail c rfl).1
    simp [hc]

theorem readWhole_decimal (ended : ReadError) (n : Nat) {tail : List Char} (htail : Parted tail) :
    readWhole ended (Text.decimal n ++ tail) = .ok (Text.decimal n, tail) := by
  obtain ⟨htake, hdrop⟩ := takeWhile_decimal n htail
  by_cases hzero : n = 0
  · subst hzero
    have hnone : tail.head?.any Char.isDigit = false := by
      cases tail with
      | nil => rfl
      | cons c cs => exact (htail c rfl).1
    have hdecimal : Text.decimal 0 = ['0'] := rfl
    rw [hdecimal, List.singleton_append, readWhole, if_pos rfl, hnone]
    rfl
  · have hhead : (Text.decimal n).head? ≠ some '0' := head?_decimal (by omega)
    cases hdigits : Text.decimal n with
    | nil => exact absurd hdigits Nat.toDigits_ne_nil
    | cons d ds =>
      have hd : d.isDigit = true := isDigit_of_mem_decimal (hdigits ▸ List.mem_cons_self)
      have hd' : d ≠ '0' := by simpa [hdigits] using hhead
      rw [hdigits] at htake hdrop
      rw [List.cons_append] at htake hdrop ⊢
      rw [readWhole, if_neg hd', if_pos hd, htake, hdrop]

theorem read_decimal (ended : ReadError) (n : Nat) {tail : List Char} (htail : Parted tail) :
    Numeral.read ended false (Text.decimal n ++ tail) =
      .ok (⟨false, Text.decimal n, none, none⟩, tail) := by
  have hfraction : readFraction ended tail = .ok (none, tail) := by
    unfold readFraction
    split
    case h_1 cs => exact absurd rfl (htail '.' rfl).2.1
    case h_2 => rfl
  have hexponent : readExponent ended tail = .ok (none, tail) := by
    cases tail with
    | nil => rfl
    | cons c cs =>
      obtain ⟨-, -, he, hE⟩ := htail c rfl
      unfold readExponent
      exact if_neg (by simp [he, hE])
  simp [Numeral.read, readWhole_decimal ended n htail, hfraction, hexponent]

/-! Digits that 64 bits hold are all taken into account. -/

theorem le_ofDigitChars (cs : List Char) (acc : Nat) : acc ≤ Nat.ofDigitChars 10 cs acc := by
  induction cs generalizing acc with
  | nil => exact Nat.le_refl acc
  | cons c cs ih =>
    rw [Nat.ofDigitChars_cons]
    have := ih (10 * acc + (c.toNat - '0'.toNat))
    omega

theorem leading_eq (cs : List Char) (acc : Nat) (h : Nat.ofDigitChars 10 cs acc < UInt64.size) :
    leading acc cs = (Nat.ofDigitChars 10 cs acc, 0) := by
  induction cs generalizing acc with
  | nil => rfl
  | cons c cs ih =>
    rw [Nat.ofDigitChars_cons] at h ⊢
    have hle := le_ofDigitChars cs (10 * acc + (c.toNat - '0'.toNat))
    rw [leading, if_pos (by omega)]
    exact ih _ h

end Numeral

open Binary

/-- A natural number of 64 bits is far below what counts as too large. -/
theorem Numeral.inRange_decimal {n : Nat} (hn : n < UInt64.size) :
    (⟨false, Text.decimal n, none, none⟩ : Numeral).inRange = true := by
  have hdigits : leading 0 (Text.decimal n) = (n, 0) := by
    have hvalue : Nat.ofDigitChars 10 (Text.decimal n) 0 = n :=
      Nat.ofDigitChars_toDigits (by decide) (by decide)
    have hleading := leading_eq (Text.decimal n) 0 (by rw [hvalue]; exact hn)
    rwa [hvalue] at hleading
  have hscientific : (⟨false, Text.decimal n, none, none⟩ : Numeral).scientific = (n, 0) := by
    simp [scientific, hdigits, leading]
  have hpower : Nat.pow 10 (0 : Int).toNat = 1 := rfl
  have hnumber := Format.double.whole_lt (k := 64) hn
  have hunit := Format.double.whole_lt (n := 1) (k := 1) (by decide)
  have hleft := Format.units_lt (by decide) (Format.rank_le (by decide) (by decide) hnumber)
  have hright := Format.units_lt (by decide) (Format.rank_le (by decide) (by decide) hunit)
  have hproduct := Format.double.product_lt (k := 1143) (by decide) hleft hright
  have hrank := Format.rank_le (by decide) (by decide) hproduct
  have hfinite : (1143 - Format.double.precision + 2) * Format.double.lead <
      Format.double.infinity := by decide
  simp only [inRange, hscientific, hpower, Bool.or_eq_true, Bool.and_eq_true, decide_eq_true_eq]
  exact .inr ⟨by decide, Nat.lt_of_le_of_lt hrank hfinite⟩

/-! Scalars at the front of a text. -/

theorem readScalar_natural {n : Nat} (hn : n < UInt64.size) {tail : List Char}
    (htail : Parted tail) : readScalar (Text.decimal n ++ tail) = .ok (.natural n, tail) := by
  have hnumber : readNumber true false (Text.decimal n ++ tail) = .ok (.natural n, tail) := by
    have hvalue : Nat.ofDigitChars 10 (Text.decimal n) 0 = n :=
      Nat.ofDigitChars_toDigits (by decide) (by decide)
    simp [readNumber, Numeral.read_decimal _ n htail, Numeral.inRange_decimal hn, Numeral.value,
      hvalue]
  cases hdigits : Text.decimal n with
  | nil => exact absurd hdigits Nat.toDigits_ne_nil
  | cons d ds =>
    have hd : d.isDigit = true := Numeral.isDigit_of_mem_decimal (hdigits ▸ List.mem_cons_self)
    rw [hdigits, List.cons_append] at hnumber
    rw [List.cons_append]
    unfold readScalar
    split
    case h_1 heq => cases heq
    case h_7 c cs _ _ _ _ _ heq =>
      cases heq
      rw [if_pos hd, hnumber]
    all_goals
      rename_i heq
      cases heq
      cases hd

theorem readScalar_quoted (s : String) (tail : List Char) :
    readScalar (quoted s tail) = .ok (.string s, tail) := by
  obtain ⟨cs, hquoted, hread⟩ := Quoted.read_quoted s tail
  rw [hquoted]
  simp [readScalar, hread]

end TolerantScript.Json
