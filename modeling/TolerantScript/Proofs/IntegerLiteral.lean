import Mathlib.Data.List.Forall2
import Mathlib.Data.Nat.Digits.Defs
import TolerantScript.Literal
import TolerantScript.Proofs.JsonScalar

/-!
Integer literals. What a text writes is said by a grammar of three radixes, and a literal has a
value where the grammar gives its text one, and nowhere else. Every integer is written by some
literal.
-/

namespace TolerantScript

namespace Text

/-! Trimming. -/

def whiteSpace : List Nat :=
  [0x09, 0x0A, 0x0B, 0x0C, 0x0D, 0x20, 0x85, 0xA0, 0x1680, 0x2000, 0x2001, 0x2002, 0x2003, 0x2004,
    0x2005, 0x2006, 0x2007, 0x2008, 0x2009, 0x200A, 0x2028, 0x2029, 0x202F, 0x205F, 0x3000]

theorem isBlank_iff (c : Char) : isBlank c = true ↔ c.toNat ∈ whiteSpace := by
  simp only [isBlank, whiteSpace, Bool.or_eq_true, Bool.and_eq_true, decide_eq_true_eq, beq_iff_eq,
    List.mem_cons, List.not_mem_nil, or_false]
  omega

structure IsTrimmed (text u : List Char) : Prop where
  around : ∃ before after, text = before ++ u ++ after ∧
    ∀ c ∈ before ++ after, c.toNat ∈ whiteSpace
  head : ∀ c ∈ u.head?, c.toNat ∉ whiteSpace
  last : ∀ c ∈ u.getLast?, c.toNat ∉ whiteSpace

theorem dropWhile_blank {blanks cs : List Char} (hblanks : ∀ c ∈ blanks, c.toNat ∈ whiteSpace)
    (hcs : ∀ c ∈ cs.head?, c.toNat ∉ whiteSpace) : (blanks ++ cs).dropWhile isBlank = cs := by
  rw [List.dropWhile_append_of_pos fun c hc => (isBlank_iff c).mpr (hblanks c hc)]
  cases cs with
  | nil => rfl
  | cons c cs =>
    have hc : ¬isBlank c = true := mt (isBlank_iff c).mp (hcs c rfl)
    rw [List.dropWhile_cons_of_neg hc]

theorem IsTrimmed.eq_trim {text u : List Char} (h : IsTrimmed text u) : u = trim text := by
  obtain ⟨before, after, rfl, hblank⟩ := h.around
  have hbefore : ∀ c ∈ before, c.toNat ∈ whiteSpace :=
    fun c hc => hblank c (List.mem_append_left _ hc)
  have hafter : ∀ c ∈ after.reverse, c.toNat ∈ whiteSpace := fun c hc =>
    hblank c (List.mem_append_right _ (List.mem_reverse.mp hc))
  cases u with
  | nil =>
    -- Nothing is left between the blanks, so the first pass takes both runs of them.
    have hall : (before ++ [] ++ after).dropWhile isBlank = [] := by
      have hnone : (before ++ after ++ []).dropWhile isBlank = [] :=
        dropWhile_blank hblank (by simp)
      simpa using hnone
    rw [trim, hall]
    rfl
  | cons c cs =>
    have hfront : (before ++ c :: cs ++ after).dropWhile isBlank = c :: cs ++ after := by
      rw [List.append_assoc]
      exact dropWhile_blank hbefore h.head
    have hback : (after.reverse ++ (c :: cs).reverse).dropWhile isBlank = (c :: cs).reverse :=
      dropWhile_blank hafter (by rw [List.head?_reverse]; exact h.last)
    rw [trim, hfront, List.reverse_append, hback, List.reverse_reverse]

theorem isTrimmed_trim (text : List Char) : IsTrimmed text (trim text) where
  around := by
    have hrest : text.dropWhile isBlank =
        trim text ++ ((text.dropWhile isBlank).reverse.takeWhile isBlank).reverse := by
      rw [trim, ← List.reverse_append, List.takeWhile_append_dropWhile, List.reverse_reverse]
    refine ⟨text.takeWhile isBlank,
      ((text.dropWhile isBlank).reverse.takeWhile isBlank).reverse, ?_, ?_⟩
    · rw [List.append_assoc, ← hrest, List.takeWhile_append_dropWhile]
    · intro c hc
      rw [← isBlank_iff]
      obtain hbefore | hafter := List.mem_append.mp hc
      · exact List.all_eq_true.mp List.all_takeWhile c hbefore
      · exact List.all_eq_true.mp List.all_takeWhile c (List.mem_reverse.mp hafter)
  head := by
    intro c hc hblank
    obtain ⟨rest, hrest⟩ := List.head?_eq_some_iff.mp hc
    rw [← isBlank_iff, head_trim_not_blank c text rest hrest] at hblank
    cases hblank
  last := by
    intro c hc hblank
    have hfirst := List.head?_dropWhile_not isBlank (text.dropWhile isBlank).reverse
    rw [trim, List.getLast?_reverse] at hc
    rw [Option.mem_def.mp hc] at hfirst
    simp [(isBlank_iff c).mpr hblank] at hfirst

theorem IsTrimmed.refl {u : List Char} (h : ∀ c ∈ u, c.toNat ∉ whiteSpace) : IsTrimmed u u where
  around := ⟨[], [], by simp, by simp⟩
  head c hc := h c (List.mem_of_mem_head? hc)
  last c hc := h c (List.mem_of_mem_getLast? hc)

/-! Numerals. -/

/-- The character writes the number as a digit of the radix, a letter in either case. -/
def IsDigit (radix : Nat) (c : Char) (d : Nat) : Prop :=
  d < radix ∧ (c = Nat.digitChar d ∨ c = (Nat.digitChar d).toUpper)

/-- The text is one or more digits of the radix, and this is the number that they write, the last
one for the units. -/
def IsNumeral (radix : Nat) (cs : List Char) (w : Nat) : Prop :=
  ∃ ds, ds ≠ [] ∧ List.Forall₂ (IsDigit radix) cs ds ∧ w = Nat.ofDigits radix ds.reverse

variable {radix : Nat}

theorem digitValue_digitChar : ∀ d < 16, digitValue (Nat.digitChar d) = some d ∧
    digitValue (Nat.digitChar d).toUpper = some d := by
  decide

theorem digitChar_of_toNat (c : Char) (d : Nat) : d < 10 ∧ c.toNat = d + 48 ∨
    10 ≤ d ∧ d < 16 ∧ (c.toNat = d + 87 ∨ c.toNat = d + 55) → IsDigit 16 c d := by
  have hdecimal : ∀ d < 10, (Nat.digitChar d).toNat = d + 48 := by decide
  have hlower : ∀ d < 16, 10 ≤ d → (Nat.digitChar d).toNat = d + 87 := by decide
  have hupper : ∀ d < 16, 10 ≤ d → (Nat.digitChar d).toUpper.toNat = d + 55 := by decide
  rintro (⟨hd, hc⟩ | ⟨hten, hd, hc | hc⟩)
  · exact ⟨by omega, .inl (Char.toNat_inj.mp (hc.trans (hdecimal d hd).symm))⟩
  · exact ⟨hd, .inl (Char.toNat_inj.mp (hc.trans (hlower d hd hten).symm))⟩
  · exact ⟨hd, .inr (Char.toNat_inj.mp (hc.trans (hupper d hd hten).symm))⟩

theorem digitValue_eq_some_iff (c : Char) (d : Nat) : digitValue c = some d ↔ IsDigit 16 c d := by
  constructor
  · intro h
    apply digitChar_of_toNat
    have hle (a b : Char) : a ≤ b ↔ a.toNat ≤ b.toNat := Iff.rfl
    rw [digitValue] at h
    simp only [hle, Char.reduceToNat] at h
    split at h
    case isTrue hdecimal =>
      cases h
      omega
    case isFalse =>
      split at h
      case isTrue hlower =>
        cases h
        omega
      case isFalse =>
        split at h
        case isTrue hupper =>
          cases h
          omega
        case isFalse => cases h
  · rintro ⟨hd, rfl | rfl⟩
    · exact (digitValue_digitChar d hd).1
    · exact (digitValue_digitChar d hd).2

theorem digit?_eq_some_iff (hradix : radix ≤ 16) (c : Char) (d : Nat) :
    digit? radix c = some d ↔ IsDigit radix c d := by
  rw [digit?, Option.filter_eq_some_iff, digitValue_eq_some_iff, decide_eq_true_eq,
    IsDigit, IsDigit]
  constructor
  · rintro ⟨⟨-, hc⟩, hd⟩
    exact ⟨hd, hc⟩
  · rintro ⟨hd, hc⟩
    exact ⟨⟨Nat.lt_of_lt_of_le hd hradix, hc⟩, hd⟩

theorem numeralFrom?_eq_some_iff (hradix : radix ≤ 16) (cs : List Char) (acc w : Nat) :
    numeralFrom? radix acc cs = some w ↔
      ∃ ds, List.Forall₂ (IsDigit radix) cs ds ∧ w = ds.foldl (fun n d => d + radix * n) acc := by
  induction cs generalizing acc with
  | nil => simp [numeralFrom?, eq_comm]
  | cons c cs ih =>
    rw [numeralFrom?, Option.bind_eq_bind, Option.bind_eq_some_iff]
    constructor
    · rintro ⟨d, hd, hrest⟩
      obtain ⟨ds, hds, rfl⟩ := (ih _).mp hrest
      refine ⟨d :: ds, .cons ((digit?_eq_some_iff hradix c d).mp hd) hds, ?_⟩
      rw [List.foldl_cons, Nat.add_comm]
    · rintro ⟨_, _ | @⟨_, d, _, ds, hd, hds⟩, rfl⟩
      refine ⟨d, (digit?_eq_some_iff hradix c d).mpr hd, (ih _).mpr ⟨ds, hds, ?_⟩⟩
      rw [List.foldl_cons, Nat.add_comm]

theorem numeral?_eq_some_iff (hradix : radix ≤ 16) (cs : List Char) (w : Nat) :
    numeral? radix cs = some w ↔ IsNumeral radix cs w := by
  have hvalue (ds : List Nat) : Nat.ofDigits radix ds.reverse =
      ds.foldl (fun n d => d + radix * n) 0 := by
    rw [Nat.ofDigits_eq_foldr, List.foldr_reverse]
    rfl
  rw [numeral?, IsNumeral]
  simp only [hvalue]
  cases cs with
  | nil => simp
  | cons c cs =>
    rw [List.isEmpty_cons, if_neg Bool.false_ne_true, numeralFrom?_eq_some_iff hradix]
    constructor
    · rintro ⟨ds, hds, rfl⟩
      refine ⟨ds, ?_, hds, rfl⟩
      rintro rfl
      cases hds
    · rintro ⟨ds, -, hds, rfl⟩
      exact ⟨ds, hds, rfl⟩

theorem IsNumeral.head {c : Char} {cs : List Char} {w : Nat} (h : IsNumeral radix (c :: cs) w) :
    ∃ d, IsDigit radix c d := by
  obtain ⟨_, -, _ | ⟨hd, -⟩, -⟩ := h
  exact ⟨_, hd⟩

theorem IsDigit.not_whiteSpace {c : Char} {d : Nat} (hradix : radix ≤ 16) (h : IsDigit radix c d) :
    c.toNat ∉ whiteSpace := by
  have hdigits : ∀ d < 16, (Nat.digitChar d).toNat ∉ whiteSpace ∧
      (Nat.digitChar d).toUpper.toNat ∉ whiteSpace := by decide
  obtain ⟨hd, rfl | rfl⟩ := h
  · exact (hdigits d (Nat.lt_of_lt_of_le hd hradix)).1
  · exact (hdigits d (Nat.lt_of_lt_of_le hd hradix)).2

theorem IsNumeral.not_whiteSpace {cs : List Char} {w : Nat} (hradix : radix ≤ 16)
    (h : IsNumeral radix cs w) : ∀ c ∈ cs, c.toNat ∉ whiteSpace := by
  obtain ⟨ds, -, hds, -⟩ := h
  induction hds with
  | nil => simp
  | cons hd _ ih => exact List.forall_mem_cons.mpr ⟨hd.not_whiteSpace hradix, ih⟩

theorem isNumeral_toDigits (hradix : 1 < radix) (w : Nat) :
    IsNumeral radix (Nat.toDigits radix w) w := by
  induction w using Nat.strongRecOn with
  | ind w ih =>
    by_cases hsmall : w < radix
    · rw [Nat.toDigits_of_lt_base hsmall]
      exact ⟨[w], List.cons_ne_nil _ _, .cons ⟨hsmall, .inl rfl⟩ .nil, by simp⟩
    · have hless : w / radix < w := Nat.div_lt_self (by omega) hradix
      obtain ⟨ds, -, hds, hvalue⟩ := ih (w / radix) hless
      rw [Nat.toDigits_of_base_le hradix (by omega)]
      refine ⟨ds ++ [w % radix], by simp, ?_, ?_⟩
      · exact List.rel_append hds (.cons ⟨Nat.mod_lt w (by omega), .inl rfl⟩ .nil)
      · rw [List.reverse_append, List.reverse_singleton, List.singleton_append, Nat.ofDigits_cons,
          ← hvalue]
        exact (Nat.mod_add_div w radix).symm

end Text

open Text

/-! The grammar. -/

/-- The digits write a number of 32 bits in the radix, and the integer has these bits. -/
def WritesBits (radix : Nat) (digits : List Char) (n : Int32) : Prop :=
  ∃ w, IsNumeral radix digits w ∧ w < 2 ^ 32 ∧ n.toBitVec = BitVec.ofNat 32 w

def WritesInteger (digits : List Char) (n : Int32) : Prop :=
  ∃ w, IsNumeral 10 digits w ∧ w ≤ 2 ^ 31 - 1 ∧ n.toInt = w

/-- What is written as an integer, and which one. -/
inductive SpellsInteger : List Char → Int32 → Prop where
  | hexadecimal {x : Char} {digits : List Char} {n : Int32} :
    x = 'x' ∨ x = 'X' → WritesBits 16 digits n → SpellsInteger ('0' :: x :: digits) n
  | octal {digits : List Char} {n : Int32} : WritesBits 8 digits n → SpellsInteger ('0' :: digits) n
  | zero : SpellsInteger ['0'] 0
  | decimal {first : Char} {rest : List Char} {n : Int32} :
    first ∈ ['1', '2', '3', '4', '5', '6', '7', '8', '9'] →
    WritesInteger (first :: rest) n → SpellsInteger (first :: rest) n

theorem spells_hexadecimal_iff {x : Char} (hx : x = 'x' ∨ x = 'X') (digits : List Char)
    (n : Int32) : SpellsInteger ('0' :: x :: digits) n ↔ WritesBits 16 digits n := by
  constructor
  · intro h
    cases h with
    | hexadecimal _ hdigits => exact hdigits
    | octal hdigits =>
      obtain ⟨w, hw, -⟩ := hdigits
      obtain ⟨d, hd⟩ := hw.head
      have hnone : digit? 8 x = none := by obtain rfl | rfl := hx <;> rfl
      rw [← digit?_eq_some_iff (by decide), hnone] at hd
      cases hd
    | decimal hfirst => exact absurd hfirst (by decide)
  · exact .hexadecimal hx

theorem spells_octal_iff {d : Char} (hd : ¬(d = 'x' ∨ d = 'X')) (digits : List Char) (n : Int32) :
    SpellsInteger ('0' :: d :: digits) n ↔ WritesBits 8 (d :: digits) n := by
  constructor
  · intro h
    cases h with
    | hexadecimal hx => exact absurd hx hd
    | octal hdigits => exact hdigits
    | decimal hfirst => exact absurd hfirst (by decide)
  · exact .octal

theorem spells_zero_iff (n : Int32) : SpellsInteger ['0'] n ↔ n = 0 := by
  constructor
  · intro h
    cases h with
    | octal hdigits =>
      obtain ⟨w, ⟨_, hne, _ | _, -⟩, -⟩ := hdigits
      exact absurd rfl hne
    | zero => rfl
    | decimal hfirst => exact absurd hfirst (by decide)
  · rintro rfl
    exact .zero

theorem spells_decimal_iff {first : Char} (hfirst : first ≠ '0') (rest : List Char) (n : Int32) :
    SpellsInteger (first :: rest) n ↔ WritesInteger (first :: rest) n := by
  constructor
  · intro h
    cases h with
    | hexadecimal | octal | zero => exact absurd rfl hfirst
    | decimal _ hdigits => exact hdigits
  · intro hdigits
    have hnine : ∀ d < 10, (Nat.digitChar d).toUpper = Nat.digitChar d ∧ (Nat.digitChar d ≠ '0' →
        Nat.digitChar d ∈ ['1', '2', '3', '4', '5', '6', '7', '8', '9']) := by decide
    have ⟨w, hw, _⟩ := hdigits
    obtain ⟨d, hd, hc⟩ := hw.head
    rw [(hnine d hd).1, or_self] at hc
    subst hc
    exact .decimal ((hnine d hd).2 hfirst) hdigits

theorem SpellsInteger.not_whiteSpace {cs : List Char} {n : Int32} (h : SpellsInteger cs n) :
    ∀ c ∈ cs, c.toNat ∉ whiteSpace := by
  have hzero : '0'.toNat ∉ whiteSpace := by decide
  cases h with
  | hexadecimal hx hdigits =>
    obtain ⟨w, hw, -⟩ := hdigits
    have hmark : ∀ x, x = 'x' ∨ x = 'X' → x.toNat ∉ whiteSpace := by
      rintro x (rfl | rfl) <;> decide
    exact List.forall_mem_cons.mpr
      ⟨hzero, List.forall_mem_cons.mpr ⟨hmark _ hx, hw.not_whiteSpace (by decide)⟩⟩
  | octal hdigits =>
    obtain ⟨w, hw, -⟩ := hdigits
    exact List.forall_mem_cons.mpr ⟨hzero, hw.not_whiteSpace (by decide)⟩
  | zero => exact List.forall_mem_singleton.mpr hzero
  | decimal _ hdigits =>
    obtain ⟨w, hw, -⟩ := hdigits
    exact hw.not_whiteSpace (by decide)

namespace Literal

theorem wordValue?_eq_some_iff {radix : Nat} (hradix : radix ≤ 16) (digits : List Char)
    (n : Int32) : wordValue? radix digits = some n ↔ WritesBits radix digits n := by
  rw [wordValue?, Option.bind_eq_bind, Option.bind_eq_some_iff]
  refine exists_congr fun w => and_congr (numeral?_eq_some_iff hradix digits w) ?_
  rw [Option.ite_none_right_eq_some, Option.some.injEq, ← Int32.toBitVec_inj, eq_comm]
  rfl

theorem decimalValue?_eq_some_iff (digits : List Char) (n : Int32) :
    (do
      let w ← numeral? 10 digits
      if w < 0x80000000 then some (Int32.ofNat w) else none) = some n ↔ WritesInteger digits n := by
  rw [Option.bind_eq_bind, Option.bind_eq_some_iff]
  refine exists_congr fun w => and_congr (numeral?_eq_some_iff (by decide) digits w) ?_
  rw [Option.ite_none_right_eq_some, Option.some.injEq, ← Int32.toInt_inj]
  have hbound : w < 0x80000000 ↔ w ≤ 2 ^ 31 - 1 := by omega
  rw [hbound]
  refine and_congr_right fun hw => ?_
  rw [Int32.toInt_ofNat_of_lt (by omega), eq_comm]

theorem intValue?_eq_some_iff (cs : List Char) (n : Int32) :
    intValue? cs = some n ↔ SpellsInteger cs n := by
  fun_cases intValue? cs with
  | case1 digits =>
    rw [wordValue?_eq_some_iff (by decide), spells_hexadecimal_iff (.inl rfl)]
  | case2 digits =>
    rw [wordValue?_eq_some_iff (by decide), spells_hexadecimal_iff (.inr rfl)]
  | case3 d digits hx hX =>
    rw [wordValue?_eq_some_iff (by decide), spells_octal_iff (not_or.mpr ⟨hx, hX⟩)]
  | case4 _ _ _ hoctal =>
    match cs with
    | [] => exact iff_of_false (by rintro ⟨⟩) (by rintro ⟨⟩)
    | first :: rest =>
      by_cases hfirst : first = '0'
      · subst hfirst
        cases rest with
        | nil =>
          rw [spells_zero_iff, eq_comm (a := n)]
          exact Option.some_inj
        | cons d digits => exact (hoctal d digits rfl).elim
      · rw [decimalValue?_eq_some_iff, spells_decimal_iff hfirst]

theorem value_int (text : String) : value ⟨.int, text⟩ =
    match intValue? (trim text.toList) with
    | some n => .ok (.int n)
    | none => .error (.badLiteral .int text) := by
  rw [value]
  cases intValue? (trim text.toList) <;> rfl

theorem value_int_eq_ok_iff (text : String) (v : Value) :
    value ⟨.int, text⟩ = .ok v ↔ ∃ n, v = .int n ∧ SpellsInteger (trim text.toList) n := by
  simp only [value_int, ← intValue?_eq_some_iff]
  cases intValue? (trim text.toList) with
  | none => simp
  | some m => simp [eq_comm]

theorem value_int_eq_error_iff (text : String) (fault : Fault) :
    value ⟨.int, text⟩ = .error fault ↔
      (∀ n, ¬SpellsInteger (trim text.toList) n) ∧ fault = .badLiteral .int text := by
  simp only [value_int, ← intValue?_eq_some_iff]
  cases intValue? (trim text.toList) with
  | none => simp [eq_comm]
  | some m => simp

theorem value_of_spells {cs : List Char} {n : Int32} (h : SpellsInteger cs n) :
    value ⟨.int, String.ofList cs⟩ = .ok (.int n) := by
  rw [value_int_eq_ok_iff, String.toList_ofList, ← (IsTrimmed.refl h.not_whiteSpace).eq_trim]
  exact ⟨n, rfl, h⟩

end Literal

theorem spells_toDigits_hexadecimal (n : Int32) :
    SpellsInteger ('0' :: 'x' :: Nat.toDigits 16 n.toBitVec.toNat) n :=
  .hexadecimal (.inl rfl) ⟨_, isNumeral_toDigits (by decide) _, n.toBitVec.isLt, by simp⟩

theorem spells_text {n : Int32} (hn : 0 ≤ n.toInt) : SpellsInteger (Value.int n).text.toList n := by
  obtain ⟨w, hw⟩ := Int.eq_ofNat_of_zero_le hn
  have htext : (Value.int n).text.toList = decimal w := by
    rw [Value.text, hw]
    exact String.toList_ofList
  rw [htext]
  by_cases hzero : w = 0
  · have hn : n = 0 := by rw [← Int32.toInt_inj, hw, hzero]; rfl
    subst hn
    subst hzero
    exact .zero
  · have hbound := n.toInt_lt
    have hnumeral : IsNumeral 10 (decimal w) w := isNumeral_toDigits (by decide) w
    have hhead := Json.Numeral.head?_decimal (Nat.pos_of_ne_zero hzero)
    cases hdigits : decimal w with
    | nil => exact absurd hdigits Nat.toDigits_ne_nil
    | cons first rest =>
      rw [hdigits] at hnumeral hhead
      rw [spells_decimal_iff fun h => hhead (congrArg some h)]
      exact ⟨w, hnumeral, by omega, hw⟩

/-- A literal has the value that the grammar gives for its text without the white space around it,
and where the grammar gives none, the fault quotes the whole text. Every integer is written in
hexadecimal, and one that is not negative also by its own text. -/
theorem int_literals_exact :
    (∀ text : String, ∃ u, IsTrimmed text.toList u ∧ (∀ u', IsTrimmed text.toList u' → u' = u) ∧
      (∀ v, Literal.value ⟨.int, text⟩ = .ok v ↔ ∃ n, v = .int n ∧ SpellsInteger u n) ∧
      (∀ fault, Literal.value ⟨.int, text⟩ = .error fault ↔
        (∀ n, ¬SpellsInteger u n) ∧ fault = .badLiteral .int text)) ∧
    (∀ n, ∃ digits w, IsNumeral 16 digits w ∧
      Literal.value ⟨.int, String.ofList ('0' :: 'x' :: digits)⟩ = .ok (.int n)) ∧
    ∀ n : Int32, 0 ≤ n.toInt → Literal.value ⟨.int, (Value.int n).text⟩ = .ok (.int n) := by
  refine ⟨fun text => ?_, fun n => ?_, fun n hn => ?_⟩
  · exact ⟨trim text.toList, isTrimmed_trim _, fun _ h => h.eq_trim,
      Literal.value_int_eq_ok_iff text, Literal.value_int_eq_error_iff text⟩
  · exact ⟨_, _, isNumeral_toDigits (by decide) n.toBitVec.toNat,
      Literal.value_of_spells (spells_toDigits_hexadecimal n)⟩
  · have hvalue := Literal.value_of_spells (spells_text hn)
    rwa [String.ofList_toList] at hvalue

example : Literal.value ⟨.int, "\u2003037777777777\n"⟩ = .ok (.int (-1)) := by rfl

end TolerantScript
