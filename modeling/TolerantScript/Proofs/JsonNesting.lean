import TolerantScript.Proofs.JsonText

/-!
How many arrays and objects a JSON text has open at once, counted on its characters alone. For the
text of a value this is how deep the value is nested.
-/

namespace TolerantScript.Json

inductive Place where
  | outside
  /-- In a string. -/
  | inside
  /-- In a string, after a backslash. -/
  | escaped

/-- The most arrays and objects that are open at once from here on, of which `opened` are open
already. A bracket in a string does not count. -/
def mostOpen : Place → (opened : Nat) → List Char → Nat
  | _, opened, [] => opened
  | .outside, opened, c :: cs =>
    if c = '"' then mostOpen .inside opened cs
    else if c = '[' ∨ c = '{' then mostOpen .outside (opened + 1) cs
    else if c = ']' ∨ c = '}' then max opened (mostOpen .outside (opened - 1) cs)
    else mostOpen .outside opened cs
  | .inside, opened, c :: cs =>
    if c = '"' then mostOpen .outside opened cs
    else if c = '\\' then mostOpen .escaped opened cs
    else mostOpen .inside opened cs
  | .escaped, opened, _ :: cs => mostOpen .inside opened cs

theorem le_mostOpen (place : Place) (opened : Nat) (cs : List Char) :
    opened ≤ mostOpen place opened cs := by
  fun_induction mostOpen place opened cs <;> omega

/-! Characters that open and close nothing. -/

theorem mostOpen_letter (c : Char) (d : Nat) (cs : List Char) :
    mostOpen .inside d ('\\' :: c :: cs) = mostOpen .inside d cs := by
  simp [mostOpen]

theorem mostOpen_inside {c : Char} (hquote : c ≠ '"') (hslash : c ≠ '\\') (d : Nat)
    (cs : List Char) : mostOpen .inside d (c :: cs) = mostOpen .inside d cs := by
  simp [mostOpen, hquote, hslash]

theorem mostOpen_escape (c : Char) (d : Nat) (cs : List Char) :
    mostOpen .inside d (escape c ++ cs) = mostOpen .inside d cs := by
  have hdigits : ∀ n < 16, Nat.digitChar n ≠ '"' ∧ Nat.digitChar n ≠ '\\' := by decide
  unfold escape
  split_ifs with hquote hslash hnewline hreturn htab hback hfeed hcontrol
  iterate 7 (next => exact mostOpen_letter _ d cs)
  · obtain ⟨hhigh, hhigh'⟩ := hdigits (c.toNat / 16) (by omega)
    obtain ⟨hlow, hlow'⟩ := hdigits (c.toNat % 16) (by omega)
    simp only [controlEscape, List.cons_append, List.nil_append]
    rw [mostOpen_letter, mostOpen_inside (by decide) (by decide),
      mostOpen_inside (by decide) (by decide), mostOpen_inside hhigh hhigh',
      mostOpen_inside hlow hlow']
  · exact mostOpen_inside hquote hslash d cs

theorem mostOpen_quoted (s : String) (d : Nat) (rest : List Char) :
    mostOpen .outside d (quoted s rest) = mostOpen .outside d rest := by
  have hinside : ∀ cs : List Char,
      mostOpen .inside d (cs.foldr (fun c cs => escape c ++ cs) ('"' :: rest)) =
        mostOpen .outside d rest := by
    intro cs
    induction cs with
    | nil => simp [mostOpen]
    | cons c cs ih => rw [List.foldr_cons, mostOpen_escape, ih]
  simpa [quoted, mostOpen] using hinside s.toList

def isNeutral (c : Char) : Bool :=
  c ≠ '"' ∧ c ≠ '[' ∧ c ≠ '{' ∧ c ≠ ']' ∧ c ≠ '}'

theorem mostOpen_neutral {c : Char} (h : isNeutral c = true) (d : Nat) (cs : List Char) :
    mostOpen .outside d (c :: cs) = mostOpen .outside d cs := by
  simp only [isNeutral, decide_eq_true_eq] at h
  simp [mostOpen, h]

theorem mostOpen_neutral_append {front : List Char} (h : ∀ c ∈ front, isNeutral c = true) (d : Nat)
    (cs : List Char) : mostOpen .outside d (front ++ cs) = mostOpen .outside d cs := by
  induction front with
  | nil => rfl
  | cons c front ih =>
    rw [List.cons_append, mostOpen_neutral (h c List.mem_cons_self),
      ih fun x hx => h x (List.mem_cons_of_mem c hx)]

theorem mostOpen_newLine (indent d : Nat) (cs : List Char) :
    mostOpen .outside d (newLine indent cs) = mostOpen .outside d cs := by
  rw [newLine, mostOpen_neutral (by decide), mostOpen_neutral_append]
  intro c hc
  rw [List.eq_of_mem_replicate hc]
  decide

theorem mostOpen_decimal (n d : Nat) (cs : List Char) :
    mostOpen .outside d (Text.decimal n ++ cs) = mostOpen .outside d cs := by
  refine mostOpen_neutral_append (fun c hc => ?_) d cs
  have hdigit := Numeral.isDigit_of_mem_decimal hc
  simp only [isNeutral, decide_eq_true_eq]
  refine ⟨?_, ?_, ?_, ?_, ?_⟩ <;> rintro rfl <;> cases hdigit

/-! Containers. -/

section

variable {α : Type} {text : α → List Char → List Char} {n : α → Nat} {xs : List α}

theorem mostOpen_following
    (h : ∀ x ∈ xs, ∀ d tail,
      mostOpen .outside d (text x tail) = max (d + n x) (mostOpen .outside d tail))
    (indent d : Nat) (rest : List Char) :
    mostOpen .outside d (following indent text rest xs) =
      max (d + highest n xs) (mostOpen .outside d rest) := by
  induction xs with
  | nil =>
    have hle := le_mostOpen .outside d rest
    rw [following, highest]
    omega
  | cons x xs ih =>
    rw [following, mostOpen_neutral (by decide), mostOpen_newLine, h x List.mem_cons_self,
      ih fun y hy => h y (List.mem_cons_of_mem x hy), highest]
    omega

theorem mostOpen_close {close : Char} (hclose : close = ']' ∨ close = '}') (d : Nat)
    (rest : List Char) :
    mostOpen .outside (d + 1) (close :: rest) = max (d + 1) (mostOpen .outside d rest) := by
  obtain rfl | rfl := hclose <;> simp [mostOpen]

theorem mostOpen_enclosed
    (h : ∀ x ∈ xs, ∀ d tail,
      mostOpen .outside d (text x tail) = max (d + n x) (mostOpen .outside d tail))
    {close : Char} (hclose : close = ']' ∨ close = '}') (indent d : Nat) (rest : List Char) :
    mostOpen .outside (d + 1) (enclosed indent text close rest xs) =
      max (d + (highest n xs + 1)) (mostOpen .outside d rest) := by
  cases xs with
  | nil =>
    rw [enclosed, mostOpen_close hclose, highest]
  | cons x xs =>
    rw [enclosed, mostOpen_newLine, h x List.mem_cons_self,
      mostOpen_following fun y hy => h y (List.mem_cons_of_mem x hy), mostOpen_newLine,
      mostOpen_close hclose, highest]
    omega

end

theorem mostOpen_memberText {indent d n : Nat} {m : String × Json} {rest : List Char}
    (h : mostOpen .outside d (m.2.write indent rest) = max (d + n) (mostOpen .outside d rest)) :
    mostOpen .outside d (memberText indent m rest) = max (d + n) (mostOpen .outside d rest) := by
  rw [memberText, mostOpen_quoted, mostOpen_neutral (by decide), mostOpen_neutral (by decide), h]

/-- The text of a value opens as many brackets at once as the value has levels. -/
theorem Exact.mostOpen_write {j : Json} (h : Exact j) (indent d : Nat) (rest : List Char) :
    mostOpen .outside d (j.write indent rest) =
      max (d + j.nesting) (mostOpen .outside d rest) := by
  have hrest := le_mostOpen .outside d rest
  induction h generalizing indent d rest with
  | null =>
    rw [write, nesting]
    iterate 4 rw [mostOpen_neutral (by decide)]
    omega
  | bool b =>
    cases b
    · rw [write, nesting]
      iterate 5 rw [mostOpen_neutral (by decide)]
      omega
    · rw [write, nesting]
      iterate 4 rw [mostOpen_neutral (by decide)]
      omega
  | natural n _ =>
    rw [write, mostOpen_decimal, nesting]
    omega
  | string s =>
    rw [write, mostOpen_quoted, nesting]
    omega
  | array items _ ih =>
    have hopen : ∀ cs, mostOpen .outside d ('[' :: cs) = mostOpen .outside (d + 1) cs := by
      simp [mostOpen]
    have hitems : ∀ item ∈ items, ∀ d tail, mostOpen .outside d (item.write (indent + 1) tail) =
        max (d + item.nesting) (mostOpen .outside d tail) :=
      fun item hitem d tail => ih item hitem (indent + 1) d tail (le_mostOpen .outside d tail)
    rw [write_array, hopen, mostOpen_enclosed hitems (.inl rfl), nesting_array]
  | object members _ ih =>
    have hopen : ∀ cs, mostOpen .outside d ('{' :: cs) = mostOpen .outside (d + 1) cs := by
      simp [mostOpen]
    have hmembers : ∀ m ∈ members, ∀ d tail,
        mostOpen .outside d (memberText (indent + 1) m tail) =
          max (d + m.2.nesting) (mostOpen .outside d tail) :=
      fun m hm d tail =>
        mostOpen_memberText (ih m hm (indent + 1) d tail (le_mostOpen .outside d tail))
    rw [write_object, hopen, mostOpen_enclosed hmembers (.inr rfl), nesting_object]

theorem Exact.mostOpen_text {j : Json} (h : Exact j) :
    mostOpen .outside 0 j.text.toList = j.nesting := by
  rw [text, String.toList_ofList, h.mostOpen_write, mostOpen]
  omega

example : mostOpen .outside 0 ['[', '"', '[', '\\', '"', '[', '"', ',', '[', ']', ']'] = 2 := by
  decide

end TolerantScript.Json
