import TolerantScript.Proofs.JsonScalar

/-!
JSON values written and read again. How deep arrays and objects are nested decides whether a reader
gets through the text: it gives the value back if it may open as many levels, and fails if it may
not.
-/

namespace TolerantScript.Json

/-! Nesting. -/

section Highest

variable {α : Type}

def highest (n : α → Nat) : List α → Nat
  | [] => 0
  | x :: xs => max (n x) (highest n xs)

theorem highest_le_iff {n : α → Nat} {k : Nat} {xs : List α} :
    highest n xs ≤ k ↔ ∀ x ∈ xs, n x ≤ k := by
  induction xs with
  | nil => simp [highest]
  | cons x xs ih => rw [highest, Nat.max_le, ih, List.forall_mem_cons]

theorem highest_map {β : Type} (n : β → Nat) (f : α → β) (xs : List α) :
    highest n (xs.map f) = highest (fun x => n (f x)) xs := by
  induction xs with
  | nil => rfl
  | cons x xs ih => simp [highest, ih]

end Highest

mutual

/-- How many arrays and objects of a value are inside each other. -/
def nesting : Json → Nat
  | .null | .bool _ | .natural _ | .number | .string _ => 0
  | .array items => nestingItems items + 1
  | .object members => nestingMembers members + 1

def nestingItems : List Json → Nat
  | [] => 0
  | item :: items => max item.nesting (nestingItems items)

def nestingMembers : List (String × Json) → Nat
  | [] => 0
  | (_, value) :: members => max value.nesting (nestingMembers members)

end

theorem nesting_array (items : List Json) : (array items).nesting = highest nesting items + 1 := by
  rw [nesting]
  induction items with
  | nil => rfl
  | cons item items ih =>
    rw [nestingItems, highest]
    omega

theorem nesting_object (members : List (String × Json)) :
    (object members).nesting = highest (fun m => m.2.nesting) members + 1 := by
  rw [nesting]
  induction members with
  | nil => rfl
  | cons member members ih =>
    rw [nestingMembers, highest]
    omega

/-- Values in which every number is natural and has 64 bits. -/
inductive Exact : Json → Prop where
  | null : Exact .null
  | bool (b : Bool) : Exact (.bool b)
  | natural (n : Nat) : n < UInt64.size → Exact (.natural n)
  | string (s : String) : Exact (.string s)
  | array (items : List Json) : (∀ item ∈ items, Exact item) → Exact (.array items)
  | object (members : List (String × Json)) : (∀ m ∈ members, Exact m.2) → Exact (.object members)

/-! The text between the brackets of an array or an object, whatever its items are. -/

section Container

variable {α σ : Type} {text : α → List Char → List Char}

def following (indent : Nat) (text : α → List Char → List Char) (rest : List Char) :
    List α → List Char
  | [] => rest
  | x :: xs => ',' :: newLine indent (text x (following indent text rest xs))

def enclosed (indent : Nat) (text : α → List Char → List Char) (close : Char) (rest : List Char) :
    List α → List Char
  | [] => close :: rest
  | x :: xs =>
    newLine (indent + 1)
      (text x (following (indent + 1) text (newLine indent (close :: rest)) xs))

theorem length_lt_newLine (indent : Nat) (cs : List Char) :
    cs.length < (newLine indent cs).length := by
  simp only [newLine, List.length_cons, List.length_append, List.length_replicate]
  omega

theorem parted_following (indent outer : Nat) (rest : List Char) (xs : List α) :
    Parted (following indent text (newLine outer rest) xs) := by
  intro c hc
  cases xs with
  | nil =>
    cases hc
    decide
  | cons x xs =>
    cases hc
    decide

def Opens (close : Char) (cs : List Char) : Prop :=
  ∃ c rest, cs = c :: rest ∧ isSpace c = false ∧ c ≠ close

theorem skipSpace_cons {c : Char} (h : isSpace c = false) (cs : List Char) :
    skipSpace (c :: cs) = c :: cs := by
  simp [skipSpace, h]

theorem skipSpace_bracket (cs : List Char) : skipSpace ('[' :: cs) = '[' :: cs :=
  skipSpace_cons (by decide) cs

theorem skipSpace_brace (cs : List Char) : skipSpace ('{' :: cs) = '{' :: cs :=
  skipSpace_cons (by decide) cs

theorem skipSpace_newLine (indent : Nat) (cs : List Char) :
    skipSpace (newLine indent cs) = skipSpace cs := by
  have hblanks : ∀ c ∈ List.replicate (2 * indent) ' ', isSpace c = true := by
    intro c hc
    rw [List.eq_of_mem_replicate hc]
    decide
  have hbreak : isSpace '\n' = true := by decide
  rw [newLine, skipSpace, List.dropWhile_cons_of_pos hbreak, List.dropWhile_append_of_pos hblanks,
    skipSpace]

theorem next_closed {close : Char} (hclose : isSpace close = false) (first : Bool)
    (rest : List Char) : next close first (close :: rest) = .ok (.closed rest) := by
  simp [next, skipSpace_cons hclose]

theorem next_newLine (close : Char) (first : Bool) (indent : Nat) (cs : List Char) :
    next close first (newLine indent cs) = next close first cs := by
  rw [next, skipSpace_newLine, next]

theorem next_first {close : Char} {cs : List Char} (h : Opens close cs) :
    next close true cs = .ok (.item cs) := by
  obtain ⟨c, rest, rfl, hspace, hopen⟩ := h
  simp [next, skipSpace_cons hspace, hopen]

theorem next_comma {close : Char} (hcomma : close ≠ ',') (indent : Nat) {cs : List Char}
    (h : Opens close cs) : next close false (',' :: newLine indent cs) = .ok (.item cs) := by
  obtain ⟨c, rest, rfl, hspace, hopen⟩ := h
  have hskip : skipSpace (',' :: newLine indent (c :: rest)) = ',' :: newLine indent (c :: rest) :=
    skipSpace_cons (by decide) _
  simp [next, hskip, skipSpace_newLine, skipSpace_cons hspace, hopen, hcomma.symm]

variable {close : Char} {item : σ → Reader σ}

theorem readItems_closed {first : Bool} {cs rest : List Char}
    (h : next close first cs = .ok (.closed rest)) (most : Nat) (acc : σ) :
    readItems close item (most + 1) first acc cs = .ok (acc, rest) := by
  rw [readItems, h]
  rfl

theorem readItems_item {first : Bool} {cs body : List Char}
    (h : next close first cs = .ok (.item body)) (most : Nat) (acc : σ) :
    readItems close item (most + 1) first acc cs =
      item acc body >>= fun r => readItems close item most false r.1 r.2 := by
  rw [readItems, h]
  rfl

/-- What `item` does with the text of `x`: it takes `x` into account by `f` if `x` is nested no
deeper than `levels`, and fails if it is. -/
structure Takes (close : Char) (bound levels : Nat) (n : α → Nat) (f : σ → α → σ)
    (text : α → List Char → List Char) (item : σ → Reader σ) (x : α) : Prop where
  opens (tail : List Char) : Opens close (text x tail)
  longer (tail : List Char) : tail.length ≤ (text x tail).length
  read (acc : σ) (tail : List Char) : Parted tail → (text x tail).length < bound →
    item acc (text x tail) = if n x ≤ levels then .ok (f acc x, tail) else .error .malformed

variable {bound levels : Nat} {n : α → Nat} {f : σ → α → σ}

theorem Takes.readItems_cons {x : α} (hx : Takes close bound levels n f text item x) {first : Bool}
    {acc result : σ} {cs tail rest : List Char} {most deepest : Nat}
    (hnext : next close first cs = .ok (.item (text x tail))) (htail : Parted tail)
    (hbound : (text x tail).length < bound)
    (hrest : readItems close item most false (f acc x) tail =
      if deepest ≤ levels then .ok (result, rest) else .error .malformed) :
    readItems close item (most + 1) first acc cs =
      if max (n x) deepest ≤ levels then .ok (result, rest) else .error .malformed := by
  rw [readItems_item hnext, hx.read acc tail htail hbound]
  by_cases hn : n x ≤ levels
  · simp only [Nat.max_le, hn, true_and]
    exact hrest
  · rw [if_neg hn, if_neg (by omega)]
    rfl

/-- The items after the first are read to the end, or else one of them is nested too deep. -/
theorem readItems_following (hclose : isSpace close = false) (hcomma : close ≠ ',') {xs : List α}
    (h : ∀ x ∈ xs, Takes close bound levels n f text item x) (indent outer : Nat)
    (rest : List Char) (most : Nat) (acc : σ)
    (hmost : (following indent text (newLine outer (close :: rest)) xs).length < most)
    (hbound : (following indent text (newLine outer (close :: rest)) xs).length < bound) :
    readItems close item most false acc (following indent text (newLine outer (close :: rest)) xs) =
      if highest n xs ≤ levels then .ok (xs.foldl f acc, rest) else .error .malformed := by
  -- Every item uses up some of the text, so a count of items that the text's length supplies
  -- never ends before the text does.
  induction xs generalizing acc most with
  | nil =>
    obtain ⟨k, rfl⟩ : ∃ k, most = k + 1 := ⟨most - 1, by omega⟩
    have hend : next close false (newLine outer (close :: rest)) = .ok (.closed rest) := by
      rw [next_newLine, next_closed hclose]
    simpa [following, highest] using readItems_closed hend k acc
  | cons x xs ih =>
    obtain ⟨k, rfl⟩ : ∃ k, most = k + 1 := ⟨most - 1, by omega⟩
    have hx := h x List.mem_cons_self
    have htail : Parted (following indent text (newLine outer (close :: rest)) xs) :=
      parted_following indent outer (close :: rest) xs
    rw [following, List.length_cons] at hmost hbound
    rw [following, highest, List.foldl_cons]
    generalize following indent text (newLine outer (close :: rest)) xs = tail at *
    have hline := length_lt_newLine indent (text x tail)
    have hlonger := hx.longer tail
    have hnext := next_comma hcomma indent (hx.opens tail)
    exact hx.readItems_cons hnext htail (by omega)
      (ih (fun y hy => h y (List.mem_cons_of_mem x hy)) k (f acc x) (by omega) (by omega))

theorem readItems_enclosed (hclose : isSpace close = false) (hcomma : close ≠ ',') {xs : List α}
    (h : ∀ x ∈ xs, Takes close bound levels n f text item x) (indent : Nat) (rest : List Char)
    (acc : σ) (hbound : (enclosed indent text close rest xs).length < bound) :
    readItems close item bound true acc (enclosed indent text close rest xs) =
      if highest n xs ≤ levels then .ok (xs.foldl f acc, rest) else .error .malformed := by
  obtain ⟨k, hk⟩ : ∃ k, bound = k + 1 := ⟨bound - 1, by omega⟩
  cases xs with
  | nil =>
    rw [hk]
    simpa [enclosed, highest] using readItems_closed (next_closed hclose true rest) k acc
  | cons x xs =>
    have hx := h x List.mem_cons_self
    have htail : Parted (following (indent + 1) text (newLine indent (close :: rest)) xs) :=
      parted_following (indent + 1) indent (close :: rest) xs
    have hrest := readItems_following hclose hcomma (fun y hy => h y (List.mem_cons_of_mem x hy))
      (indent + 1) indent rest k (f acc x)
    rw [enclosed] at hbound
    rw [enclosed, highest, List.foldl_cons, hk]
    generalize following (indent + 1) text (newLine indent (close :: rest)) xs = tail at *
    have hline := length_lt_newLine (indent + 1) (text x tail)
    have hlonger := hx.longer tail
    have hnext :
        next close true (newLine (indent + 1) (text x tail)) = .ok (.item (text x tail)) := by
      rw [next_newLine, next_first (hx.opens tail)]
    exact hx.readItems_cons hnext htail (by omega) (hrest (by omega) (by omega))

theorem readItems_enclosed_cons {x : α} {xs : List α} {indent : Nat} {rest : List Char}
    (hopens : ∀ tail, Opens close (text x tail)) (most : Nat) (acc : σ) :
    readItems close item (most + 1) true acc (enclosed indent text close rest (x :: xs)) =
      item acc (text x (following (indent + 1) text (newLine indent (close :: rest)) xs)) >>=
        fun r => readItems close item most false r.1 r.2 := by
  rw [enclosed]
  refine readItems_item ?_ most acc
  rw [next_newLine, next_first (hopens _)]

theorem following_map {β : Type} (f : β → α) (indent : Nat) (rest : List Char) (xs : List β) :
    following indent text rest (xs.map f) = following indent (fun x => text (f x)) rest xs := by
  induction xs with
  | nil => rfl
  | cons x xs ih => rw [List.map_cons, following, following, ih]

theorem enclosed_map {β : Type} (f : β → α) (indent : Nat) (rest : List Char) (xs : List β) :
    enclosed indent text close rest (xs.map f) =
      enclosed indent (fun x => text (f x)) close rest xs := by
  cases xs with
  | nil => rfl
  | cons x xs => rw [List.map_cons, enclosed, enclosed, following_map]

theorem length_le_following {indent : Nat} {rest : List Char} {xs : List α}
    (h : ∀ x ∈ xs, ∀ tail, tail.length ≤ (text x tail).length) :
    rest.length ≤ (following indent text rest xs).length := by
  induction xs with
  | nil => exact Nat.le_refl _
  | cons x xs ih =>
    have hxs := ih fun y hy => h y (List.mem_cons_of_mem x hy)
    have hx := h x List.mem_cons_self (following indent text rest xs)
    have hline := length_lt_newLine indent (text x (following indent text rest xs))
    rw [following, List.length_cons]
    omega

theorem length_following_lt_enclosed {indent : Nat} {rest : List Char} {x : α} {xs : List α}
    (h : ∀ tail, tail.length ≤ (text x tail).length) :
    (following (indent + 1) text (newLine indent (close :: rest)) xs).length <
      (enclosed indent text close rest (x :: xs)).length := by
  rw [enclosed]
  exact Nat.lt_of_le_of_lt (h _) (length_lt_newLine (indent + 1) _)

theorem length_lt_enclosed (indent : Nat) (close : Char) (rest : List Char) {xs : List α}
    (h : ∀ x ∈ xs, ∀ tail, tail.length ≤ (text x tail).length) :
    rest.length < (enclosed indent text close rest xs).length := by
  cases xs with
  | nil => exact Nat.lt_succ_self _
  | cons x xs =>
    have hend : rest.length < (newLine indent (close :: rest)).length :=
      Nat.lt_of_succ_lt (length_lt_newLine indent (close :: rest))
    have hxs : (newLine indent (close :: rest)).length ≤
        (following (indent + 1) text (newLine indent (close :: rest)) xs).length :=
      length_le_following fun y hy => h y (List.mem_cons_of_mem x hy)
    have hx : (following (indent + 1) text (newLine indent (close :: rest)) xs).length <
        (enclosed indent text close rest (x :: xs)).length :=
      length_following_lt_enclosed (h x List.mem_cons_self)
    omega

end Container

/-! Values in this form. -/

def memberText (indent : Nat) (m : String × Json) (rest : List Char) : List Char :=
  quoted m.1 (':' :: ' ' :: m.2.write indent rest)

theorem writeItems_eq (indent : Nat) (rest : List Char) (items : List Json) :
    writeItems indent rest items = following indent (fun j cs => j.write indent cs) rest items := by
  induction items with
  | nil => simp only [writeItems, following]
  | cons item items ih => simp only [writeItems, following, ih]

theorem writeMembers_eq (indent : Nat) (rest : List Char) (members : List (String × Json)) :
    writeMembers indent rest members = following indent (memberText indent) rest members := by
  induction members with
  | nil => simp only [writeMembers, following]
  | cons member members ih => simp only [writeMembers, following, memberText, ih]

theorem write_array (indent : Nat) (rest : List Char) (items : List Json) :
    (array items).write indent rest =
      '[' :: enclosed indent (fun j cs => j.write (indent + 1) cs) ']' rest items := by
  cases items <;> simp only [write, enclosed, writeItems_eq]

theorem write_object (indent : Nat) (rest : List Char) (members : List (String × Json)) :
    (object members).write indent rest =
      '{' :: enclosed indent (memberText (indent + 1)) '}' rest members := by
  cases members <;> simp only [write, enclosed, writeMembers_eq, memberText]

theorem length_lt_quoted (s : String) (rest : List Char) :
    rest.length < (quoted s rest).length := by
  have hle : ∀ cs : List Char,
      rest.length < (cs.foldr (fun c cs => escape c ++ cs) ('"' :: rest)).length := by
    intro cs
    induction cs with
    | nil => exact Nat.lt_succ_self _
    | cons c cs ih =>
      rw [List.foldr_cons, List.length_append]
      omega
  exact Nat.lt_succ_of_lt (hle s.toList)

theorem length_lt_memberText (indent : Nat) (m : String × Json) (rest : List Char) :
    (m.2.write indent rest).length < (memberText indent m rest).length := by
  have hquoted := length_lt_quoted m.1 (':' :: ' ' :: m.2.write indent rest)
  simp only [List.length_cons] at hquoted
  rw [memberText]
  omega

theorem length_le_memberText {indent : Nat} {m : String × Json} {rest : List Char}
    (h : rest.length ≤ (m.2.write indent rest).length) :
    rest.length ≤ (memberText indent m rest).length :=
  Nat.le_of_lt (Nat.lt_of_le_of_lt h (length_lt_memberText indent m rest))

theorem length_le_write {j : Json} (h : Exact j) (indent : Nat) (rest : List Char) :
    rest.length ≤ (j.write indent rest).length := by
  induction h generalizing indent rest with
  | null =>
    simp only [write, List.length_cons]
    omega
  | bool b =>
    cases b <;> simp only [write, List.length_cons] <;> omega
  | natural n _ => simp [write]
  | string s =>
    have := length_lt_quoted s rest
    rw [write]
    omega
  | array items _ ih =>
    have := length_lt_enclosed indent ']' rest
      fun item hitem tail => ih item hitem (indent + 1) tail
    rw [write_array, List.length_cons]
    omega
  | object members _ ih =>
    have hlonger := length_lt_enclosed indent '}' rest
      fun m hm tail => length_le_memberText (ih m hm (indent + 1) tail)
    rw [write_object, List.length_cons]
    exact Nat.le_succ_of_le (Nat.le_of_lt hlonger)

theorem opens_of_isDigit {c : Char} (h : c.isDigit = true) :
    isSpace c = false ∧ c ≠ ']' ∧ c ≠ '[' ∧ c ≠ '{' := by
  refine ⟨?_, ?_, ?_, ?_⟩
  · simp only [isSpace, Bool.or_eq_false_iff, decide_eq_false_iff_not]
    refine ⟨⟨⟨?_, ?_⟩, ?_⟩, ?_⟩ <;> rintro rfl <;> cases h
  all_goals
    rintro rfl
    cases h

theorem decimal_eq_cons (n : Nat) (rest : List Char) :
    ∃ d ds, Text.decimal n ++ rest = d :: ds ∧ d.isDigit = true := by
  cases hdigits : Text.decimal n with
  | nil => exact absurd hdigits Nat.toDigits_ne_nil
  | cons d ds =>
    exact ⟨d, ds ++ rest, rfl, Numeral.isDigit_of_mem_decimal (hdigits ▸ List.mem_cons_self)⟩

theorem opens_write (j : Json) (indent : Nat) (rest : List Char) :
    Opens ']' (j.write indent rest) := by
  cases j with
  | null => exact ⟨'n', _, by rw [write], by decide, by decide⟩
  | bool b =>
    cases b
    · exact ⟨'f', _, by rw [write], by decide, by decide⟩
    · exact ⟨'t', _, by rw [write], by decide, by decide⟩
  | natural n =>
    obtain ⟨d, ds, hdigits, hd⟩ := decimal_eq_cons n rest
    obtain ⟨hspace, hopen, -⟩ := opens_of_isDigit hd
    exact ⟨d, ds, by rw [write, hdigits], hspace, hopen⟩
  | number => exact ⟨'0', _, by rw [write], by decide, by decide⟩
  | string s => exact ⟨'"', _, by rw [write, quoted], by decide, by decide⟩
  | array items => exact ⟨'[', _, write_array .., by decide, by decide⟩
  | object members => exact ⟨'{', _, write_object .., by decide, by decide⟩

/-! Values read. -/

theorem readValue_scalar (most levels : Nat) {c : Char} (hspace : isSpace c = false)
    (harray : c ≠ '[') (hobject : c ≠ '{') (cs : List Char) :
    readValue most levels (c :: cs) = readScalar (c :: cs) := by
  cases levels with
  | zero =>
    simp only [readValue, skipSpace_cons hspace]
    split <;> simp_all
  | succ levels =>
    simp only [readValue, skipSpace_cons hspace]
    split <;> simp_all

theorem readValue_blank (most levels : Nat) (cs : List Char) :
    readValue most levels (' ' :: cs) = readValue most levels cs := by
  have hskip : skipSpace (' ' :: cs) = skipSpace cs := List.dropWhile_cons_of_pos (by decide)
  cases levels with
  | zero => simp only [readValue, hskip]
  | succ levels => simp only [readValue, hskip]

theorem readColon_colon (cs : List Char) : readColon (':' :: cs) = .ok cs := by
  simp only [readColon, skipSpace_cons (show isSpace ':' = false by decide), if_pos]

theorem opens_memberText (indent : Nat) (m : String × Json) (rest : List Char) :
    Opens '}' (memberText indent m rest) :=
  ⟨'"', _, rfl, by decide, by decide⟩

theorem readMember_memberText {σ : Type} (value : σ → String → Reader σ) (acc : σ) (indent : Nat)
    (m : String × Json) (rest : List Char) :
    readMember value acc (memberText indent m rest) =
      value acc m.1 (':' :: ' ' :: m.2.write indent rest) := by
  obtain ⟨cs, hquoted, hread⟩ := Quoted.read_quoted m.1 (':' :: ' ' :: m.2.write indent rest)
  rw [memberText, hquoted, readMember, hread]
  rfl

/-- Read from its text, whatever follows, the value comes back if as many levels may be opened as it
has, and reading fails if it has more. -/
def Recovers (most : Nat) (j : Json) : Prop :=
  ∀ levels indent tail, Parted tail → (j.write indent tail).length < most →
    readValue most levels (j.write indent tail) =
      if j.nesting ≤ levels then .ok (j, tail) else .error .malformed

theorem Recovers.takes_item {most : Nat} {j : Json} (h : Recovers most j) (hexact : Exact j)
    (levels indent : Nat) :
    Takes ']' most levels nesting (fun acc v => v :: acc) (fun j cs => j.write indent cs)
      (fun acc cs => do
        let (v, rest) ← readValue most levels cs
        return (v :: acc, rest)) j where
  opens := opens_write j indent
  longer := length_le_write hexact indent
  read acc tail htail hbound := by
    rw [h levels indent tail htail hbound]
    split <;> rfl

theorem Recovers.takes_member {σ : Type} {most levels : Nat} {m : String × Json}
    (h : Recovers most m.2) (hexact : Exact m.2) (indent : Nat) {value : σ → String → Reader σ}
    {f : σ → String × Json → σ}
    (hvalue : ∀ acc cs, value acc m.1 (':' :: cs) = do
      let (v, rest) ← readValue most levels cs
      return (f acc (m.1, v), rest)) :
    Takes '}' most levels (fun m => m.2.nesting) f (memberText indent) (readMember value) m where
  opens := opens_memberText indent m
  longer tail := length_le_memberText (length_le_write hexact indent tail)
  read acc tail htail hbound := by
    have hlength := Nat.lt_trans (length_lt_memberText indent m tail) hbound
    rw [readMember_memberText, hvalue, readValue_blank, h levels indent tail htail hlength]
    split <;> rfl

theorem recovers_array {most : Nat} {items : List Json} (hexact : ∀ item ∈ items, Exact item)
    (h : ∀ item ∈ items, Recovers most item) : Recovers most (.array items) := by
  intro levels indent tail htail hmost
  rw [write_array] at hmost ⊢
  cases levels with
  | zero =>
    rw [nesting_array, if_neg (by omega)]
    simp only [readValue, skipSpace_bracket]
  | succ levels =>
    have hread := readItems_enclosed (by decide) (by decide)
      (fun item hitem => (h item hitem).takes_item (hexact item hitem) levels (indent + 1))
      indent tail [] (Nat.lt_of_succ_lt hmost)
    simp only [readValue, skipSpace_bracket, hread, nesting_array, Nat.add_le_add_iff_right]
    split <;> simp

theorem recovers_object {most : Nat} {members : List (String × Json)}
    (hexact : ∀ m ∈ members, Exact m.2) (h : ∀ m ∈ members, Recovers most m.2) :
    Recovers most (.object members) := by
  intro levels indent tail htail hmost
  rw [write_object] at hmost ⊢
  cases levels with
  | zero =>
    rw [nesting_object, if_neg (by omega)]
    simp only [readValue, skipSpace_brace]
  | succ levels =>
    have htakes : ∀ m ∈ members, Takes '}' most levels (fun m => m.2.nesting)
        (fun acc m => m :: acc) (memberText (indent + 1))
        (readMember fun acc key cs => do
          let (v, rest) ← readValue most levels (← readColon cs)
          return ((key, v) :: acc, rest)) m := by
      intro m hm
      refine (h m hm).takes_member (hexact m hm) (indent + 1) fun acc cs => ?_
      rw [readColon_colon]
      rfl
    have hread := readItems_enclosed (by decide) (by decide) htakes indent tail []
      (Nat.lt_of_succ_lt hmost)
    simp only [readValue, skipSpace_brace, hread, nesting_object, Nat.add_le_add_iff_right]
    split <;> simp

theorem Exact.recovers {j : Json} (h : Exact j) (most : Nat) : Recovers most j := by
  induction h with
  | null =>
    intro levels indent tail htail hmost
    rw [write, readValue_scalar most levels (by decide) (by decide) (by decide)]
    simp [readScalar, readWord, nesting]
  | bool b =>
    intro levels indent tail htail hmost
    cases b <;>
      rw [write, readValue_scalar most levels (by decide) (by decide) (by decide)] <;>
      simp [readScalar, readWord, nesting]
  | natural n hn =>
    intro levels indent tail htail hmost
    obtain ⟨d, ds, hdigits, hd⟩ := decimal_eq_cons n tail
    obtain ⟨hspace, -, harray, hobject⟩ := opens_of_isDigit hd
    have hread := readScalar_natural hn htail
    rw [hdigits] at hread
    rw [write, hdigits, readValue_scalar most levels hspace harray hobject, hread]
    simp [nesting]
  | string s =>
    intro levels indent tail htail hmost
    have hread := readScalar_quoted s tail
    rw [quoted] at hread
    rw [write, quoted, readValue_scalar most levels (by decide) (by decide) (by decide), hread]
    simp [nesting]
  | array items hexact ih => exact recovers_array hexact ih
  | object members hexact ih => exact recovers_object hexact ih

end TolerantScript.Json
