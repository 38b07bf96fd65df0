import TolerantScript.Proofs.JsonText

/-!
JSON texts in any layout. A text of a value is made of the value's tokens in their order, with any
space between them; a reader that may open as many levels as the value has gives the value back from
each of its texts.
-/

namespace TolerantScript.Json

/-! Tokens. -/

abbrev Token : Type := List Char

def listed : List (List Token) → List Token
  | [] => []
  | part :: parts => part ++ parts.flatMap ([','] :: ·)

mutual

def tokens : Json → List Token
  | .null => [['n', 'u', 'l', 'l']]
  | .bool true => [['t', 'r', 'u', 'e']]
  | .bool false => [['f', 'a', 'l', 's', 'e']]
  | .natural n => [Text.decimal n]
  | .number => [['0', '.', '0']]
  | .string s => [quoted s []]
  | .array items => ['['] :: (listed (tokensOfItems items) ++ [[']']])
  | .object members => ['{'] :: (listed (tokensOfMembers members) ++ [['}']])

def tokensOfItems : List Json → List (List Token)
  | [] => []
  | item :: items => item.tokens :: tokensOfItems items

def tokensOfMembers : List (String × Json) → List (List Token)
  | [] => []
  | (key, value) :: members => (quoted key [] :: [':'] :: value.tokens) :: tokensOfMembers members

end

def memberTokens (m : String × Json) : List Token := quoted m.1 [] :: [':'] :: m.2.tokens

theorem tokens_array (items : List Json) :
    (array items).tokens = ['['] :: (listed (items.map tokens) ++ [[']']]) := by
  have hitems : tokensOfItems items = items.map tokens := by
    induction items with
    | nil => rw [tokensOfItems, List.map_nil]
    | cons item items ih => rw [tokensOfItems, List.map_cons, ih]
  rw [tokens, hitems]

theorem tokens_object (members : List (String × Json)) :
    (object members).tokens = ['{'] :: (listed (members.map memberTokens) ++ [['}']]) := by
  have hmembers : tokensOfMembers members = members.map memberTokens := by
    induction members with
    | nil => rw [tokensOfMembers, List.map_nil]
    | cons member members ih => rw [tokensOfMembers, List.map_cons, ih, memberTokens]
  rw [tokens, hmembers]

theorem mem_listed {parts : List (List Token)} {t : Token} (h : t ∈ listed parts) :
    t = [','] ∨ ∃ part ∈ parts, t ∈ part := by
  cases parts with
  | nil => cases h
  | cons first parts =>
    obtain h | h := List.mem_append.mp h
    · exact .inr ⟨first, List.mem_cons_self, h⟩
    · obtain ⟨part, hpart, ht⟩ := List.mem_flatMap.mp h
      obtain rfl | ht := List.mem_cons.mp ht
      · exact .inl rfl
      · exact .inr ⟨part, List.mem_cons_of_mem first hpart, ht⟩

theorem length_part_le {parts : List (List Token)} {part : List Token} (h : part ∈ parts) :
    part.length ≤ (listed parts).length := by
  have hrest : ∀ parts : List (List Token), part ∈ parts →
      part.length ≤ (parts.flatMap ([','] :: ·)).length := by
    intro parts h
    obtain ⟨before, after, rfl⟩ := List.append_of_mem h
    simp only [List.flatMap_append, List.flatMap_cons, List.length_append, List.length_cons]
    omega
  cases parts with
  | nil => cases h
  | cons first parts =>
    rw [listed, List.length_append]
    obtain rfl | h := List.mem_cons.mp h
    · omega
    · have := hrest parts h
      omega

theorem length_parts_le {parts : List (List Token)} (h : ∀ part ∈ parts, part ≠ []) :
    parts.length ≤ (listed parts).length := by
  have hrest : ∀ parts : List (List Token), parts.length ≤ (parts.flatMap ([','] :: ·)).length := by
    intro parts
    induction parts with
    | nil => exact Nat.le_refl _
    | cons part parts ih =>
      simp only [List.flatMap_cons, List.length_append, List.length_cons]
      omega
  cases parts with
  | nil => exact Nat.le_refl _
  | cons part parts =>
    have hpart := List.length_pos_iff.mpr (h part List.mem_cons_self)
    have := hrest parts
    simp only [listed, List.length_append, List.length_cons]
    omega

/-! Texts. -/

/-- The text is the tokens in their order, with any space between them and at both ends. -/
inductive Spread : List Token → List Char → Prop where
  | blank {space : List Char} : (∀ c ∈ space, isSpace c = true) → Spread [] space
  | token {space cs : List Char} {t : Token} {ts : List Token} :
    (∀ c ∈ space, isSpace c = true) → Spread ts cs → Spread (t :: ts) (space ++ t ++ cs)

def Spells (j : Json) (text : String) : Prop := Spread j.tokens text.toList

namespace Spread

variable {ts : List Token} {cs : List Char}

theorem pad (h : Spread ts cs) (space : List Char) (hspace : ∀ c ∈ space, isSpace c = true) :
    Spread ts (space ++ cs) := by
  cases h with
  | blank hblank => exact .blank (List.forall_mem_append.mpr ⟨hspace, hblank⟩)
  | token hblank hrest =>
    rw [← List.append_assoc, ← List.append_assoc]
    exact .token (List.forall_mem_append.mpr ⟨hspace, hblank⟩) hrest

theorem beside {t : Token} (h : Spread ts cs) : Spread (t :: ts) (t ++ cs) :=
  @Spread.token [] cs t ts (List.forall_mem_nil _) h

theorem skipSpace_eq {c : Char} {t : Token} (h : Spread ((c :: t) :: ts) cs)
    (hc : isSpace c = false) : ∃ rest, skipSpace cs = c :: (t ++ rest) ∧ Spread ts rest := by
  cases h with
  | @token space rest _ _ hspace hrest =>
    refine ⟨rest, ?_, hrest⟩
    rw [skipSpace, List.append_assoc, List.dropWhile_append_of_pos hspace, List.cons_append,
      List.dropWhile_cons_of_neg (by simp [hc])]

theorem skipSpace_nil (h : Spread [] cs) : skipSpace cs = [] := by
  cases h with
  | blank hspace =>
    have hskip : (cs ++ []).dropWhile isSpace = [] := List.dropWhile_append_of_pos hspace
    rwa [List.append_nil] at hskip

theorem length_le (hsome : ∀ t ∈ ts, t ≠ []) (h : Spread ts cs) : ts.length ≤ cs.length := by
  induction h with
  | blank _ => exact Nat.zero_le _
  | @token space cs t ts _ _ ih =>
    rw [List.forall_mem_cons] at hsome
    have ht := List.length_pos_iff.mpr hsome.1
    have hts := ih hsome.2
    simp only [List.length_append, List.length_cons]
    omega

end Spread

def compact (j : Json) : String := String.ofList j.tokens.flatten

theorem spells_compact (j : Json) : Spells j j.compact := by
  have hflatten : ∀ ts : List Token, Spread ts ts.flatten := by
    intro ts
    induction ts with
    | nil => exact .blank (List.forall_mem_nil _)
    | cons t ts ih => exact ih.beside
  rw [Spells, compact, String.toList_ofList]
  exact hflatten j.tokens

/-! Readers of texts. -/

/-- The tokens start with a character that is no space and does not close the container. -/
def Leads (close : Char) (ts : List Token) : Prop :=
  ∃ c t rest, ts = (c :: t) :: rest ∧ isSpace c = false ∧ c ≠ close

theorem Leads.ne_nil {close : Char} {ts : List Token} (h : Leads close ts) : ts ≠ [] := by
  obtain ⟨c, t, rest, rfl, -⟩ := h
  exact List.cons_ne_nil _ _

def Ends (ts : List Token) : Prop :=
  ∀ t, ts.head? = some t → t = [','] ∨ t = [']'] ∨ t = ['}']

theorem Spread.parted {ts : List Token} {cs : List Char} (h : Spread ts cs) (hends : Ends ts) :
    Parted cs := by
  have hspace : ∀ c, isSpace c = true → c.isDigit = false ∧ c ≠ '.' ∧ c ≠ 'e' ∧ c ≠ 'E' := by
    intro c hc
    simp only [isSpace, Bool.or_eq_true, decide_eq_true_eq] at hc
    obtain ((rfl | rfl) | rfl) | rfl := hc <;> decide
  intro c hc
  cases h with
  | blank hblank => exact hspace c (hblank c (List.mem_of_mem_head? hc))
  | @token space rest t ts hblank _ =>
    cases space with
    | cons d space =>
      cases hc
      exact hspace c (hblank c List.mem_cons_self)
    | nil =>
      obtain rfl | rfl | rfl := hends t rfl <;> cases hc <;> decide

section

variable {α : Type}

/-- At the front of a text that goes on with the tokens, and then with something that does not
belong to them, the reader takes just the tokens and gives `a`. -/
def Reads (read : Reader α) (ts : List Token) (a : α) : Prop :=
  ∀ after cs, Ends after → Spread (ts ++ after) cs → skipSpace cs = cs →
    ∃ rest, read cs = .ok (a, rest) ∧ Spread after rest

theorem Reads.map {β : Type} {read : Reader α} {ts : List Token} {a : α} (h : Reads read ts a)
    (f : α → β) :
    Reads (fun cs => do
      let (v, rest) ← read cs
      return (f v, rest)) ts (f a) := by
  intro after cs hends hcs hfront
  obtain ⟨rest, hread, hrest⟩ := h after cs hends hcs hfront
  refine ⟨rest, ?_, hrest⟩
  simp only [hread]
  rfl

variable {ts after : List Token} {cs : List Char} {close : Char}

theorem Spread.front (h : Spread (ts ++ after) cs) (hts : Leads close ts) :
    Spread (ts ++ after) (skipSpace cs) ∧ skipSpace (skipSpace cs) = skipSpace cs ∧
      Opens close (skipSpace cs) := by
  obtain ⟨c, t, rest, rfl, hspace, hopen⟩ := hts
  obtain ⟨tail, hskip, htail⟩ := h.skipSpace_eq hspace
  rw [hskip]
  exact ⟨htail.beside, skipSpace_cons hspace _, c, t ++ tail, rfl, hspace, hopen⟩

theorem next_closes (hclose : isSpace close = false) (h : Spread ([close] :: after) cs)
    (first : Bool) : ∃ rest, next close first cs = .ok (.closed rest) ∧ Spread after rest := by
  obtain ⟨rest, hskip, hrest⟩ := h.skipSpace_eq hclose
  exact ⟨rest, by simp [next, hskip], hrest⟩

theorem next_starts (h : Spread (ts ++ after) cs) (hts : Leads close ts) :
    next close true cs = .ok (.item (skipSpace cs)) := by
  obtain ⟨-, hskip, c, rest, hcs, hspace, hopen⟩ := h.front hts
  simp [next, hcs, hopen]

theorem next_continues (hcomma : close ≠ ',') (h : Spread ([','] :: (ts ++ after)) cs)
    (hts : Leads close ts) :
    ∃ rest, next close false cs = .ok (.item (skipSpace rest)) ∧ Spread (ts ++ after) rest := by
  obtain ⟨rest, hskip, hrest⟩ := h.skipSpace_eq (by decide)
  obtain ⟨-, -, c, tail, hcs, hspace, hopen⟩ := hrest.front hts
  refine ⟨rest, ?_, hrest⟩
  simp [next, hskip, hcomma.symm, hcs, hopen]

variable {σ : Type} {item : σ → Reader σ} {text : α → List Token} {step : σ → α → Option σ}
  {xs : List α} {acc result : σ} {most : Nat}

theorem ends_continues (hclose : close = ']' ∨ close = '}') (parts : List (List Token))
    (after : List Token) : Ends (parts.flatMap ([','] :: ·) ++ [close] :: after) := by
  intro t ht
  cases parts with
  | nil =>
    cases ht
    obtain rfl | rfl := hclose <;> simp
  | cons part parts =>
    cases ht
    exact .inl rfl

/-- The items after the first, if what each of them adds to what was read before it is known. -/
theorem readItems_continues (hclose : close = ']' ∨ close = '}')
    (hleads : ∀ x ∈ xs, Leads close (text x))
    (hitem : ∀ x ∈ xs, ∀ acc acc', step acc x = some acc' → Reads (item acc) (text x) acc')
    (hfold : xs.foldlM step acc = some result) (hmost : xs.length < most)
    (h : Spread ((xs.map text).flatMap ([','] :: ·) ++ [close] :: after) cs) :
    ∃ rest, readItems close item most false acc cs = .ok (result, rest) ∧ Spread after rest := by
  have hspace : isSpace close = false := by obtain rfl | rfl := hclose <;> decide
  have hcomma : close ≠ ',' := by obtain rfl | rfl := hclose <;> decide
  obtain ⟨k, rfl⟩ : ∃ k, most = k + 1 := ⟨most - 1, by omega⟩
  induction xs generalizing acc cs k with
  | nil =>
    obtain ⟨rest, hnext, hrest⟩ := next_closes hspace h false
    cases hfold
    exact ⟨rest, readItems_closed hnext k result, hrest⟩
  | cons x xs ih =>
    rw [List.forall_mem_cons] at hleads hitem
    obtain ⟨acc', hstep, hfold⟩ := Option.bind_eq_some_iff.mp hfold
    rw [List.length_cons] at hmost
    obtain ⟨k', rfl⟩ : ∃ k', k = k' + 1 := ⟨k - 1, by omega⟩
    simp only [List.map_cons, List.flatMap_cons, List.cons_append, List.append_assoc] at h
    obtain ⟨body, hnext, hbody⟩ := next_continues hcomma h hleads.1
    obtain ⟨hfront, hskip, -⟩ := hbody.front hleads.1
    obtain ⟨rest, hread, hrest⟩ :=
      hitem.1 acc acc' hstep _ _ (ends_continues hclose _ _) hfront hskip
    rw [readItems_item hnext, hread]
    exact ih hleads.2 hitem.2 hfold hrest k' (by omega)

theorem readItems_listed (hclose : close = ']' ∨ close = '}')
    (hleads : ∀ x ∈ xs, Leads close (text x))
    (hitem : ∀ x ∈ xs, ∀ acc acc', step acc x = some acc' → Reads (item acc) (text x) acc')
    (hfold : xs.foldlM step acc = some result) (hmost : xs.length < most)
    (h : Spread (listed (xs.map text) ++ [close] :: after) cs) :
    ∃ rest, readItems close item most true acc cs = .ok (result, rest) ∧ Spread after rest := by
  obtain ⟨k, rfl⟩ : ∃ k, most = k + 1 := ⟨most - 1, by omega⟩
  cases xs with
  | nil =>
    obtain ⟨rest, hnext, hrest⟩ := next_closes (by obtain rfl | rfl := hclose <;> decide) h true
    cases hfold
    exact ⟨rest, readItems_closed hnext k acc, hrest⟩
  | cons x xs =>
    rw [List.forall_mem_cons] at hleads hitem
    obtain ⟨acc', hstep, hfold⟩ := Option.bind_eq_some_iff.mp hfold
    rw [List.length_cons] at hmost
    rw [List.map_cons, listed, List.append_assoc] at h
    obtain ⟨hfront, hskip, -⟩ := h.front hleads.1
    obtain ⟨rest, hread, hrest⟩ :=
      hitem.1 acc acc' hstep _ _ (ends_continues hclose _ _) hfront hskip
    rw [readItems_item (next_starts h hleads.1), hread]
    exact readItems_continues hclose hleads.2 hitem.2 hfold (by omega) hrest

theorem readItems_container (hclose : close = ']' ∨ close = '}') {start : Char}
    (hstart : isSpace start = false) (hleads : ∀ x ∈ xs, Leads close (text x))
    (hitem : ∀ x ∈ xs, ∀ acc acc', step acc x = some acc' → Reads (item acc) (text x) acc')
    (hfold : xs.foldlM step acc = some result)
    (hmost : ([start] :: (listed (xs.map text) ++ [[close]])).length ≤ most)
    (h : Spread ([start] :: (listed (xs.map text) ++ [[close]]) ++ after) cs) :
    ∃ body rest, skipSpace cs = start :: body ∧
      readItems close item most true acc body = .ok (result, rest) ∧ Spread after rest := by
  rw [List.cons_append, List.append_assoc] at h
  obtain ⟨body, hskip, hbody⟩ := h.skipSpace_eq hstart
  have hsome : ∀ part ∈ xs.map text, part ≠ [] := by
    intro part hpart
    obtain ⟨x, hx, rfl⟩ := List.mem_map.mp hpart
    exact (hleads x hx).ne_nil
  have hcount := length_parts_le hsome
  simp only [List.length_map, List.length_cons, List.length_append] at hmost hcount
  have hlength : xs.length < most := by omega
  obtain ⟨rest, hread, hrest⟩ := readItems_listed hclose hleads hitem hfold hlength hbody
  exact ⟨body, rest, hskip, hread, hrest⟩

end

/-! Values. -/

theorem quoted_append (s : String) (rest : List Char) : quoted s rest = quoted s [] ++ rest := by
  have hcontent : ∀ content : List Char,
      content.foldr (fun c cs => escape c ++ cs) ('"' :: rest) =
        content.foldr (fun c cs => escape c ++ cs) ['"'] ++ rest := by
    intro content
    induction content with
    | nil => rfl
    | cons c content ih => rw [List.foldr_cons, List.foldr_cons, ih, List.append_assoc]
  rw [quoted, quoted, hcontent, List.cons_append]

theorem leads_tokens (j : Json) : Leads ']' j.tokens := by
  cases j with
  | null => exact ⟨'n', _, _, by rw [tokens], by decide, by decide⟩
  | bool b =>
    cases b
    · exact ⟨'f', _, _, by rw [tokens], by decide, by decide⟩
    · exact ⟨'t', _, _, by rw [tokens], by decide, by decide⟩
  | natural n =>
    obtain ⟨d, ds, hdigits, hd⟩ := decimal_eq_cons n []
    obtain ⟨hspace, hopen, -⟩ := opens_of_isDigit hd
    rw [List.append_nil] at hdigits
    exact ⟨d, ds, [], by rw [tokens, hdigits], hspace, hopen⟩
  | number => exact ⟨'0', _, _, by rw [tokens], by decide, by decide⟩
  | string s => exact ⟨'"', _, _, by rw [tokens, quoted], by decide, by decide⟩
  | array items => exact ⟨'[', _, _, by rw [tokens], by decide, by decide⟩
  | object members => exact ⟨'{', _, _, by rw [tokens], by decide, by decide⟩

theorem leads_memberTokens (m : String × Json) : Leads '}' (memberTokens m) :=
  ⟨'"', _, _, rfl, by decide, by decide⟩

theorem length_tokens_item {items : List Json} {item : Json} (h : item ∈ items) :
    item.tokens.length ≤ (array items).tokens.length := by
  have hpart := length_part_le (List.mem_map_of_mem (f := tokens) h)
  rw [tokens_array, List.length_cons, List.length_append]
  omega

theorem length_tokens_member {members : List (String × Json)} {m : String × Json}
    (h : m ∈ members) : m.2.tokens.length ≤ (object members).tokens.length := by
  have hpart := length_part_le (List.mem_map_of_mem (f := memberTokens) h)
  rw [memberTokens, List.length_cons, List.length_cons] at hpart
  rw [tokens_object, List.length_cons, List.length_append]
  omega

theorem reads_scalar {j : Json} {c : Char} {t : Token} (hspace : isSpace c = false)
    (harray : c ≠ '[') (hobject : c ≠ '{')
    (h : ∀ rest, Parted rest → readScalar (c :: (t ++ rest)) = .ok (j, rest)) (most levels : Nat) :
    Reads (readValue most levels) [c :: t] j := by
  intro after cs hends hcs hfront
  obtain ⟨rest, hskip, hrest⟩ := hcs.skipSpace_eq hspace
  rw [hfront] at hskip
  refine ⟨rest, ?_, hrest⟩
  rw [hskip, readValue_scalar most levels hspace harray hobject, h rest (hrest.parted hends)]

theorem foldlM_cons {α : Type} (xs acc : List α) :
    xs.foldlM (fun acc x => some (x :: acc)) acc = some (xs.reverse ++ acc) := by
  induction xs generalizing acc with
  | nil => rfl
  | cons x xs ih =>
    rw [List.foldlM_cons, List.reverse_cons, List.append_assoc, List.singleton_append]
    exact ih (x :: acc)

theorem reads_array {items : List Json} {most levels : Nat}
    (h : ∀ item ∈ items, Reads (readValue most levels) item.tokens item)
    (hmost : (array items).tokens.length ≤ most) :
    Reads (readValue most (levels + 1)) (array items).tokens (.array items) := by
  intro after cs _ hcs _
  rw [tokens_array] at hmost hcs
  obtain ⟨body, rest, hskip, hread, hrest⟩ := readItems_container (.inl rfl) (by decide)
    (fun item _ => leads_tokens item)
    (fun item hitem acc acc' hacc => Option.some.inj hacc ▸ (h item hitem).map (· :: acc))
    (foldlM_cons items []) hmost hcs
  refine ⟨rest, ?_, hrest⟩
  simp only [readValue, hskip, hread]
  simp

theorem readValue_congr {cs cs' : List Char} (h : skipSpace cs = skipSpace cs')
    (most levels : Nat) : readValue most levels cs = readValue most levels cs' := by
  cases levels with
  | zero => simp only [readValue, h]
  | succ levels => simp only [readValue, h]

theorem reads_member {σ : Type} {m : String × Json} {value : σ → String → Reader σ} {acc acc' : σ}
    (h : ∀ after cs rest, Ends after → readColon rest = .ok cs → Spread (m.2.tokens ++ after) cs →
      ∃ tail, value acc m.1 rest = .ok (acc', tail) ∧ Spread after tail) :
    Reads (readMember value acc) (memberTokens m) acc' := by
  intro after cs hends hcs hfront
  obtain ⟨rest, hskip, hrest⟩ := hcs.skipSpace_eq (by decide)
  obtain ⟨inner, hquoted, hname⟩ := Quoted.read_quoted m.1 rest
  have hcs : cs = '"' :: inner := by
    rw [← hquoted, quoted_append, ← hfront, hskip]
    rfl
  obtain ⟨cs', hcolon, hvalue⟩ := hrest.skipSpace_eq (by decide)
  obtain ⟨tail, hread, htail⟩ := h after cs' rest hends (by simp [readColon, hcolon]) hvalue
  refine ⟨tail, ?_, htail⟩
  rw [hcs, readMember, hname]
  exact hread

theorem Reads.member {σ : Type} {most levels : Nat} {m : String × Json}
    (h : Reads (readValue most levels) m.2.tokens m.2) {value : σ → String → Reader σ} {acc : σ}
    {f : Json → σ} (hvalue : ∀ cs, value acc m.1 cs = do
      let (v, rest) ← readValue most levels (← readColon cs)
      return (f v, rest)) :
    Reads (readMember value acc) (memberTokens m) (f m.2) := by
  refine reads_member fun after cs rest hends hcolon hcs => ?_
  obtain ⟨hfront, hskip, -⟩ := hcs.front (leads_tokens m.2)
  obtain ⟨tail, hread, htail⟩ := h after (skipSpace cs) hends hfront hskip
  refine ⟨tail, ?_, htail⟩
  rw [readValue_congr hskip] at hread
  rw [hvalue, hcolon]
  simp [hread]

theorem reads_object {members : List (String × Json)} {most levels : Nat}
    (h : ∀ m ∈ members, Reads (readValue most levels) m.2.tokens m.2)
    (hmost : (object members).tokens.length ≤ most) :
    Reads (readValue most (levels + 1)) (object members).tokens (.object members) := by
  intro after cs _ hcs _
  rw [tokens_object] at hmost hcs
  have hmember : ∀ m ∈ members, ∀ acc acc', some (m :: acc) = some acc' →
      Reads (readMember (fun acc key cs => do
        let (v, rest) ← readValue most levels (← readColon cs)
        return ((key, v) :: acc, rest)) acc) (memberTokens m) acc' := by
    intro m hm acc acc' hacc
    cases hacc
    exact (h m hm).member (f := fun v => (m.1, v) :: acc) fun _ => rfl
  obtain ⟨body, rest, hskip, hread, hrest⟩ := readItems_container (.inr rfl) (by decide)
    (fun m _ => leads_memberTokens m) hmember (foldlM_cons members []) hmost hcs
  refine ⟨rest, ?_, hrest⟩
  simp only [readValue, hskip, hread]
  simp

theorem Exact.reads {j : Json} (h : Exact j) {most levels : Nat} (hmost : j.tokens.length ≤ most)
    (hlevels : j.nesting ≤ levels) : Reads (readValue most levels) j.tokens j := by
  induction h generalizing levels with
  | null =>
    rw [tokens]
    refine reads_scalar (by decide) (by decide) (by decide) (fun rest _ => ?_) most levels
    simp [readScalar, readWord]
  | bool b =>
    cases b
    all_goals
      rw [tokens]
      refine reads_scalar (by decide) (by decide) (by decide) (fun rest _ => ?_) most levels
      simp [readScalar, readWord]
  | natural n hn =>
    obtain ⟨d, ds, hdigits, hd⟩ := decimal_eq_cons n []
    obtain ⟨hspace, -, harray, hobject⟩ := opens_of_isDigit hd
    rw [List.append_nil] at hdigits
    rw [tokens, hdigits]
    refine reads_scalar hspace harray hobject (fun rest hrest => ?_) most levels
    rw [← readScalar_natural hn hrest, hdigits, List.cons_append]
  | string s =>
    rw [tokens]
    refine reads_scalar (by decide) (by decide) (by decide) (fun rest _ => ?_) most levels
    rw [← readScalar_quoted s rest, quoted_append]
    rfl
  | array items _ ih =>
    rw [nesting_array] at hlevels
    obtain ⟨k, rfl⟩ : ∃ k, levels = k + 1 := ⟨levels - 1, by omega⟩
    have hnested := highest_le_iff.mp (Nat.le_of_succ_le_succ hlevels)
    refine reads_array (fun item hitem => ih item hitem ?_ (hnested item hitem)) hmost
    have := length_tokens_item hitem
    omega
  | object members _ ih =>
    rw [nesting_object] at hlevels
    obtain ⟨k, rfl⟩ : ∃ k, levels = k + 1 := ⟨levels - 1, by omega⟩
    have hnested := highest_le_iff.mp (Nat.le_of_succ_le_succ hlevels)
    refine reads_object (fun m hm => ih m hm ?_ (hnested m hm)) hmost
    have := length_tokens_member hm
    omega

/-- No token is empty, so a text has at least as many characters as tokens. -/
theorem Exact.ne_nil_of_mem_tokens {j : Json} (h : Exact j) : ∀ t ∈ j.tokens, t ≠ [] := by
  have hcontainer : ∀ (start close : Char) (parts : List (List Token)),
      (∀ part ∈ parts, ∀ t ∈ part, t ≠ []) →
        ∀ t ∈ [start] :: (listed parts ++ [[close]]), t ≠ [] := by
    intro start close parts hparts t ht
    obtain rfl | ht := List.mem_cons.mp ht
    · exact List.cons_ne_nil _ _
    obtain ht | ht := List.mem_append.mp ht
    · obtain rfl | ⟨part, hpart, ht⟩ := mem_listed ht
      · exact List.cons_ne_nil _ _
      · exact hparts part hpart t ht
    · rw [List.mem_singleton.mp ht]
      exact List.cons_ne_nil _ _
  induction h with
  | null => simp [tokens]
  | bool b => cases b <;> simp [tokens]
  | natural n _ => simp [tokens, Text.decimal]
  | string s => simp [tokens, quoted]
  | array items _ ih =>
    rw [tokens_array]
    refine hcontainer _ _ _ fun part hpart => ?_
    obtain ⟨item, hitem, rfl⟩ := List.mem_map.mp hpart
    exact ih item hitem
  | object members _ ih =>
    rw [tokens_object]
    refine hcontainer _ _ _ fun part hpart => ?_
    obtain ⟨m, hm, rfl⟩ := List.mem_map.mp hpart
    simpa [memberTokens, quoted] using ih m hm

theorem Exact.length_tokens_le {j : Json} (h : Exact j) {text : String} (htext : Spells j text) :
    j.tokens.length ≤ text.toList.length :=
  htext.length_le h.ne_nil_of_mem_tokens

/-! The text that is written for a value. -/

theorem Spread.newLine {ts : List Token} {cs : List Char} (h : Spread ts cs) (indent : Nat) :
    Spread ts (Json.newLine indent cs) := by
  refine h.pad ('\n' :: List.replicate (2 * indent) ' ') fun c hc => ?_
  obtain rfl | hc := List.mem_cons.mp hc
  · decide
  · rw [List.eq_of_mem_replicate hc]
    decide

section

variable {α : Type} {write : α → List Char → List Char} {text : α → List Token} {xs : List α}
  {ts : List Token} {rest : List Char}

theorem spread_following
    (h : ∀ x ∈ xs, ∀ ts rest, Spread ts rest → Spread (text x ++ ts) (write x rest)) (indent : Nat)
    (hrest : Spread ts rest) :
    Spread ((xs.map text).flatMap ([','] :: ·) ++ ts) (following indent write rest xs) := by
  induction xs with
  | nil => exact hrest
  | cons x xs ih =>
    rw [List.forall_mem_cons] at h
    simp only [following, List.map_cons, List.flatMap_cons, List.cons_append, List.append_assoc]
    exact ((h.1 _ _ (ih h.2)).newLine indent).beside

theorem spread_enclosed
    (h : ∀ x ∈ xs, ∀ ts rest, Spread ts rest → Spread (text x ++ ts) (write x rest)) (indent : Nat)
    (close : Char) (hrest : Spread ts rest) :
    Spread (listed (xs.map text) ++ [close] :: ts) (enclosed indent write close rest xs) := by
  have hclose : Spread ([close] :: ts) (close :: rest) := hrest.beside
  cases xs with
  | nil => exact hclose
  | cons x xs =>
    rw [List.forall_mem_cons] at h
    rw [enclosed, List.map_cons, listed, List.append_assoc]
    exact (h.1 _ _ (spread_following h.2 (indent + 1) (hclose.newLine indent))).newLine (indent + 1)

end

theorem Exact.spread_write {j : Json} (h : Exact j) (indent : Nat) {ts : List Token}
    {rest : List Char} (hrest : Spread ts rest) :
    Spread (j.tokens ++ ts) (j.write indent rest) := by
  induction h generalizing indent ts rest with
  | null =>
    rw [tokens, write]
    exact hrest.beside
  | bool b =>
    cases b
    all_goals
      rw [tokens, write]
      exact hrest.beside
  | natural n _ =>
    rw [tokens, write]
    exact hrest.beside
  | string s =>
    rw [tokens, write, quoted_append s rest]
    exact hrest.beside
  | array items _ ih =>
    rw [tokens_array, write_array, List.cons_append, List.append_assoc]
    refine (spread_enclosed (fun item hitem ts rest hrest => ?_) indent ']' hrest).beside
    exact ih item hitem (indent + 1) hrest
  | object members _ ih =>
    rw [tokens_object, write_object, List.cons_append, List.append_assoc]
    refine (spread_enclosed (fun m hm ts rest hrest => ?_) indent '}' hrest).beside
    rw [memberText, quoted_append]
    exact ((ih m hm (indent + 1) hrest).pad [' '] (by simp [isSpace])).beside.beside

theorem Exact.spells_text {j : Json} (h : Exact j) : Spells j j.text := by
  have hend : Spread [] [] := .blank (List.forall_mem_nil _)
  have hwrite := h.spread_write 0 hend
  rw [List.append_nil] at hwrite
  rwa [Spells, text, String.toList_ofList]

end TolerantScript.Json
