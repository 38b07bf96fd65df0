import TolerantScript.Proofs.JsonLayout
import TolerantScript.Proofs.TreeText

/-!
Programs read from any text of any wording of their value. The reader takes statements from the text
while it goes through it, so the kind of a statement may come after any of its parts.
-/

namespace TolerantScript

open Json

namespace Stmt

/-! A statement of the program. -/

theorem readKind_spread (k : Kind) {after : List Token} {cs : List Char}
    (h : Spread (quoted k.tag [] :: after) cs) :
    ∃ rest, readKind cs = .ok (k, rest) ∧ Spread after rest := by
  obtain ⟨rest, hskip, hrest⟩ := h.skipSpace_eq (by decide)
  obtain ⟨inner, hquoted, hread⟩ := Quoted.read_quoted k.tag rest
  have hcs : skipSpace cs = '"' :: inner := by
    rw [← hquoted, quoted_append, hskip]
    rfl
  refine ⟨rest, ?_, hrest⟩
  rw [readKind, hcs]
  simp only [hread, ReadError.ok_bind]
  rw [Kind.find?_tag]
  rfl

/-- What a member adds to the kind and the parts before it, in a statement of kind `k`. -/
def addPart (k : Kind) (acc : Option Kind × List (String × Json)) (m : String × Json) :
    Option (Option Kind × List (String × Json)) :=
  if m.1 = "kind" then
    if acc.1.isSome then none else some (some k, acc.2)
  else some (acc.1, m :: acc.2)

theorem foldlM_addPart_of_ne {k : Kind} {ms : List (String × Json)} (h : ∀ m ∈ ms, m.1 ≠ "kind")
    (kind : Option Kind) (parts : List (String × Json)) :
    ms.foldlM (addPart k) (kind, parts) = some (kind, ms.reverse ++ parts) := by
  induction ms generalizing parts with
  | nil => rfl
  | cons m ms ih =>
    rw [List.forall_mem_cons] at h
    have hm : addPart k (kind, parts) m = some (kind, m :: parts) := if_neg h.1
    rw [List.foldlM_cons, hm, List.reverse_cons, List.append_assoc, List.singleton_append]
    exact ih h.2 (m :: parts)

theorem foldlM_addPart {k : Kind} {ms : List (String × Json)} (hkeys : (ms.map Prod.fst).Nodup)
    {v : Json} (hkind : ("kind", v) ∈ ms) :
    ms.foldlM (addPart k) (none, []) =
      some (some k, (ms.filter fun m => m.1 != "kind").reverse) := by
  obtain ⟨before, after, rfl, hbefore, hafter⟩ := split_of_mem hkeys hkind
  have hleft : (before.filter fun m => m.1 != "kind") = before := by
    simpa [List.filter_eq_self] using hbefore
  have hright : (after.filter fun m => m.1 != "kind") = after := by
    simpa [List.filter_eq_self] using hafter
  have hkind : addPart k (none, before.reverse ++ []) ("kind", v) =
      some (some k, before.reverse ++ []) := rfl
  rw [List.foldlM_append, foldlM_addPart_of_ne hbefore]
  simp only [Option.bind_eq_bind, Option.bind_some, List.foldlM_cons, hkind]
  rw [foldlM_addPart_of_ne hafter]
  simp [hleft, hright]

theorem reads_part {k : Kind} {ms : List (String × Json)} (hkeys : (ms.map Prod.fst).Nodup)
    (hkind : ("kind", .string k.tag) ∈ ms) {most : Nat}
    (hvalue : ∀ m ∈ ms, Reads (readValue most stmtLevels) m.2.tokens m.2) {m : String × Json}
    (hm : m ∈ ms) {acc acc' : Option Kind × List (String × Json)}
    (hacc : addPart k acc m = some acc') :
    Reads (readMember (readPart most) acc) (memberTokens m) acc' := by
  by_cases hkey : m.1 = "kind"
  · have hv : m.2 = .string k.tag := by
      have hlookup := lookup_of_mem hkeys (show (m.1, m.2) ∈ ms from hm)
      rw [hkey, lookup_of_mem hkeys hkind] at hlookup
      exact (Option.some.inj hlookup).symm
    rw [addPart, if_pos hkey] at hacc
    by_cases hfirst : acc.1.isSome = true
    · rw [if_pos hfirst] at hacc
      cases hacc
    · rw [if_neg hfirst] at hacc
      cases hacc
      refine reads_member fun after cs rest _ hcolon hcs => ?_
      rw [hv, tokens] at hcs
      obtain ⟨tail, hread, htail⟩ := readKind_spread k hcs
      refine ⟨tail, ?_, htail⟩
      rw [readPart, if_pos hkey, if_neg hfirst, hcolon]
      simp [hread]
  · rw [addPart, if_neg hkey] at hacc
    cases hacc
    refine (hvalue m hm).member (f := fun v => (acc.1, (m.1, v) :: acc.2)) fun cs => ?_
    rw [readPart, if_neg hkey]

/-- The statement itself is one level, and its members have the rest. -/
theorem reads_reworded {stmt : Stmt} {j : Json} (hj : Rewords stmt.toJson j) {most : Nat}
    (hmost : j.tokens.length ≤ most) (hlevels : j.nesting ≤ stmtLevels + 1) :
    Reads (read most) j.tokens stmt := by
  have hexact := hj.exact stmt.exact_toJson
  rw [toJson_eq] at hj
  obtain ⟨ms, rfl, hkeys, hkind, -, hparts⟩ :=
    hj.node stmt.kind.find?_tag stmt.keys_members hlevels
  have hdecoded := stmt.decodesReworded stmtLevels _ hparts
  have hvalue : ∀ m ∈ ms, Reads (readValue most stmtLevels) m.2.tokens m.2 := by
    cases hexact with
    | object _ hmembers =>
      rw [nesting_object, Nat.add_le_add_iff_right, highest_le_iff] at hlevels
      exact fun m hm => (hmembers m hm).reads (Nat.le_trans (length_tokens_member hm) hmost)
        (hlevels m hm)
  intro after cs _ hcs _
  rw [tokens_object] at hmost hcs
  obtain ⟨body, rest, hskip, hread, hrest⟩ := readItems_container (.inr rfl) (by decide)
    (fun m _ => leads_memberTokens m)
    (fun m hm acc acc' hacc => reads_part hkeys hkind hvalue hm hacc)
    (foldlM_addPart hkeys hkind) hmost hcs
  refine ⟨rest, ?_, hrest⟩
  simp only [read, hskip, hread]
  simp [shaped, ofParts, hdecoded]

/-! All statements of the program. -/

theorem readAll_reworded {stmts : List Stmt} {j : Json} (hj : Rewords (.array (stmts.map toJson)) j)
    {most : Nat} (hmost : j.tokens.length ≤ most) (hlevels : j.nesting ≤ stmtLevels + 2)
    {after : List Token} {cs : List Char} (hcs : Spread (j.tokens ++ after) cs) :
    ∃ rest, readAll most cs = .ok (stmts, rest) ∧ Spread after rest := by
  obtain ⟨pairs, rfl, rfl, hpairs⟩ := hj.items
  have hnested : ∀ x ∈ pairs, x.2.nesting ≤ stmtLevels + 1 := by
    rw [nesting_array, highest_map] at hlevels
    exact highest_le_iff.mp (Nat.le_of_succ_le_succ hlevels)
  have hstmt : ∀ x ∈ pairs, Reads (read most) x.2.tokens x.1 := by
    intro x hx
    have hlength := length_tokens_item (List.mem_map_of_mem (f := (·.2)) hx)
    exact reads_reworded (hpairs x hx) (Nat.le_trans hlength hmost) (hnested x hx)
  have hfold := foldlM_cons (pairs.map (·.1)) []
  rw [List.foldlM_map] at hfold
  rw [tokens_array, List.map_map] at hmost hcs
  obtain ⟨body, rest, hskip, hread, hrest⟩ := readItems_container (.inl rfl) (by decide)
    (fun x _ => leads_tokens x.2)
    (fun x hx acc acc' hacc => Option.some.inj hacc ▸ (hstmt x hx).map (· :: acc)) hfold hmost hcs
  refine ⟨rest, ?_, hrest⟩
  simp only [readAll, hskip, hread]
  simp

end Stmt

namespace Program

theorem rewords_toJson {p : Program} {j : Json} (h : Rewords p.toJson j) :
    ∃ v, j = .object [("stmts", v)] ∧ Rewords (.array (p.stmts.map Stmt.toJson)) v := by
  rw [toJson_eq] at h
  obtain ⟨kept, omitted, ms, rfl, hkept, homitted, hbefore, hafter⟩ := h.kept
  have hparts := List.singleton_perm.mp hbefore
  cases kept with
  | nil =>
    have hmissing := homitted _ (hparts ▸ List.mem_cons_self)
    simp [Omissible] at hmissing
  | cons x kept =>
    obtain ⟨hx, hnone⟩ := List.cons.inj hparts
    obtain ⟨rfl, -⟩ : kept = [] ∧ omitted = [] := by simpa using hnone.symm
    obtain ⟨key, before, v⟩ := x
    obtain ⟨rfl, rfl⟩ := Prod.mk.inj hx
    exact ⟨v, congrArg _ (List.perm_singleton.mp hafter), hkept _ List.mem_cons_self⟩

theorem readFront_reworded {p : Program} {j : Json} (hj : Rewords p.toJson j) {most : Nat}
    (hmost : j.tokens.length ≤ most) (hlevels : j.nesting ≤ maxOpen) {cs : List Char}
    (hcs : Spread j.tokens cs) : ∃ rest, readFront most cs = .ok (p, rest) ∧ Spread [] rest := by
  obtain ⟨v, rfl, hv⟩ := rewords_toJson hj
  have hvalue : v.tokens.length ≤ (object [("stmts", v)]).tokens.length :=
    length_tokens_member (m := ("stmts", v)) List.mem_cons_self
  have hnested : v.nesting ≤ stmtLevels + 2 := by
    rw [nesting_object, highest, highest] at hlevels
    simp only [maxOpen, stmtLevels] at hlevels ⊢
    omega
  have hmember : ∀ m ∈ [("stmts", v)], ∀ acc acc',
      (if acc.isSome then none else some (some p.stmts)) = some acc' →
        Reads (readMember (readPart most) acc) (memberTokens m) acc' := by
    intro m hm acc acc' hacc
    rw [List.mem_singleton] at hm
    subst hm
    by_cases hfirst : acc.isSome = true
    · rw [if_pos hfirst] at hacc
      cases hacc
    · rw [if_neg hfirst] at hacc
      cases hacc
      refine reads_member fun after cs rest _ hcolon hcs => ?_
      obtain ⟨tail, hread, htail⟩ :=
        Stmt.readAll_reworded hv (Nat.le_trans hvalue hmost) hnested hcs
      refine ⟨tail, ?_, htail⟩
      rw [readPart, if_pos rfl, if_neg hfirst, hcolon]
      simp [hread]
  have hfold : [("stmts", v)].foldlM (fun acc _ => if acc.isSome then none else some (some p.stmts))
      none = some (some p.stmts) := rfl
  rw [tokens_object] at hmost hcs
  rw [← List.append_nil ([_] :: _)] at hcs
  obtain ⟨body, rest, hskip, hread, hrest⟩ := readItems_container (.inr rfl) (by decide)
    (fun m _ => leads_memberTokens m) hmember hfold hmost hcs
  refine ⟨rest, ?_, hrest⟩
  simp only [readFront, hskip, hread]
  simp [shaped]

/-- However the value of a program is reworded, as long as no more than 127 arrays and objects are
inside each other, reading it gives the program, from the text that is written for it and from any
other. -/
theorem read_reworded {p : Program} {j : Json} (hj : Rewords p.toJson j) (hopen : j.nesting ≤ 127) :
    Spells j j.text ∧ ∀ text, Spells j text → read text = .ok p := by
  have hexact := hj.exact p.exact_toJson
  refine ⟨hexact.spells_text, fun text htext => ?_⟩
  have hlength := hexact.length_tokens_le htext
  obtain ⟨rest, hread, hrest⟩ := readFront_reworded hj (Nat.le_succ_of_le hlength) hopen htext
  simp [read, hread, hrest.skipSpace_nil]

/-- `if (7) ;`, with a position for the statement alone. -/
def branching : Stmt := .branch (.literal ⟨.int, "7"⟩ .unknown) (.empty .unknown) none ⟨2, 3⟩

/-- The condition without its position, the type and the kind last. -/
def condReworded : Json :=
  .object [("literal", .object [("text", .string "7"), ("type", .string "int")]),
    ("kind", .string "literal")]

/-- The statement without its alternative, the condition before the kind and the column before the
line. -/
def branchingReworded : Json :=
  .object [("cond", condReworded), ("kind", .string "if"),
    ("then_branch", .object [("kind", .string "empty")]),
    ("position", .object [("column", .natural 3), ("line", .natural 2)])]

def documentReworded : Json := .object [("stmts", .array [branchingReworded])]

theorem rewords_cond : Rewords (Expr.toJson (.literal ⟨.int, "7"⟩ .unknown)) condReworded := by
  have hliteral : Rewords (Literal.toJson ⟨.int, "7"⟩)
      (.object [("text", .string "7"), ("type", .string "int")]) :=
    .object [("type", .string "int", .string "int"), ("text", .string "7", .string "7")] []
      (by simp [Rewords.same]) (List.forall_mem_nil _) (.refl _) (.swap _ _ _)
  refine .object [("kind", .string "literal", .string "literal"),
    ("literal", Literal.toJson ⟨.int, "7"⟩,
      .object [("text", .string "7"), ("type", .string "int")])]
    [("position", Position.unknown.toJson)] ?_ (by simp [Omissible]) (.refl _) (.swap _ _ _)
  simpa [Rewords.same] using hliteral

theorem rewords_branching : Rewords branching.toJson branchingReworded := by
  have hthen : Rewords (Stmt.toJson (.empty .unknown)) (.object [("kind", .string "empty")]) := by
    rw [Stmt.toJson_eq]
    exact .object [("kind", .string "empty", .string "empty")]
      [("position", Position.unknown.toJson)]
      (by simp [Rewords.same]) (by simp [Omissible]) (.refl _) (.refl _)
  have hposition : Rewords (Position.toJson ⟨2, 3⟩)
      (.object [("column", .natural 3), ("line", .natural 2)]) :=
    .object [("line", .natural 2, .natural 2), ("column", .natural 3, .natural 3)] []
      (by simp [Rewords.same]) (List.forall_mem_nil _) (.refl _) (.swap _ _ _)
  rw [Stmt.toJson_eq]
  refine .object [("kind", .string "if", .string "if"),
    ("cond", Expr.toJson (.literal ⟨.int, "7"⟩ .unknown), condReworded),
    ("then_branch", Stmt.toJson (.empty .unknown), .object [("kind", .string "empty")]),
    ("position", Position.toJson ⟨2, 3⟩, .object [("column", .natural 3), ("line", .natural 2)])]
    [("else_branch", .null)] ?_ (by simp [Omissible]) (.cons _ (.cons _ (.cons _ (.swap _ _ _))))
    (.swap _ _ _)
  simpa [Rewords.same] using ⟨rewords_cond, hthen, hposition⟩

theorem read_reworded_branching :
    Rewords (toJson ⟨[branching]⟩) documentReworded ∧ documentReworded.nesting ≤ 127 ∧
      read documentReworded.compact = .ok ⟨[branching]⟩ := by
  have hstmts : Rewords (.array [branching.toJson]) (.array [branchingReworded]) :=
    .array [(branching.toJson, branchingReworded)] (by simpa using rewords_branching)
  have hrewords : Rewords (toJson ⟨[branching]⟩) documentReworded := by
    rw [toJson_eq]
    exact .object [("stmts", .array [branching.toJson], .array [branchingReworded])] []
      (by simpa using hstmts) (List.forall_mem_nil _) (.refl _) (.refl _)
  have hopen : documentReworded.nesting ≤ 127 := by decide
  exact ⟨hrewords, hopen, (read_reworded hrewords hopen).2 _ documentReworded.spells_compact⟩

end Program

end TolerantScript
