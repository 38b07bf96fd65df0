import TolerantScript.Proofs.TreeCodec

/-!
Trees whose JSON value says the same in other words: the members of any object in another order, and
without members that say what is understood if they are missing. Decoding gives the same tree.
-/

namespace TolerantScript

namespace Json

/-! Values in other words. -/

/-- Members that say what is understood if they are missing. -/
def Omissible (m : String × Json) : Prop :=
  m = ("position", Position.unknown.toJson) ∨ m = ("ty", .null) ∨ m = ("else_branch", .null)

/-- The second value comes from the first by leaving out omissible members and giving the others in
any order, in any objects. -/
inductive Rewords : Json → Json → Prop where
  | same (j : Json) : Rewords j j
  | array (items : List (Json × Json)) : (∀ item ∈ items, Rewords item.1 item.2) →
    Rewords (.array (items.map (·.1))) (.array (items.map (·.2)))
  | object {members members' : List (String × Json)} (kept : List (String × Json × Json))
    (omitted : List (String × Json)) :
    (∀ m ∈ kept, Rewords m.2.1 m.2.2) → (∀ m ∈ omitted, Omissible m) →
    members.Perm (kept.map (fun m => (m.1, m.2.1)) ++ omitted) →
    members'.Perm (kept.map fun m => (m.1, m.2.2)) → Rewords (.object members) (.object members')

theorem Rewords.exact {j j' : Json} (h : Rewords j j') (hj : Exact j) : Exact j' := by
  induction h with
  | same j => exact hj
  | array items _ ih =>
    cases hj with
    | array _ hitems =>
      rw [List.forall_mem_map] at hitems
      exact .array _ (List.forall_mem_map.mpr fun item hitem => ih item hitem (hitems item hitem))
  | @object members members' kept omitted _ _ hbefore hafter ih =>
    cases hj with
    | object _ hmembers =>
      refine .object _ fun m hm => ?_
      obtain ⟨x, hx, rfl⟩ := List.mem_map.mp (hafter.mem_iff.mp hm)
      refine ih x hx (hmembers (x.1, x.2.1) (hbefore.mem_iff.mpr ?_))
      exact List.mem_append_left omitted (List.mem_map.mpr ⟨x, hx, rfl⟩)

/-! Members by name. -/

section

variable {ms : List (String × Json)} {key : String} {v : Json}

theorem split_of_mem (hkeys : (ms.map Prod.fst).Nodup) (h : (key, v) ∈ ms) :
    ∃ before after, ms = before ++ (key, v) :: after ∧ (∀ m ∈ before, m.1 ≠ key) ∧
      ∀ m ∈ after, m.1 ≠ key := by
  obtain ⟨before, after, rfl⟩ := List.append_of_mem h
  rw [List.map_append, List.map_cons, List.nodup_append, List.nodup_cons] at hkeys
  obtain ⟨-, ⟨hafter, -⟩, hbefore⟩ := hkeys
  refine ⟨before, after, rfl, fun m hm => ?_, fun m hm hkey => ?_⟩
  · exact hbefore m.1 (List.mem_map_of_mem hm) key List.mem_cons_self
  · exact hafter (List.mem_map.mpr ⟨m, hm, hkey⟩)

theorem lookup_of_mem (hkeys : (ms.map Prod.fst).Nodup) (h : (key, v) ∈ ms) :
    ms.lookup key = some v := by
  obtain ⟨before, after, hms, hbefore, -⟩ := split_of_mem hkeys h
  rw [List.lookup_eq_some_iff]
  refine ⟨before, after, hms, fun m hm => ?_⟩
  simpa using (hbefore m hm).symm

theorem mem_of_lookup (h : ms.lookup key = some v) : (key, v) ∈ ms := by
  obtain ⟨before, after, rfl, -⟩ := List.lookup_eq_some_iff.mp h
  simp

theorem lookup_eq_none_of_not_mem (h : key ∉ ms.map Prod.fst) : ms.lookup key = none := by
  rw [List.lookup_eq_none_iff]
  intro m hm
  have hne : key ≠ m.1 := fun hkey => h (hkey ▸ List.mem_map_of_mem hm)
  simpa using hne

theorem lookup_filter {p : String → Bool} (hp : p key = true) :
    (ms.filter fun m => p m.1).lookup key = ms.lookup key := by
  induction ms with
  | nil => rfl
  | cons m ms ih =>
    by_cases hm : p m.1 = true
    · rw [List.filter_cons, if_pos hm, List.lookup_cons, List.lookup_cons, ih]
    · have hkey : key ≠ m.1 := fun h => hm (h ▸ hp)
      rw [List.filter_cons, if_neg hm, ih, List.lookup_cons, beq_false_of_ne hkey]

theorem filter_eq_singleton (hkeys : (ms.map Prod.fst).Nodup) (h : (key, v) ∈ ms) :
    (ms.filter fun m => m.1 == key) = [(key, v)] := by
  obtain ⟨before, after, rfl, hbefore, hafter⟩ := split_of_mem hkeys h
  have hleft : (before.filter fun m => m.1 == key) = [] := by
    simpa [List.filter_eq_nil_iff] using hbefore
  have hright : (after.filter fun m => m.1 == key) = [] := by
    simpa [List.filter_eq_nil_iff] using hafter
  simp [hleft, hright]

end

/-! Objects in other words. -/

/-- What stands for a member, nested no deeper than `levels`: its value in other words, or
nothing. -/
inductive Offered (levels : Nat) : String × Json → Option Json → Prop where
  | given {key : String} {v v' : Json} :
    Rewords v v' → v'.nesting ≤ levels → Offered levels (key, v) (some v')
  | missing {m : String × Json} : Omissible m → Offered levels m none

namespace Offered

variable {levels : Nat} {key s : String} {o : Option Json}

theorem eq_string (h : Offered levels (key, .string s) o) : o = some (.string s) := by
  cases h with
  | given hv _ =>
    cases hv
    rfl
  | missing h => simp [Omissible, Position.toJson] at h

theorem eq_natural {n : Nat} (h : Offered levels (key, .natural n) o) : o = some (.natural n) := by
  cases h with
  | given hv _ =>
    cases hv
    rfl
  | missing h => simp [Omissible, Position.toJson] at h

theorem exists_given {v : Json} (h : Offered levels (key, v) o)
    (hkey : key ≠ "position" ∧ key ≠ "ty" ∧ key ≠ "else_branch") :
    ∃ v', o = some v' ∧ Rewords v v' ∧ v'.nesting ≤ levels := by
  cases h with
  | given hv hlevels => exact ⟨_, rfl, hv, hlevels⟩
  | missing h => simp [Omissible, hkey] at h

end Offered

structure Reworded (levels : Nat) (parts ms : List (String × Json)) : Prop where
  keys : (ms.map Prod.fst).Nodup
  offered : ∀ m ∈ parts, Offered levels m (ms.lookup m.1)

theorem Rewords.kept {ms : List (String × Json)} {j : Json} (h : Rewords (.object ms) j) :
    ∃ (kept : List (String × Json × Json)) (omitted ms' : List (String × Json)), j = .object ms' ∧
      (∀ m ∈ kept, Rewords m.2.1 m.2.2) ∧ (∀ m ∈ omitted, Omissible m) ∧
      ms.Perm (kept.map (fun m => (m.1, m.2.1)) ++ omitted) ∧
      ms'.Perm (kept.map fun m => (m.1, m.2.2)) := by
  cases h with
  | same =>
    refine ⟨ms.map fun m => (m.1, m.2, m.2), [], ms, rfl, ?_, List.forall_mem_nil _, ?_, ?_⟩
    · exact List.forall_mem_map.mpr fun m _ => .same m.2
    · simp [Function.comp_def]
    · simp [Function.comp_def]
  | object kept omitted hkept homitted hbefore hafter =>
    exact ⟨kept, omitted, _, rfl, hkept, homitted, hbefore, hafter⟩

theorem Rewords.members {parts : List (String × Json)} {j : Json} (h : Rewords (.object parts) j)
    (hkeys : (parts.map Prod.fst).Nodup) {levels : Nat} (hlevels : j.nesting ≤ levels + 1) :
    ∃ ms, j = .object ms ∧ Reworded levels parts ms := by
  obtain ⟨kept, omitted, ms, rfl, hkept, homitted, hbefore, hafter⟩ := h.kept
  rw [nesting_object, Nat.add_le_add_iff_right, highest_le_iff] at hlevels
  have hnames : (ms.map Prod.fst).Perm (kept.map (·.1)) := by
    have := hafter.map Prod.fst
    rwa [List.map_map] at this
  have hall : (kept.map (·.1) ++ omitted.map Prod.fst).Nodup := by
    have := (hbefore.map Prod.fst).nodup_iff.mp hkeys
    rwa [List.map_append, List.map_map] at this
  rw [List.nodup_append] at hall
  have hms : (ms.map Prod.fst).Nodup := hnames.nodup_iff.mpr hall.1
  refine ⟨ms, rfl, hms, fun m hm => ?_⟩
  obtain hm | hm := List.mem_append.mp (hbefore.mem_iff.mp hm)
  · obtain ⟨x, hx, rfl⟩ := List.mem_map.mp hm
    have hmem : (x.1, x.2.2) ∈ ms := hafter.mem_iff.mpr (List.mem_map.mpr ⟨x, hx, rfl⟩)
    rw [lookup_of_mem hms hmem]
    exact .given (hkept x hx) (hlevels _ hmem)
  · have hnone : m.1 ∉ ms.map Prod.fst := fun hmem =>
      hall.2.2 m.1 (hnames.mem_iff.mp hmem) m.1 (List.mem_map_of_mem hm) rfl
    rw [lookup_eq_none_of_not_mem hnone]
    exact .missing (homitted m hm)

/-- A record takes what it knows of the members. -/
theorem Reworded.record {levels : Nat} {parts ms : List (String × Json)}
    (h : Reworded levels parts ms) (names : List String) (least : Nat)
    (hnames : parts.map Prod.fst = names) :
    ∃ known, record? names least (.object ms) = some known ∧
      ∀ m ∈ parts, Offered levels m (known.lookup m.1) := by
  have hkeys : ((ms.filter fun m => names.contains m.1).map Prod.fst).Nodup :=
    h.keys.sublist (List.filter_sublist.map Prod.fst)
  refine ⟨ms.filter fun m => names.contains m.1, if_pos hkeys, fun m hm => ?_⟩
  have hknown : names.contains m.1 = true := by
    rw [List.contains_iff_mem, ← hnames]
    exact List.mem_map_of_mem hm
  rw [lookup_filter hknown]
  exact h.offered m hm

/-- A node has its kind among its members, in any place. -/
theorem Rewords.node {κ : Type} {all : List κ} {tag : κ → String} {k : κ}
    (hkind : (all.find? fun k' => tag k' == tag k) = some k)
    {parts : List (String × Json)} {j : Json}
    (h : Rewords (.object (("kind", .string (tag k)) :: parts)) j)
    (hkeys : ("kind" :: parts.map Prod.fst).Nodup) {levels : Nat}
    (hlevels : j.nesting ≤ levels + 1) :
    ∃ ms, j = .object ms ∧ (ms.map Prod.fst).Nodup ∧ ("kind", .string (tag k)) ∈ ms ∧
      node? all tag j = some (k, .object (ms.filter fun m => m.1 != "kind")) ∧
      Reworded levels parts (ms.filter fun m => m.1 != "kind") := by
  obtain ⟨ms, rfl, hms⟩ := h.members hkeys hlevels
  rw [List.nodup_cons] at hkeys
  have hoffered := List.forall_mem_cons.mp hms.offered
  have hmem : ("kind", .string (tag k)) ∈ ms := mem_of_lookup hoffered.1.eq_string
  refine ⟨ms, rfl, hms.keys, hmem, ?_, hms.keys.sublist (List.filter_sublist.map Prod.fst),
    fun m hm => ?_⟩
  · simp [node?, filter_eq_singleton hms.keys hmem, kind?, hkind]
  · have hother : (m.1 != "kind") = true := by
      have hne : m.1 ≠ "kind" := fun heq => hkeys.1 (List.mem_map.mpr ⟨m, hm, heq⟩)
      simpa using hne
    rw [lookup_filter (p := fun key => key != "kind") hother]
    exact hoffered.2 m hm

theorem Rewords.items {α : Type} {encode : α → Json} {xs : List α} {j : Json}
    (h : Rewords (.array (xs.map encode)) j) :
    ∃ pairs : List (α × Json), xs = pairs.map (·.1) ∧ j = .array (pairs.map (·.2)) ∧
      ∀ x ∈ pairs, Rewords (encode x.1) x.2 := by
  generalize hencoded : xs.map encode = encoded at h
  cases h with
  | same =>
    refine ⟨xs.map fun x => (x, encode x), by simp [Function.comp_def],
      by simp [← hencoded, Function.comp_def], ?_⟩
    exact List.forall_mem_map.mpr fun x _ => .same _
  | array items hitems =>
    induction items generalizing xs with
    | nil =>
      rw [List.map_nil, List.map_eq_nil_iff] at hencoded
      exact ⟨[], hencoded, rfl, List.forall_mem_nil _⟩
    | cons item items ih =>
      obtain ⟨x, xs, rfl, hx, hxs⟩ := List.map_eq_cons_iff.mp hencoded
      rw [List.forall_mem_cons] at hitems
      obtain ⟨pairs, rfl, hpairs, hrewords⟩ := ih hitems.2 hxs
      refine ⟨(x, item.2) :: pairs, rfl, ?_, List.forall_mem_cons.mpr ⟨hx ▸ hitems.1, hrewords⟩⟩
      rw [List.map_cons, List.map_cons, Json.array.inj hpairs]

theorem nesting_of_mem_pairs {α : Type} {pairs : List (α × Json)} {levels : Nat}
    (h : (array (pairs.map (·.2))).nesting ≤ levels) : ∀ x ∈ pairs, x.2.nesting ≤ levels := by
  rw [nesting_array, highest_map] at h
  exact highest_le_iff.mp (Nat.le_of_succ_le h)

theorem mapM_pairs {α β : Type} {decode : β → Option α} {pairs : List (α × β)}
    (h : ∀ x ∈ pairs, decode x.2 = some x.1) :
    (pairs.map (·.2)).mapM decode = some (pairs.map (·.1)) := by
  induction pairs with
  | nil => rfl
  | cons x pairs ih =>
    rw [List.forall_mem_cons] at h
    simp [h.1, ih h.2]

end Json

open Json

/-! Leaves of the tree. -/

theorem Position.ofJson?_reworded {p : Position} {j : Json} (h : Rewords p.toJson j) :
    Position.ofJson? j = some p := by
  obtain ⟨ms, rfl, hms⟩ := h.members (by simp) (Nat.le_succ _)
  obtain ⟨known, hrecord, hoffered⟩ := hms.record ["line", "column"] 2 rfl
  simp only [List.forall_mem_cons] at hoffered
  obtain ⟨hline, hcolumn, -⟩ := hoffered
  have hline' := p.line.toNat_lt_size
  have hcolumn' := p.column.toNat_lt_size
  simp [ofJson?, hrecord, hline.eq_natural, hcolumn.eq_natural, word?, hline', hcolumn']

theorem Position.ofParts?_reworded {p : Position} {levels : Nat} {ms : List (String × Json)}
    (h : Offered levels ("position", p.toJson) (ms.lookup "position")) :
    Position.ofParts? ms = some p := by
  rw [Position.ofParts?]
  generalize ms.lookup "position" = o at h
  cases h with
  | given hv _ => exact Position.ofJson?_reworded hv
  | missing hm =>
    have heq : p.toJson = Position.unknown.toJson := by simpa [Omissible] using hm
    rw [← Position.ofJson?_reworded (.same p.toJson), heq]
    exact (Position.ofJson?_reworded (.same _)).symm

theorem Ident.ofJson?_reworded {x : Ident} {j : Json} (h : Rewords x.toJson j) :
    Ident.ofJson? j = some x := by
  obtain ⟨ms, rfl, hms⟩ := h.members (by simp) (Nat.le_succ _)
  obtain ⟨known, hrecord, hoffered⟩ := hms.record ["name", "position"] 1 rfl
  simp only [List.forall_mem_cons] at hoffered
  obtain ⟨hname, hposition, -⟩ := hoffered
  simp [ofJson?, hrecord, hname.eq_string, string?, Position.ofParts?_reworded hposition]

theorem Literal.ofJson?_reworded {l : Literal} {j : Json} (h : Rewords l.toJson j) :
    Literal.ofJson? j = some l := by
  have hty : tyOfTag? (tag l.ty) = some l.ty := by cases l.ty <;> decide
  obtain ⟨ms, rfl, hms⟩ := h.members (by simp) (Nat.le_succ _)
  obtain ⟨known, hrecord, hoffered⟩ := hms.record ["type", "text"] 2 rfl
  simp only [List.forall_mem_cons] at hoffered
  obtain ⟨htype, htext, -⟩ := hoffered
  simp [ofJson?, hrecord, htype.eq_string, htext.eq_string, string?, symbol?, hty]

theorem Ty.ofPart?_reworded {ty : Option Ty} {levels : Nat} {o : Option Json}
    (h : Offered levels ("ty", Ty.optionToJson ty) o) : Ty.ofPart? o = some ty := by
  cases ty with
  | none =>
    rw [optionToJson] at h
    cases h with
    | given hv _ =>
      cases hv
      rfl
    | missing _ => rfl
  | some ty =>
    rw [optionToJson] at h
    rw [h.eq_string]
    simp [ofPart?, symbol?, Ty.ofName?_name]

/-! Expressions. -/

namespace Expr

theorem ofJson?_rewordedNode {k : Kind} {parts : List (String × Json)} {e : Expr} {j : Json}
    {levels : Nat} (hj : Rewords (k.node parts) j) (hlevels : j.nesting ≤ levels)
    (hkeys : ("kind" :: parts.map Prod.fst).Nodup)
    (hnode : ∀ levels ms, Reworded levels parts ms →
      ofNode? (ofJson? levels) k (.object ms) = some e) :
    ofJson? levels j = some e := by
  cases levels with
  | zero =>
    obtain ⟨ms, rfl, -⟩ := hj.members hkeys (Nat.le_succ _)
    rw [nesting_object] at hlevels
    omega
  | succ levels =>
    obtain ⟨ms, rfl, -, -, hkind, hparts⟩ := hj.node k.find?_tag hkeys hlevels
    rw [ofJson?, hkind]
    exact hnode levels _ hparts

theorem ofJson?_reworded {e : Expr} {j : Json} {levels : Nat} (h : Rewords e.toJson j)
    (hlevels : j.nesting ≤ levels) : ofJson? levels j = some e := by
  induction e generalizing j levels with
  | literal l p =>
    refine ofJson?_rewordedNode h hlevels (by simp) fun levels ms hms => ?_
    obtain ⟨known, hrecord, hoffered⟩ := hms.record ["literal", "position"] 1 rfl
    simp only [List.forall_mem_cons] at hoffered
    obtain ⟨hliteral, hposition, -⟩ := hoffered
    obtain ⟨v, hv, hl, -⟩ := hliteral.exists_given (by decide)
    simp [ofNode?, hrecord, hv, Literal.ofJson?_reworded hl, Position.ofParts?_reworded hposition]
  | var name p =>
    refine ofJson?_rewordedNode h hlevels (by simp) fun levels ms hms => ?_
    obtain ⟨known, hrecord, hoffered⟩ := hms.record ["name", "position"] 1 rfl
    simp only [List.forall_mem_cons] at hoffered
    obtain ⟨hname, hposition, -⟩ := hoffered
    simp [ofNode?, hrecord, hname.eq_string, string?, Position.ofParts?_reworded hposition]
  | binary op l r p ihl ihr =>
    refine ofJson?_rewordedNode h hlevels (by simp) fun levels ms hms => ?_
    obtain ⟨known, hrecord, hoffered⟩ := hms.record ["op", "left", "right", "position"] 3 rfl
    simp only [List.forall_mem_cons] at hoffered
    obtain ⟨hop, hleft, hright, hposition, -⟩ := hoffered
    obtain ⟨vl, hvl, hl, hlevelsl⟩ := hleft.exists_given (by decide)
    obtain ⟨vr, hvr, hr, hlevelsr⟩ := hright.exists_given (by decide)
    simp [ofNode?, hrecord, hop.eq_string, hvl, hvr, ihl hl hlevelsl, ihr hr hlevelsr, symbol?,
      BinaryOp.ofSymbol?_symbol, Position.ofParts?_reworded hposition]
  | unary op e p ih =>
    refine ofJson?_rewordedNode h hlevels (by simp) fun levels ms hms => ?_
    obtain ⟨known, hrecord, hoffered⟩ := hms.record ["op", "operand", "position"] 2 rfl
    simp only [List.forall_mem_cons] at hoffered
    obtain ⟨hop, hoperand, hposition, -⟩ := hoffered
    obtain ⟨v, hv, he, hlevels⟩ := hoperand.exists_given (by decide)
    simp [ofNode?, hrecord, hop.eq_string, hv, ih he hlevels, symbol?, UnaryOp.ofSymbol?_symbol,
      Position.ofParts?_reworded hposition]
  | paren e p ih =>
    refine ofJson?_rewordedNode h hlevels (by simp) fun levels ms hms => ?_
    obtain ⟨known, hrecord, hoffered⟩ := hms.record ["inner", "position"] 1 rfl
    simp only [List.forall_mem_cons] at hoffered
    obtain ⟨hinner, hposition, -⟩ := hoffered
    obtain ⟨v, hv, he, hlevels⟩ := hinner.exists_given (by decide)
    simp [ofNode?, hrecord, hv, ih he hlevels, Position.ofParts?_reworded hposition]

end Expr

/-! Statements. -/

namespace Stmt

theorem keys_members (stmt : Stmt) : ("kind" :: stmt.members.map Prod.fst).Nodup := by
  cases stmt <;> simp [members]

def DecodesReworded (stmt : Stmt) : Prop :=
  ∀ levels ms, Reworded levels stmt.members ms →
    ofNode? (Expr.ofJson? levels) (ofJson? levels) stmt.kind (.object ms) = some stmt

theorem DecodesReworded.ofJson? {stmt : Stmt} (h : stmt.DecodesReworded) {j : Json} {levels : Nat}
    (hj : Rewords stmt.toJson j) (hlevels : j.nesting ≤ levels) :
    Stmt.ofJson? levels j = some stmt := by
  rw [toJson_eq] at hj
  cases levels with
  | zero =>
    obtain ⟨ms, rfl, -⟩ := hj.members stmt.keys_members (Nat.le_succ _)
    rw [nesting_object] at hlevels
    omega
  | succ levels =>
    obtain ⟨ms, rfl, -, -, hkind, hparts⟩ := hj.node stmt.kind.find?_tag stmt.keys_members hlevels
    rw [Stmt.ofJson?, hkind]
    exact h levels _ hparts

theorem DecodesReworded.ofPart? {no : Option Stmt}
    (h : ∀ stmt, no = some stmt → stmt.DecodesReworded)
    {levels : Nat} {o : Option Json} (ho : Offered levels ("else_branch", optionToJson no) o) :
    Stmt.ofPart? (Stmt.ofJson? levels) o = some no := by
  cases no with
  | none =>
    rw [optionToJson] at ho
    cases ho with
    | given hv _ =>
      cases hv
      rfl
    | missing _ => rfl
  | some stmt =>
    rw [optionToJson] at ho
    cases ho with
    | given hv hlevels =>
      have hstmt := (h stmt rfl).ofJson? hv hlevels
      rw [toJson_eq] at hv
      obtain ⟨ms, rfl, -⟩ := hv.members stmt.keys_members (Nat.le_succ _)
      simp [Stmt.ofPart?, hstmt]
    | missing hm =>
      rw [toJson_eq] at hm
      simp [Omissible, Kind.node] at hm

theorem decodesReworded (stmt : Stmt) : stmt.DecodesReworded := by
  induction stmt using Stmt.induct with
  | expr e =>
    intro levels ms hms
    obtain ⟨known, hrecord, hoffered⟩ := hms.record ["expr"] 1 rfl
    simp only [members, List.forall_mem_cons] at hoffered
    obtain ⟨v, hv, he, hlevels⟩ := hoffered.1.exists_given (by decide)
    simp [ofNode?, kind, hrecord, hv, Expr.ofJson?_reworded he hlevels]
  | declare ty names p =>
    intro levels ms hms
    obtain ⟨known, hrecord, hoffered⟩ := hms.record ["ty", "names", "position"] 2 rfl
    simp only [members, List.forall_mem_cons] at hoffered
    obtain ⟨hty, hnames, hposition, -⟩ := hoffered
    obtain ⟨v, hv, hitems, -⟩ := hnames.exists_given (by decide)
    obtain ⟨pairs, rfl, rfl, hpairs⟩ := hitems.items
    have hdecoded := mapM_pairs fun x hx => Ident.ofJson?_reworded (hpairs x hx)
    simp [ofNode?, kind, hrecord, hv, items?, hdecoded, Ty.ofPart?_reworded hty,
      Position.ofParts?_reworded hposition]
  | assign target e =>
    intro levels ms hms
    obtain ⟨known, hrecord, hoffered⟩ := hms.record ["target", "value"] 2 rfl
    simp only [members, List.forall_mem_cons] at hoffered
    obtain ⟨htarget, hvalue, -⟩ := hoffered
    obtain ⟨vt, hvt, ht, -⟩ := htarget.exists_given (by decide)
    obtain ⟨v, hv, he, hlevels⟩ := hvalue.exists_given (by decide)
    simp [ofNode?, kind, hrecord, hvt, hv, Ident.ofJson?_reworded ht,
      Expr.ofJson?_reworded he hlevels]
  | block stmts p ih =>
    intro levels ms hms
    obtain ⟨known, hrecord, hoffered⟩ := hms.record ["stmts", "position"] 1 rfl
    simp only [members, List.forall_mem_cons] at hoffered
    obtain ⟨hstmts, hposition, -⟩ := hoffered
    obtain ⟨v, hv, hitems, hlevels⟩ := hstmts.exists_given (by decide)
    obtain ⟨pairs, rfl, rfl, hpairs⟩ := hitems.items
    have hdecoded : (pairs.map (·.2)).mapM (Stmt.ofJson? levels) = some (pairs.map (·.1)) :=
      mapM_pairs fun x hx => (ih x.1 (List.mem_map_of_mem hx)).ofJson? (hpairs x hx)
        (nesting_of_mem_pairs hlevels x hx)
    simp [ofNode?, kind, hrecord, hv, items?, hdecoded, Position.ofParts?_reworded hposition]
  | branch cond yes no p hyes hno =>
    intro levels ms hms
    obtain ⟨known, hrecord, hoffered⟩ :=
      hms.record ["cond", "then_branch", "else_branch", "position"] 3 rfl
    simp only [members, List.forall_mem_cons] at hoffered
    obtain ⟨hcond, hthen, helse, hposition, -⟩ := hoffered
    obtain ⟨vc, hvc, hc, hlevelsc⟩ := hcond.exists_given (by decide)
    obtain ⟨vy, hvy, hy, hlevelsy⟩ := hthen.exists_given (by decide)
    simp [ofNode?, kind, hrecord, hvc, hvy, Expr.ofJson?_reworded hc hlevelsc,
      hyes.ofJson? hy hlevelsy, DecodesReworded.ofPart? hno helse,
      Position.ofParts?_reworded hposition]
  | whileDo cond body p ih =>
    intro levels ms hms
    obtain ⟨known, hrecord, hoffered⟩ := hms.record ["cond", "body", "position"] 2 rfl
    simp only [members, List.forall_mem_cons] at hoffered
    obtain ⟨hcond, hbody, hposition, -⟩ := hoffered
    obtain ⟨vc, hvc, hc, hlevelsc⟩ := hcond.exists_given (by decide)
    obtain ⟨vb, hvb, hb, hlevelsb⟩ := hbody.exists_given (by decide)
    simp [ofNode?, kind, hrecord, hvc, hvb, Expr.ofJson?_reworded hc hlevelsc,
      ih.ofJson? hb hlevelsb, Position.ofParts?_reworded hposition]
  | doWhile body cond p ih =>
    intro levels ms hms
    obtain ⟨known, hrecord, hoffered⟩ := hms.record ["body", "cond", "position"] 2 rfl
    simp only [members, List.forall_mem_cons] at hoffered
    obtain ⟨hbody, hcond, hposition, -⟩ := hoffered
    obtain ⟨vb, hvb, hb, hlevelsb⟩ := hbody.exists_given (by decide)
    obtain ⟨vc, hvc, hc, hlevelsc⟩ := hcond.exists_given (by decide)
    simp [ofNode?, kind, hrecord, hvc, hvb, Expr.ofJson?_reworded hc hlevelsc,
      ih.ofJson? hb hlevelsb, Position.ofParts?_reworded hposition]
  | empty p =>
    intro levels ms hms
    obtain ⟨known, hrecord, hoffered⟩ := hms.record ["position"] 0 rfl
    simp only [members, List.forall_mem_cons] at hoffered
    simp [ofNode?, kind, hrecord, Position.ofParts?_reworded hoffered.1]

theorem decodes (stmt : Stmt) : stmt.Decodes := by
  intro levels h
  have hkeys := (List.nodup_cons.mp stmt.keys_members).2
  refine stmt.decodesReworded levels stmt.members ⟨hkeys, fun m hm => ?_⟩
  rw [lookup_of_mem hkeys hm]
  exact .given (.same m.2) (h m hm)

end Stmt

end TolerantScript
