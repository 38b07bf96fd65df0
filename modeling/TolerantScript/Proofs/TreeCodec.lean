import TolerantScript.Proofs.JsonText
import TolerantScript.Tree.Decoding

/-!
Trees and their JSON values: the members of a statement's object, how deep they are nested and that
every number in them is exact.
-/

namespace TolerantScript

namespace Json

theorem nesting_node (s : String) (parts : List (String × Json)) :
    (object (("kind", .string s) :: parts)).nesting = highest (fun m => m.2.nesting) parts + 1 := by
  rw [nesting_object, highest, nesting, Nat.zero_max]

theorem exact_array_map {α : Type} {encode : α → Json} {xs : List α}
    (h : ∀ x ∈ xs, Exact (encode x)) : Exact (.array (xs.map encode)) := by
  refine .array _ fun j hj => ?_
  obtain ⟨x, hx, rfl⟩ := List.mem_map.mp hj
  exact h x hx

end Json

open Json

/-! All numbers of a tree have 32 bits. -/

@[simp] theorem Position.exact_toJson (p : Position) : Exact p.toJson := by
  have hword : ∀ w : UInt32, Exact (.natural w.toNat) :=
    fun w => .natural _ (Nat.lt_trans w.toNat_lt_size (by decide))
  refine .object _ ?_
  simp [hword]

@[simp] theorem Ident.exact_toJson (x : Ident) : Exact x.toJson := by
  refine .object _ ?_
  simp [Exact.string]

@[simp] theorem Literal.exact_toJson (l : Literal) : Exact l.toJson := by
  refine .object _ ?_
  simp [Exact.string]

@[simp] theorem Expr.exact_toJson (e : Expr) : Exact e.toJson := by
  induction e with
  | literal l p =>
    refine .object _ ?_
    simp [Exact.string]
  | var name p =>
    refine .object _ ?_
    simp [Exact.string]
  | binary op l r p ihl ihr =>
    refine .object _ ?_
    simp [Exact.string, ihl, ihr]
  | unary op e p ih =>
    refine .object _ ?_
    simp [Exact.string, ih]
  | paren e p ih =>
    refine .object _ ?_
    simp [Exact.string, ih]

theorem Expr.Kind.find?_tag (k : Kind) : (Kind.all.find? fun k' => k'.tag == k.tag) = some k := by
  cases k <;> decide

/-! Statements. -/

namespace Stmt

/-- Induction over statements, with what holds of every statement in a block and of the alternative,
if there is one. -/
@[elab_as_elim]
theorem induct {P : Stmt → Prop} (expr : ∀ e, P (.expr e))
    (declare : ∀ ty names p, P (.declare ty names p)) (assign : ∀ target e, P (.assign target e))
    (block : ∀ stmts p, (∀ stmt ∈ stmts, P stmt) → P (.block stmts p))
    (branch : ∀ cond yes no p, P yes → (∀ stmt, no = some stmt → P stmt) →
      P (.branch cond yes no p))
    (whileDo : ∀ cond body p, P body → P (.whileDo cond body p))
    (doWhile : ∀ body cond p, P body → P (.doWhile body cond p)) (empty : ∀ p, P (.empty p))
    (stmt : Stmt) : P stmt := by
  refine @Stmt.rec P (fun stmts => ∀ stmt ∈ stmts, P stmt)
    (fun no => ∀ stmt, no = some stmt → P stmt)
    expr declare assign block branch whileDo doWhile empty ?nil ?cons ?none ?some stmt
  case nil => exact fun _ h => absurd h List.not_mem_nil
  case cons =>
    intro stmt rest hstmt hrest
    exact List.forall_mem_cons.mpr ⟨hstmt, hrest⟩
  case none =>
    intro stmt h
    cases h
  case some =>
    intro stmt hstmt other h
    cases h
    exact hstmt

def members : Stmt → List (String × Json)
  | .expr e => [("expr", e.toJson)]
  | .declare ty names p =>
    [("ty", Ty.optionToJson ty), ("names", .array (names.map Ident.toJson)), ("position", p.toJson)]
  | .assign target e => [("target", target.toJson), ("value", e.toJson)]
  | .block stmts p => [("stmts", .array (stmts.map toJson)), ("position", p.toJson)]
  | .branch cond yes no p =>
    [("cond", cond.toJson), ("then_branch", yes.toJson), ("else_branch", optionToJson no),
      ("position", p.toJson)]
  | .whileDo cond body p => [("cond", cond.toJson), ("body", body.toJson), ("position", p.toJson)]
  | .doWhile body cond p => [("body", body.toJson), ("cond", cond.toJson), ("position", p.toJson)]
  | .empty p => [("position", p.toJson)]

theorem listToJson_eq (stmts : List Stmt) : listToJson stmts = stmts.map toJson := by
  induction stmts with
  | nil => rw [listToJson, List.map_nil]
  | cons stmt rest ih => rw [listToJson, List.map_cons, ih]

theorem toJson_eq (stmt : Stmt) : stmt.toJson = stmt.kind.node stmt.members := by
  cases stmt <;> simp only [toJson, kind, members, listToJson_eq]

theorem key_of_mem_members {stmt : Stmt} {m : String × Json} (h : m ∈ stmt.members) :
    m.1 ≠ "kind" := by
  revert m
  cases stmt <;> simp [members]

theorem exact_of_members {stmt : Stmt} (h : ∀ m ∈ stmt.members, Exact m.2) : Exact stmt.toJson := by
  rw [toJson_eq]
  exact .object _ (List.forall_mem_cons.mpr ⟨.string _, h⟩)

theorem exact_members (stmt : Stmt) : ∀ m ∈ stmt.members, Exact m.2 := by
  induction stmt using Stmt.induct with
  | expr e => simp [members]
  | declare ty names p =>
    have hty : Exact (Ty.optionToJson ty) := by
      cases ty with
      | none => exact .null
      | some ty => exact .string ty.name
    have hnames : Exact (.array (names.map Ident.toJson)) :=
      exact_array_map fun x _ => x.exact_toJson
    simp [members, hty, hnames]
  | assign target e => simp [members]
  | block stmts p ih =>
    have hstmts : Exact (.array (stmts.map toJson)) :=
      exact_array_map fun stmt hstmt => exact_of_members (ih stmt hstmt)
    simp [members, hstmts]
  | branch cond yes no p hyes hno =>
    have helse : Exact (optionToJson no) := by
      cases no with
      | none =>
        rw [optionToJson]
        exact .null
      | some stmt =>
        rw [optionToJson]
        exact exact_of_members (hno stmt rfl)
    simp [members, exact_of_members hyes, helse]
  | whileDo cond body p ih => simp [members, exact_of_members ih]
  | doWhile body cond p ih => simp [members, exact_of_members ih]
  | empty p => simp [members]

theorem exact_toJson (stmt : Stmt) : Exact stmt.toJson := exact_of_members stmt.exact_members

theorem Kind.find?_tag (k : Kind) : (Kind.all.find? fun k' => k'.tag == k.tag) = some k := by
  cases k <;> decide

/-- The statement is made of its kind and its members, given the levels that the members take. -/
def Decodes (stmt : Stmt) : Prop :=
  ∀ levels, (∀ m ∈ stmt.members, m.2.nesting ≤ levels) →
    ofNode? (Expr.ofJson? levels) (ofJson? levels) stmt.kind (.object stmt.members) = some stmt

end Stmt

end TolerantScript
