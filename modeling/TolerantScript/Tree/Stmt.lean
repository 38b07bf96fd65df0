import TolerantScript.Tree.Expr

/-! Statement trees and programs, and when two of them are the same. -/

namespace TolerantScript

structure Ident where
  name : String
  position : Position
  deriving DecidableEq

inductive Stmt where
  | expr (expr : Expr)
  /-- A declaration of names, which the reader of the text may have left without a type. -/
  | declare (ty : Option Ty) (names : List Ident) (position : Position)
  | assign (target : Ident) (value : Expr)
  | block (stmts : List Stmt) (position : Position)
  | branch (cond : Expr) (yes : Stmt) (no : Option Stmt) (position : Position)
  | whileDo (cond : Expr) (body : Stmt) (position : Position)
  | doWhile (body : Stmt) (cond : Expr) (position : Position)
  | empty (position : Position)

namespace Stmt

mutual

def same : Stmt → Stmt → Bool
  | .expr e, .expr e' => e == e'
  | .declare ty names p, .declare ty' names' p' => ty == ty' && names == names' && p == p'
  | .assign target e, .assign target' e' => target == target' && e == e'
  | .block stmts p, .block stmts' p' => sameAll stmts stmts' && p == p'
  | .branch cond yes no p, .branch cond' yes' no' p' =>
    cond == cond' && same yes yes' && sameOption no no' && p == p'
  | .whileDo cond body p, .whileDo cond' body' p' => cond == cond' && same body body' && p == p'
  | .doWhile body cond p, .doWhile body' cond' p' => same body body' && cond == cond' && p == p'
  | .empty p, .empty p' => p == p'
  | _, _ => false

def sameAll : List Stmt → List Stmt → Bool
  | [], [] => true
  | s :: ss, t :: ts => same s t && sameAll ss ts
  | _, _ => false

def sameOption : Option Stmt → Option Stmt → Bool
  | none, none => true
  | some s, some t => same s t
  | _, _ => false

end

mutual

theorem same_iff : (s t : Stmt) → (same s t = true ↔ s = t)
  | .expr _, t => by cases t <;> simp [same]
  | .declare .., t => by cases t <;> simp [same, and_assoc]
  | .assign .., t => by cases t <;> simp [same]
  | .block stmts _, t => by cases t <;> simp [same, sameAll_iff stmts]
  | .branch _ yes no _, t => by
    cases t <;> simp [same, same_iff yes, sameOption_iff no, and_assoc]
  | .whileDo _ body _, t => by cases t <;> simp [same, same_iff body, and_assoc]
  | .doWhile body _ _, t => by cases t <;> simp [same, same_iff body, and_assoc]
  | .empty _, t => by cases t <;> simp [same]

theorem sameAll_iff : (ss ts : List Stmt) → (sameAll ss ts = true ↔ ss = ts)
  | [], ts => by cases ts <;> simp [sameAll]
  | s :: ss, ts => by cases ts <;> simp [sameAll, same_iff s, sameAll_iff ss]

theorem sameOption_iff : (s t : Option Stmt) → (sameOption s t = true ↔ s = t)
  | none, t => by cases t <;> simp [sameOption]
  | some s, t => by cases t <;> simp [sameOption, same_iff s]

end

instance : DecidableEq Stmt := fun s t => decidable_of_iff _ (same_iff s t)

end Stmt

structure Program where
  stmts : List Stmt
  deriving DecidableEq

namespace Stmt

inductive Kind where
  | expr
  | declare
  | assign
  | block
  | branch
  | whileDo
  | doWhile
  | empty
  deriving DecidableEq

def kind : Stmt → Kind
  | .expr _ => .expr
  | .declare .. => .declare
  | .assign .. => .assign
  | .block .. => .block
  | .branch .. => .branch
  | .whileDo .. => .whileDo
  | .doWhile .. => .doWhile
  | .empty _ => .empty

def Kind.name : Kind → String
  | .expr => "expression"
  | .declare => "declaration"
  | .assign => "assignment"
  | .block => "block"
  | .branch => "if"
  | .whileDo => "while"
  | .doWhile => "do-while"
  | .empty => "empty"

/-- An expression statement stands where its expression does, an assignment where its target
does. -/
def position : Stmt → Position
  | .expr e => e.position
  | .assign target _ => target.position
  | .declare _ _ p | .block _ p | .branch _ _ _ p | .whileDo _ _ p | .doWhile _ _ p | .empty p => p

def moveTo (p : Position) : Stmt → Stmt
  | .expr e => .expr (e.moveTo p)
  | .declare ty names _ => .declare ty names p
  | .assign target e => .assign { target with position := p } e
  | .block stmts _ => .block stmts p
  | .branch cond yes no _ => .branch cond yes no p
  | .whileDo cond body _ => .whileDo cond body p
  | .doWhile body cond _ => .doWhile body cond p
  | .empty _ => .empty p

end Stmt

end TolerantScript
