import TolerantScript.Json.Record
import TolerantScript.Tree.Encoding

/-!
Trees from JSON values. A missing position is the unknown one, a missing type or alternative is
none; every other part has to be there. The depth of the tree is bounded by a number of levels.
-/

namespace TolerantScript

open Json

def Position.ofJson? (j : Json) : Option Position := do
  let parts ← j.record? ["line", "column"] 2
  return ⟨← (← parts.lookup "line").word?, ← (← parts.lookup "column").word?⟩

def Position.ofParts? (parts : List (String × Json)) : Option Position :=
  match parts.lookup "position" with
  | none => some .unknown
  | some j => Position.ofJson? j

def Ident.ofJson? (j : Json) : Option Ident := do
  let parts ← j.record? ["name", "position"] 1
  return ⟨← (← parts.lookup "name").string?, ← Position.ofParts? parts⟩

def Literal.tyOfTag? (name : String) : Option Ty := Ty.all.find? fun ty => tag ty == name

/-- An object names its type as a symbol. An array gives it as a node gives its kind, by the name or
by the place among all types. -/
def Literal.ofJson? : Json → Option Literal
  | .array [ty, text] => do return ⟨← ty.kind? Ty.all tag, ← text.string?⟩
  | .object members => do
    let parts ← (Json.object members).record? ["type", "text"] 2
    return ⟨← (← parts.lookup "type").symbol? tyOfTag?, ← (← parts.lookup "text").string?⟩
  | _ => none

/-- A type, or none for null and for a part that is missing. -/
def Ty.ofPart? : Option Json → Option (Option Ty)
  | none | some .null => some none
  | some j => (j.symbol? Ty.ofName?).map some

namespace Expr

def ofNode? (inner : Json → Option Expr) (kind : Kind) (j : Json) : Option Expr :=
  match kind with
  | .literal => do
    let parts ← j.record? ["literal", "position"] 1
    return .literal (← Literal.ofJson? (← parts.lookup "literal")) (← Position.ofParts? parts)
  | .var => do
    let parts ← j.record? ["name", "position"] 1
    return .var (← (← parts.lookup "name").string?) (← Position.ofParts? parts)
  | .binary => do
    let parts ← j.record? ["op", "left", "right", "position"] 3
    return .binary (← (← parts.lookup "op").symbol? BinaryOp.ofSymbol?)
      (← inner (← parts.lookup "left")) (← inner (← parts.lookup "right"))
      (← Position.ofParts? parts)
  | .unary => do
    let parts ← j.record? ["op", "operand", "position"] 2
    return .unary (← (← parts.lookup "op").symbol? UnaryOp.ofSymbol?)
      (← inner (← parts.lookup "operand")) (← Position.ofParts? parts)
  | .paren => do
    let parts ← j.record? ["inner", "position"] 1
    return .paren (← inner (← parts.lookup "inner")) (← Position.ofParts? parts)

def ofJson? : (levels : Nat) → Json → Option Expr
  | 0, _ => none
  | levels + 1, j => do
    let (kind, parts) ← j.node? Kind.all Kind.tag
    ofNode? (ofJson? levels) kind parts

end Expr

namespace Stmt

def ofPart? (stmt : Json → Option Stmt) : Option Json → Option (Option Stmt)
  | none | some .null => some none
  | some j => (stmt j).map some

/-- A statement from its kind and parts, expressions read by `expr` and inner statements by
`stmt`. -/
def ofNode? (expr : Json → Option Expr) (stmt : Json → Option Stmt) (kind : Kind) (j : Json) :
    Option Stmt :=
  match kind with
  | .expr => do
    let parts ← j.record? ["expr"] 1
    return .expr (← expr (← parts.lookup "expr"))
  | .declare => do
    let parts ← j.record? ["ty", "names", "position"] 2
    let names ← (← parts.lookup "names").items?
    return .declare (← Ty.ofPart? (parts.lookup "ty")) (← names.mapM Ident.ofJson?)
      (← Position.ofParts? parts)
  | .assign => do
    let parts ← j.record? ["target", "value"] 2
    return .assign (← Ident.ofJson? (← parts.lookup "target")) (← expr (← parts.lookup "value"))
  | .block => do
    let parts ← j.record? ["stmts", "position"] 1
    let stmts ← (← parts.lookup "stmts").items?
    return .block (← stmts.mapM stmt) (← Position.ofParts? parts)
  | .branch => do
    let parts ← j.record? ["cond", "then_branch", "else_branch", "position"] 3
    return .branch (← expr (← parts.lookup "cond")) (← stmt (← parts.lookup "then_branch"))
      (← ofPart? stmt (parts.lookup "else_branch")) (← Position.ofParts? parts)
  | .whileDo => do
    let parts ← j.record? ["cond", "body", "position"] 2
    return .whileDo (← expr (← parts.lookup "cond")) (← stmt (← parts.lookup "body"))
      (← Position.ofParts? parts)
  | .doWhile => do
    let parts ← j.record? ["body", "cond", "position"] 2
    return .doWhile (← stmt (← parts.lookup "body")) (← expr (← parts.lookup "cond"))
      (← Position.ofParts? parts)
  | .empty => do
    let parts ← j.record? ["position"] 0
    return .empty (← Position.ofParts? parts)

def ofJson? : (levels : Nat) → Json → Option Stmt
  | 0, _ => none
  | levels + 1, j => do
    let (kind, parts) ← j.node? Kind.all Kind.tag
    ofNode? (Expr.ofJson? levels) (ofJson? levels) kind parts

end Stmt

end TolerantScript
