import TolerantScript.Json.Writer
import TolerantScript.Tree.Stmt

/-!
Trees as JSON. A node is an object with its kind first and then its parts in a fixed order; all
parts are written, an absent type or alternative as null.
-/

namespace TolerantScript

inductive Expr.Kind where
  | literal
  | var
  | binary
  | unary
  | paren
  deriving DecidableEq

namespace Expr.Kind

def all : List Kind := [.literal, .var, .binary, .unary, .paren]

def tag : Kind → String
  | .literal => "literal"
  | .var => "variable"
  | .binary => "binary"
  | .unary => "unary"
  | .paren => "paren"

end Expr.Kind

namespace Stmt.Kind

def all : List Kind :=
  [.expr, .declare, .assign, .block, .branch, .whileDo, .doWhile, .empty]

def tag : Kind → String
  | .expr => "expr"
  | .declare => "variable_decl"
  | .assign => "assign"
  | .block => "block"
  | .branch => "if"
  | .whileDo => "while"
  | .doWhile => "do_while"
  | .empty => "empty"

end Stmt.Kind

def Literal.tag : Ty → String
  | .string => "str"
  | ty => ty.name

def Position.toJson (p : Position) : Json :=
  .object [("line", .natural p.line.toNat), ("column", .natural p.column.toNat)]

def Ident.toJson (x : Ident) : Json :=
  .object [("name", .string x.name), ("position", x.position.toJson)]

def Literal.toJson (l : Literal) : Json :=
  .object [("type", .string (tag l.ty)), ("text", .string l.text)]

def Expr.Kind.node (kind : Expr.Kind) (parts : List (String × Json)) : Json :=
  .object (("kind", .string kind.tag) :: parts)

def Expr.toJson : Expr → Json
  | .literal l p => Kind.literal.node [("literal", l.toJson), ("position", p.toJson)]
  | .var name p => Kind.var.node [("name", .string name), ("position", p.toJson)]
  | .binary op l r p =>
    Kind.binary.node [("op", .string op.symbol), ("left", l.toJson), ("right", r.toJson),
      ("position", p.toJson)]
  | .unary op e p =>
    Kind.unary.node [("op", .string op.symbol), ("operand", e.toJson), ("position", p.toJson)]
  | .paren e p => Kind.paren.node [("inner", e.toJson), ("position", p.toJson)]

def Stmt.Kind.node (kind : Stmt.Kind) (parts : List (String × Json)) : Json :=
  .object (("kind", .string kind.tag) :: parts)

def Ty.optionToJson : Option Ty → Json
  | none => .null
  | some ty => .string ty.name

mutual

def Stmt.toJson : Stmt → Json
  | .expr e => Kind.expr.node [("expr", e.toJson)]
  | .declare ty names p =>
    Kind.declare.node [("ty", Ty.optionToJson ty), ("names", .array (names.map Ident.toJson)),
      ("position", p.toJson)]
  | .assign target e => Kind.assign.node [("target", target.toJson), ("value", e.toJson)]
  | .block stmts p =>
    Kind.block.node [("stmts", .array (Stmt.listToJson stmts)), ("position", p.toJson)]
  | .branch cond yes no p =>
    Kind.branch.node [("cond", cond.toJson), ("then_branch", yes.toJson),
      ("else_branch", Stmt.optionToJson no), ("position", p.toJson)]
  | .whileDo cond body p =>
    Kind.whileDo.node [("cond", cond.toJson), ("body", body.toJson), ("position", p.toJson)]
  | .doWhile body cond p =>
    Kind.doWhile.node [("body", body.toJson), ("cond", cond.toJson), ("position", p.toJson)]
  | .empty p => Kind.empty.node [("position", p.toJson)]

def Stmt.listToJson : List Stmt → List Json
  | [] => []
  | stmt :: rest => stmt.toJson :: Stmt.listToJson rest

def Stmt.optionToJson : Option Stmt → Json
  | none => .null
  | some stmt => stmt.toJson

end

def Program.toJson (p : Program) : Json := .object [("stmts", .array (Stmt.listToJson p.stmts))]

def Program.text (p : Program) : String := p.toJson.text

end TolerantScript
