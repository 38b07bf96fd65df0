import TolerantScript.Literal
import TolerantScript.Operator.Basic
import TolerantScript.Position

/-! Expression trees. Every node has its own position. -/

namespace TolerantScript

inductive Expr where
  | literal (literal : Literal) (position : Position)
  | var (name : String) (position : Position)
  | binary (op : BinaryOp) (left right : Expr) (position : Position)
  | unary (op : UnaryOp) (operand : Expr) (position : Position)
  | paren (inner : Expr) (position : Position)
  deriving DecidableEq

namespace Expr

def position : Expr → Position
  | .literal _ p | .var _ p | .binary _ _ _ p | .unary _ _ p | .paren _ p => p

/-- The expression at another position, its parts where they were. -/
def moveTo (p : Position) : Expr → Expr
  | .literal l _ => .literal l p
  | .var name _ => .var name p
  | .binary op l r _ => .binary op l r p
  | .unary op e _ => .unary op e p
  | .paren e _ => .paren e p

end Expr

end TolerantScript
