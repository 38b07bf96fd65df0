import TolerantScript.Operator.Apply
import TolerantScript.Session.Action

/-!
Evaluation of expressions. A fault of a literal, a variable or an operator is reported at its node
and replaced by a fallback, so that only nesting too deep ends an evaluation.
-/

namespace TolerantScript.Expr

open TolerantScript.Action

def eval : Expr → Action Value
  | .literal l p => nested (recover p (.initial l.ty) l.value)
  | .var name p => nested do
    recover p (.initial .int) ((← store).get name)
  | .binary op l r p => nested do
    match op with
    | .and =>
      if ← truthOf p l.eval then return .bool (← truthOf p r.eval)
      else return .bool false
    | .or =>
      if ← truthOf p l.eval then return .bool true
      else return .bool (← truthOf p r.eval)
    | op =>
      let a ← l.eval
      let b ← r.eval
      recover p (op.fallback a b) (op.apply (← settings).maxStringLen a b)
  | .unary op e p => nested do
    let a ← e.eval
    recover p (op.fallback a) (op.apply a)
  | .paren e _ => nested e.eval

def test (e : Expr) : Action Bool := truthOf e.position e.eval

end TolerantScript.Expr
