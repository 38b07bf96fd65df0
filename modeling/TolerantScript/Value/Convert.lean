import TolerantScript.Fault
import TolerantScript.Value.Basic

/-!
Conversions between types: an integer widens to a float, a number is a truth value by being nonzero,
and nothing else changes its type.
-/

namespace TolerantScript.Value

/-- The value as one of the target type. The name is that of the variable it is meant for. -/
def convert (v : Value) (target : Ty) (name : Option String) : Except Fault Value :=
  match v, target with
  | .int n, .int => .ok (.int n)
  | .float x, .float => .ok (.float x)
  | .bool b, .bool => .ok (.bool b)
  | .string s, .string => .ok (.string s)
  | .int n, .float => .ok (.float (Single.ofInt n.toInt))
  | .int n, .bool => .ok (.bool (n != 0))
  | .float x, .bool => .ok (.bool (!x.isZero))
  | v, target => .error (.conversion v.ty target name)

/-- The truth of a value: anything but zero and false, and no string has one. -/
def truth : Value → Except Fault Bool
  | .int n => .ok (n != 0)
  | .float x => .ok (!x.isZero)
  | .bool b => .ok b
  | .string _ => .error (.conversion .string .bool none)

theorem ty_of_convert (v w : Value) (target : Ty) (name : Option String)
    (h : v.convert target name = .ok w) : w.ty = target := by
  cases v <;> cases target <;> simp [convert] at h <;> subst h <;> rfl

end TolerantScript.Value
