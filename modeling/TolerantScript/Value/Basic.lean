import TolerantScript.Double
import TolerantScript.Single.Arithmetic
import TolerantScript.Single.Decimal
import TolerantScript.Ty

/-! Values, their types and their text. -/

namespace TolerantScript

inductive Value where
  | int (n : Int32)
  | float (x : Single)
  | bool (b : Bool)
  | string (s : String)
  deriving DecidableEq

namespace Value

def ty : Value → Ty
  | .int _ => .int
  | .float _ => .float
  | .bool _ => .bool
  | .string _ => .string

/-- What a variable of the type holds before anything is assigned to it. -/
def initial : Ty → Value
  | .int => .int 0
  | .float => .float (Single.zero false)
  | .bool => .bool false
  | .string => .string ""

instance : Inhabited Value := ⟨initial .int⟩

theorem ty_initial (ty : Ty) : (initial ty).ty = ty := by cases ty <;> rfl

def text : Value → String
  | .int n => n.toInt.repr
  | .float x => x.text
  | .bool b => if b then "true" else "false"
  | .string s => s

def isNumeric : Value → Bool
  | .int _ | .float _ => true
  | .bool _ | .string _ => false

/-- A number as a number of 32 bits, integers rounded to the nearest one. -/
def single? : Value → Option Single
  | .int n => some (Single.ofInt n.toInt)
  | .float x => some x
  | _ => none

/-- A number as a number of 64 bits, which holds it exactly. -/
def double? : Value → Option Double
  | .int n => some (Double.ofInt n.toInt)
  | .float x => some (Double.ofSingle x)
  | _ => none

def bool? : Value → Option Bool
  | .bool b => some b
  | _ => none

def string? : Value → Option String
  | .string s => some s
  | _ => none

end Value

end TolerantScript
