/-! The four types of values, which are also the types that a variable can be declared with. -/

namespace TolerantScript

inductive Ty where
  | int
  | float
  | bool
  | string
  deriving DecidableEq

namespace Ty

def all : List Ty := [.int, .float, .bool, .string]

def name : Ty → String
  | .int => "int"
  | .float => "float"
  | .bool => "bool"
  | .string => "string"

def ofName? (name : String) : Option Ty := all.find? (·.name == name)

theorem ofName?_name (ty : Ty) : ofName? ty.name = some ty := by cases ty <;> decide

end Ty

end TolerantScript
