import TolerantScript.Position
import TolerantScript.Ty

/-!
Everything that can go wrong while a program runs, and its wording.

Three faults are fatal and end a run. Every other one is recorded as a diagnostic, and the run goes
on with a value in place of the missing one.
-/

namespace TolerantScript

inductive Fault where
  | duplicateDeclaration (name : String)
  | undeclaredVariable (name : String)
  | badType (message : String)
  /-- Operator symbol and the names of the operands' types. -/
  | badOperands (op left right : String)
  | badOperand (op operand : String)
  /-- A conversion that is not allowed, and the variable it was meant for. -/
  | conversion (source target : Ty) (name : Option String)
  | divisionByZero
  | moduloByZero
  | integerOverflow
  /-- The literal's type and its text as given. -/
  | badLiteral (ty : Ty) (text : String)
  | stringTooLong (max : Nat)
  | missingType (position : Position)
  | nestingTooDeep (depth max : Nat)
  | interrupted
  deriving DecidableEq

namespace Fault

def isFatal : Fault → Bool
  | .missingType _ | .nestingTooDeep .. | .interrupted => true
  | _ => false

def isTypeFault : Fault → Bool
  | .badType _ | .badOperands .. | .badOperand .. => true
  | _ => false

def message : Fault → String
  | .duplicateDeclaration name => s!"Variable '{name}' is already declared."
  | .undeclaredVariable name => s!"Variable '{name}' is not declared."
  | .badType message => s!"Type error: {message}"
  | .badOperands op left right => s!"Type error: cannot apply `{op}` to {left} and {right}"
  | .badOperand op operand => s!"Type error: cannot apply unary `{op}` to {operand}"
  | .conversion source target none => s!"Cannot convert {source.name} to {target.name}"
  | .conversion source target (some name) =>
    s!"Cannot convert {source.name} to {target.name} for variable '{name}'"
  | .divisionByZero => "Division by zero"
  | .moduloByZero => "Modulo by zero"
  | .integerOverflow => "Integer overflow"
  | .badLiteral ty text => s!"Invalid {ty.name} literal: {text}"
  | .stringTooLong max => s!"String result exceeds the maximum length of {max} bytes"
  | .missingType position =>
    s!"Type information is missing in the variable declaration at {position.text}"
  | .nestingTooDeep depth max => s!"Nesting too deep: depth {depth} exceeds maximum {max}"
  | .interrupted => "Evaluation interrupted"

end Fault

end TolerantScript
