import TolerantScript.Fault
import TolerantScript.Text.Blank
import TolerantScript.Value.Basic

/-!
Literals: the text of a token together with the type it was recognised as, and the value it writes.
-/

namespace TolerantScript

structure Literal where
  ty : Ty
  text : String
  deriving DecidableEq

namespace Literal

open Text

/-- The integer with the same 32 bits, for a numeral below `2 ^ 32`. -/
def wordValue? (radix : Nat) (digits : List Char) : Option Int32 := do
  let n ← numeral? radix digits
  if n < UInt32.size then some (UInt32.ofNat n).toInt32 else none

/-- Hexadecimal after `0x`, octal after `0`, decimal otherwise. A decimal numeral has to be in the
range of the type, the other two give all 32 bits. -/
def intValue? : List Char → Option Int32
  | '0' :: 'x' :: digits | '0' :: 'X' :: digits => wordValue? 16 digits
  | '0' :: d :: digits => wordValue? 8 (d :: digits)
  | digits => do
    let n ← numeral? 10 digits
    if n < 0x80000000 then some (Int32.ofNat n) else none

def boolValue? (cs : List Char) : Option Bool :=
  let word := cs.map Char.toLower
  if word = ['t', 'r', 'u', 'e'] then some true
  else if word = ['f', 'a', 'l', 's', 'e'] then some false
  else none

def unquoted (text : String) : String :=
  match text.toList with
  | '"' :: cs => if cs.getLast? = some '"' then String.ofList cs.dropLast else text
  | _ => text

/-- The value that the literal writes. Blanks around a number or a truth value do not count, but the
fault quotes the text with them. -/
def value (l : Literal) : Except Fault Value :=
  let word := trim l.text.toList
  let result :=
    match l.ty with
    | .int => (intValue? word).map .int
    | .float => (Single.read? word).map .float
    | .bool => (boolValue? word).map .bool
    | .string => some (.string (unquoted l.text))
  match result with
  | some v => .ok v
  | none => .error (.badLiteral l.ty l.text)

end Literal

end TolerantScript
