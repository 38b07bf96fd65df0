import TolerantScript.Binary.Format
import TolerantScript.Json.Basic
import TolerantScript.Text.Digits

/-!
Numbers in JSON text: no leading zeros, a digit on both sides of a point, a digit after the mark of
an exponent, and a magnitude within the range of 64-bit floating point.
-/

namespace TolerantScript.Json

open Binary

/-- The parts of a number as written; an exponent has its sign beside its digits. -/
structure Numeral where
  negative : Bool
  whole : List Char
  fraction : Option (List Char)
  exponent : Option (Bool × List Char)

namespace Numeral

/-- The digits before the point. `ended` is the failure at the end of the text. -/
def readWhole (ended : ReadError) : Reader (List Char)
  | [] => .error ended
  | c :: cs =>
    if c = '0' then
      if cs.head?.any Char.isDigit then .error .malformed else .ok (['0'], cs)
    else if c.isDigit then .ok ((c :: cs).takeWhile Char.isDigit, (c :: cs).dropWhile Char.isDigit)
    else .error .malformed

def readDigits (ended : ReadError) (cs : List Char) : Except ReadError (List Char × List Char) :=
  match cs.takeWhile Char.isDigit with
  | [] => .error (if cs.isEmpty then ended else .malformed)
  | ds => .ok (ds, cs.dropWhile Char.isDigit)

def readFraction (ended : ReadError) : Reader (Option (List Char))
  | '.' :: cs => do
    let (ds, rest) ← readDigits ended cs
    return (some ds, rest)
  | cs => .ok (none, cs)

def readExponent (ended : ReadError) : Reader (Option (Bool × List Char))
  | c :: cs =>
    if c = 'e' ∨ c = 'E' then do
      let (negative, cs) :=
        match cs with
        | '-' :: cs => (true, cs)
        | '+' :: cs => (false, cs)
        | cs => (false, cs)
      let (ds, rest) ← readDigits ended cs
      return (some (negative, ds), rest)
    else .ok (none, c :: cs)
  | [] => .ok (none, [])

def read (ended : ReadError) (negative : Bool) (cs : List Char) :
    Except ReadError (Numeral × List Char) := do
  let (whole, rest) ← readWhole ended cs
  let (fraction, rest) ← readFraction ended rest
  let (exponent, rest) ← readExponent ended rest
  return (⟨negative, whole, fraction, exponent⟩, rest)

/-- The number that leading digits write, continuing from `acc` as long as 64 bits hold it, and how
many digits are left out. -/
def leading (acc : Nat) : List Char → Nat × Nat
  | [] => (acc, 0)
  | c :: cs =>
    let next := 10 * acc + (c.toNat - '0'.toNat)
    if next < UInt64.size then leading next cs else (acc, cs.length + 1)

def scientific (n : Numeral) : Nat × Int :=
  let fraction := n.fraction.getD []
  let (high, wholeRest) := leading 0 n.whole
  let (digits, fractionRest) := leading high fraction
  let exponent : Int :=
    match n.exponent with
    | none => 0
    | some (negative, ds) =>
      let e : Int := Nat.ofDigitChars 10 ds 0
      if negative then -e else e
  (digits, wholeRest - (fraction.length - fractionRest : Nat) + exponent)

/-- Whether the product of the leading digits and the power of ten, both rounded to 64-bit floating
point, is finite there. -/
def inRange (n : Numeral) : Bool :=
  let (digits, exponent) := n.scientific
  let f := Format.double
  digits == 0 || exponent < 0 ||
    (exponent ≤ 308 &&
      f.rank (f.units (f.rank digits 1) * f.units (f.rank (Nat.pow 10 exponent.toNat) 1))
        (f.one * f.one) < f.infinity)

def value (n : Numeral) : Json :=
  match n.negative, n.fraction, n.exponent with
  | false, none, none => .natural (Nat.ofDigitChars 10 n.whole 0)
  | _, _, _ => .number

end Numeral

end TolerantScript.Json
