import TolerantScript.Single.Basic
import TolerantScript.Text.Digits

/-!
Decimal text of numbers of 32 bits.

Written without an exponent: a whole number in full with one zero after the point, any other finite
number with the fewest places that read back to it. Read by rounding the exact decimal once.
-/

namespace TolerantScript.Single

open Binary Text

/-- The digits of a decimal with the given number of places that reads back to the rank, taken from
the two neighbours of the exact value. The nearer one is preferred, the upper one if both are
equally near. -/
def digitsAt? (rank places : Nat) : Option Nat :=
  let exact := Format.single.units rank * Nat.pow 10 places
  let low := exact / Format.single.one
  let rest := exact % Format.single.one
  let lowReads := Format.single.rank low (Nat.pow 10 places) == rank
  let highReads := Format.single.rank (low + 1) (Nat.pow 10 places) == rank
  if lowReads && (!highReads || 2 * rest < Format.single.one) then some low
  else if highReads then some (low + 1)
  else none

/-- The first number of places, from `places` on, for which digits are found, and these digits. If
none are found in so many tries, those of the last number of places are taken. -/
def firstFrom (find : Nat → Option Nat) (last : Nat → Nat) : (tries places : Nat) → Nat × Nat
  | 0, places => (last places, places)
  | tries + 1, places =>
    match find places with
    | some digits => (digits, places)
    | none => firstFrom find last tries (places + 1)

/-- The first decimal that reads back, as digits and places. With 149 places the expansion is
exact. -/
def shortest (rank : Nat) : Nat × Nat :=
  firstFrom (digitsAt? rank)
    (fun places => Format.single.units rank * Nat.pow 10 places / Format.single.one) 148 1

def wholeText (n : Nat) : List Char := decimal n ++ ['.', '0']

def fractionText (digits places : Nat) : List Char :=
  decimal (digits / Nat.pow 10 places) ++ '.' :: paddedDecimal places (digits % Nat.pow 10 places)

def magnitudeText (rank : Nat) : List Char :=
  let units := Format.single.units rank
  if units % Format.single.one = 0 then wholeText (units / Format.single.one)
  else
    let (digits, places) := shortest rank
    fractionText digits places

def chars (x : Single) : List Char :=
  if x.isNaN then ['N', 'a', 'N']
  else
    let body := if x.isFinite then magnitudeText x.rank else ['i', 'n', 'f']
    if x.isNegative then '-' :: body else body

def text (x : Single) : String := String.ofList x.chars

/-- The number nearest to `digits * 10 ^ exponent`. Exponents that settle the result by themselves
are not computed with. -/
def ofDecimal (negative : Bool) (digits : Nat) (exponent : Int) : Single :=
  match exponent with
  | .ofNat e =>
    if digits = 0 then zero negative
    else if 39 < e then infinity negative
    else nearest negative (digits * Nat.pow 10 e) 1
  | .negSucc e =>
    if digits.log2 + 151 < 3 * (e + 1) then zero negative
    else nearest negative digits (Nat.pow 10 (e + 1))

def splitSign : List Char → Bool × List Char
  | '-' :: cs => (true, cs)
  | '+' :: cs => (false, cs)
  | cs => (false, cs)

def exponent? : List Char → Option Int
  | [] => some 0
  | c :: cs =>
    if c = 'e' ∨ c = 'E' then
      let (negative, digits) := splitSign cs
      (numeral? 10 digits).map fun n => if negative then -(n : Int) else n
    else none

def splitFraction : List Char → List Char × List Char
  | '.' :: cs => (cs.takeWhile Char.isDigit, cs.dropWhile Char.isDigit)
  | cs => ([], cs)

/-- Digits with or without a point, at least one of them, then perhaps an exponent. -/
def readDecimal? (negative : Bool) (cs : List Char) : Option Single := do
  let whole := cs.takeWhile Char.isDigit
  let (fraction, rest) := splitFraction (cs.dropWhile Char.isDigit)
  let digits ← numeral? 10 (whole ++ fraction)
  let exponent ← exponent? rest
  return ofDecimal negative digits (exponent - fraction.length)

def readWord? (negative : Bool) (cs : List Char) : Option Single :=
  let word := cs.map Char.toLower
  if word = ['n', 'a', 'n'] then some nan
  else if word = ['i', 'n', 'f'] ∨ word = ['i', 'n', 'f', 'i', 'n', 'i', 't', 'y'] then
    some (infinity negative)
  else none

def read? (cs : List Char) : Option Single :=
  let (negative, body) := splitSign cs
  readWord? negative body <|> readDecimal? negative body

end TolerantScript.Single
