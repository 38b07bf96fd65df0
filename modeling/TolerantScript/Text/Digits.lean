/-! Numerals: digit characters, and the number that a run of them writes in a radix. -/

namespace TolerantScript.Text

/-- The number that an ASCII digit or letter stands for, letters of either case from ten on. -/
def digitValue (c : Char) : Option Nat :=
  if '0' ≤ c ∧ c ≤ '9' then some (c.toNat - '0'.toNat)
  else if 'a' ≤ c ∧ c ≤ 'f' then some (c.toNat - 'a'.toNat + 10)
  else if 'A' ≤ c ∧ c ≤ 'F' then some (c.toNat - 'A'.toNat + 10)
  else none

def digit? (radix : Nat) (c : Char) : Option Nat :=
  (digitValue c).filter (· < radix)

def numeralFrom? (radix : Nat) : Nat → List Char → Option Nat
  | acc, [] => some acc
  | acc, c :: cs => do numeralFrom? radix (radix * acc + (← digit? radix c)) cs

/-- The number that one or more digits of the radix write; nothing for any other text. -/
def numeral? (radix : Nat) (cs : List Char) : Option Nat :=
  if cs.isEmpty then none else numeralFrom? radix 0 cs

def decimal (n : Nat) : List Char := Nat.toDigits 10 n

def paddedDecimal (width n : Nat) : List Char :=
  List.replicate (width - (decimal n).length) '0' ++ decimal n

end TolerantScript.Text
