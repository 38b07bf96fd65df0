import TolerantScript.Operator.Basic
import TolerantScript.Value.Compare
import TolerantScript.Value.Convert

/-!
Operators applied to values.

Integer results are exact or an overflow is reported; an operation with a float among two numbers is
carried out on floats; strings are joined and repeated up to a limit on their bytes. For an operator
that fails, `fallback` gives the value that takes the place of its result.
-/

namespace TolerantScript

def Value.ofInt (n : Int) : Except Fault Value :=
  if -0x80000000 ≤ n ∧ n < 0x80000000 then .ok (.int (Int32.ofInt n)) else .error .integerOverflow

/-- The text so many times in a row. An empty text stays empty, however often. -/
def repeated (s : String) (n : Nat) : String :=
  if s.isEmpty then "" else n.repeat (· ++ s) ""

/-- A length as 64 bits hold it; none if it overflows. -/
def wordLength? (bytes : Nat) : Option UInt64 :=
  if bytes < UInt64.size then some (UInt64.ofNat bytes) else none

def checkLength (limit : Nat) : Option UInt64 → Except Fault Unit
  | some length => if length.toNat ≤ limit then .ok () else .error (.stringTooLong limit)
  | none => .error (.stringTooLong limit)

theorem checkLength_wordLength? (limit bytes : Nat) :
    checkLength limit (wordLength? bytes) =
      if bytes < UInt64.size ∧ bytes ≤ limit then .ok () else .error (.stringTooLong limit) := by
  unfold wordLength?
  by_cases hword : bytes < UInt64.size
  · have hexact : (UInt64.ofNat bytes).toNat = bytes := UInt64.toNat_ofNat_of_lt' hword
    simp [checkLength, hword, hexact]
  · simp [checkLength, hword]

namespace BinaryOp

def refuse (op : BinaryOp) (l r : Value) : Fault := .badOperands op.symbol l.ty.name r.ty.name

/-- The exact integer operation on two integers, the rounded one on other pairs of numbers. -/
def arithmetic (op : BinaryOp) (exact : Int → Int → Int) (rounded : Single → Single → Single)
    (l r : Value) : Except Fault Value :=
  match l, r with
  | .int a, .int b => Value.ofInt (exact a.toInt b.toInt)
  | l, r =>
    match l.single?, r.single? with
    | some x, some y => .ok (.float (rounded x y))
    | _, _ => .error (op.refuse l r)

def join (limit : Nat) (s t : String) : Except Fault Value := do
  checkLength limit (wordLength? (s.utf8ByteSize + t.utf8ByteSize))
  return .string (s ++ t)

def multiply (limit : Nat) (s : String) (count : Int32) : Except Fault Value :=
  if count.toInt < 0 then
    .error (.badType s!"string repeat count must be non-negative, found {count.toInt}")
  else do
    checkLength limit (wordLength? (s.utf8ByteSize * count.toInt.toNat))
    return .string (repeated s count.toInt.toNat)

def isZeroDivisor : Value → Bool
  | .int n => n == 0
  | .float x => x.isZero
  | _ => false

def divide (l r : Value) : Except Fault Value :=
  if l.isNumeric && isZeroDivisor r then .error .divisionByZero
  else arithmetic .div Int.tdiv Single.div l r

/-- Only integers have a remainder, and it fails where the quotient does. -/
def remainder (l r : Value) : Except Fault Value :=
  match l, r with
  | .int a, .int b =>
    if b == 0 then .error .moduloByZero
    else do
      let _ ← Value.ofInt (a.toInt.tdiv b.toInt)
      Value.ofInt (a.toInt.tmod b.toInt)
  | .float _, _ | _, .float _ => .error (.badType "modulo requires integers")
  | l, r => .error (refuse .mod l r)

def equality (op : BinaryOp) (negate : Bool) (l r : Value) : Except Fault Value :=
  match l.equal? r with
  | some b => .ok (.bool (b != negate))
  | none => .error (op.refuse l r)

/-- An order test holds of no pair with something that is not a number. -/
def relation (op : BinaryOp) (holds : Ordering → Bool) (l r : Value) : Except Fault Value :=
  match l.order? r with
  | some o => .ok (.bool (o.any holds))
  | none => .error (op.refuse l r)

def apply (limit : Nat) (op : BinaryOp) (l r : Value) : Except Fault Value :=
  match op with
  | .add =>
    match l, r with
    | .string s, .string t => join limit s t
    | l, r => arithmetic .add (· + ·) Single.add l r
  | .sub => arithmetic .sub (· - ·) Single.sub l r
  | .mul =>
    match l, r with
    | .string s, .int n | .int n, .string s => multiply limit s n
    | l, r => arithmetic .mul (· * ·) Single.mul l r
  | .div => divide l r
  | .mod => remainder l r
  | .concat =>
    match l, r with
    | .string s, .string t => join limit s t
    | l, r => .error (refuse .concat l r)
  | .eq => equality .eq false l r
  | .ne => equality .ne true l r
  | .lt => relation .lt Ordering.isLT l r
  | .gt => relation .gt Ordering.isGT l r
  | .le => relation .le Ordering.isLE l r
  | .ge => relation .ge Ordering.isGE l r
  | .and => do
    if ← l.truth then return .bool (← r.truth)
    return .bool false
  | .or => do
    if ← l.truth then return .bool true
    return .bool (← r.truth)

/-- What stands for the result of the operator when it fails on the two values. -/
def fallback (op : BinaryOp) (l r : Value) : Value :=
  let ofNumbers : Value :=
    if l.ty = .float ∨ r.ty = .float then .initial .float else .initial .int
  match op with
  | .concat => .initial .string
  | .add | .mul => if l.ty = .string ∨ r.ty = .string then .initial .string else ofNumbers
  | .sub | .div => ofNumbers
  | .mod => .initial .int
  | .eq | .ne | .lt | .gt | .le | .ge | .and | .or => .initial .bool

end BinaryOp

namespace UnaryOp

def apply (op : UnaryOp) (v : Value) : Except Fault Value :=
  match op with
  | .neg =>
    match v with
    | .int n => Value.ofInt (-n.toInt)
    | .float x => .ok (.float x.neg)
    | v => .error (.badOperand (symbol .neg) v.ty.name)
  | .not => do return .bool (!(← v.truth))

def fallback (op : UnaryOp) (v : Value) : Value :=
  match op with
  | .neg => if v.ty = .float then .initial .float else .initial .int
  | .not => .initial .bool

end UnaryOp

end TolerantScript
