import TolerantScript.Value.Basic

/-!
Equality and order of values.

Numbers of both types are compared as points of one line, in units of `2 ^ -149`, of which every
integer and every finite float is a whole multiple. What is not a number compares with nothing.
-/

namespace TolerantScript

inductive Point where
  | least
  | finite (units : Int)
  | greatest
  deriving DecidableEq

namespace Point

def compare : Point → Point → Ordering
  | .least, .least => .eq
  | .least, _ => .lt
  | .greatest, .greatest => .eq
  | .greatest, _ => .gt
  | .finite _, .least => .gt
  | .finite _, .greatest => .lt
  | .finite a, .finite b => if a < b then .lt else if a = b then .eq else .gt

end Point

def Single.point? (x : Single) : Option Point :=
  if x.isNaN then none
  else if x.isFinite then some (.finite x.units)
  else some (if x.isNegative then .least else .greatest)

namespace Value

/-- Whether a value is a number, and then its point, if it has one. -/
def point? : Value → Option (Option Point)
  | .int n => some (some (.finite (n.toInt * Binary.Format.single.one)))
  | .float x => some x.point?
  | _ => none

/-- How two numbers or two strings stand to each other, if they can be ordered at all; nothing
inside if one of them is not a number. Strings go by their code points. -/
def order? : Value → Value → Option (Option Ordering)
  | .string a, .string b => some (some (if a < b then .lt else if a = b then .eq else .gt))
  | l, r =>
    match l.point?, r.point? with
    | some p, some q => some (p.bind fun a => q.map a.compare)
    | _, _ => none

/-- Whether two values are equal, if they can be compared: a truth value stands beside a number as
the truth of that number. -/
def equal? : Value → Value → Option Bool
  | .bool a, .bool b => some (a == b)
  | .bool b, r => r.point?.map fun p => b == (p != some (.finite 0))
  | l, .bool b => l.point?.map fun p => b == (p != some (.finite 0))
  | l, r => (order? l r).map fun o => o == some .eq

end Value

end TolerantScript
