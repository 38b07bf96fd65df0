import TolerantScript.Single.Basic

/-!
Arithmetic on numbers of 32 bits. Each operation takes the exact result on the finite numbers and
rounds it once; infinities and the outcomes that are not a number are settled before.
-/

namespace TolerantScript.Single

open Binary

def neg (x : Single) : Single := ofRank (!x.isNegative) x.rank

/-- An exact zero is negative only if both terms are. -/
def add (x y : Single) : Single :=
  if x.isNaN || y.isNaN then nan
  else if x.isFinite && y.isFinite then
    let sum := x.units + y.units
    nearest (if sum = 0 then x.isNegative && y.isNegative else decide (sum < 0)) sum.natAbs
      Format.single.one
  else if x.isFinite then y
  else if y.isFinite then x
  else if x.isNegative == y.isNegative then x
  else nan

def sub (x y : Single) : Single := add x y.neg

def mul (x y : Single) : Single :=
  let negative := x.isNegative != y.isNegative
  if x.isNaN || y.isNaN then nan
  else if x.isFinite && y.isFinite then
    nearest negative (x.magnitude * y.magnitude) (Format.single.one * Format.single.one)
  else if x.isZero || y.isZero then nan
  else infinity negative

def div (x y : Single) : Single :=
  let negative := x.isNegative != y.isNegative
  if x.isNaN || y.isNaN then nan
  else if !y.isFinite then if x.isFinite then zero negative else nan
  else if !x.isFinite then infinity negative
  else if y.isZero then if x.isZero then nan else infinity negative
  else nearest negative x.magnitude y.magnitude

end TolerantScript.Single
