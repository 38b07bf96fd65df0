import TolerantScript.Single.Basic

/-! Floating-point numbers of 64 bits, to which integers and numbers of 32 bits widen exactly. -/

namespace TolerantScript

open Binary

structure Double where
  bits : UInt64
  deriving DecidableEq

namespace Double

def ofRank (negative : Bool) (rank : Nat) : Double :=
  ⟨UInt64.ofNat (if negative then rank + 0x8000000000000000 else rank)⟩

def nan : Double := ofRank false (Format.double.infinity + 0x8000000000000)

def isNaN (x : Double) : Bool := Format.double.infinity < x.bits.toNat % 0x8000000000000000

def ofInt (n : Int) : Double := ofRank (n < 0) (Format.double.rank n.natAbs 1)

def ofSingle (x : Single) : Double :=
  if x.isNaN then nan
  else if x.isFinite then ofRank x.isNegative (Format.double.rank x.magnitude Format.single.one)
  else ofRank x.isNegative Format.double.infinity

end Double

end TolerantScript
