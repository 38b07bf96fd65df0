import TolerantScript.Binary.Format

/-! Floating-point numbers of 32 bits: sign, rank, and the exact value in units of `2 ^ -149`. -/

namespace TolerantScript

open Binary

structure Single where
  bits : UInt32
  deriving DecidableEq

namespace Single

def isNegative (x : Single) : Bool := 0x80000000 ≤ x.bits.toNat

/-- The place of the magnitude among the magnitudes of the format. -/
def rank (x : Single) : Nat := x.bits.toNat % 0x80000000

def ofRank (negative : Bool) (rank : Nat) : Single :=
  ⟨UInt32.ofNat (if negative then rank + 0x80000000 else rank)⟩

theorem toNat_ofRank (negative : Bool) (r : Nat) (h : r < 0x80000000) :
    (ofRank negative r).bits.toNat = if negative then r + 0x80000000 else r := by
  have hr : (if negative then r + 0x80000000 else r) < 0x100000000 := by split <;> omega
  simp only [ofRank, UInt32.toNat_ofNat']
  exact Nat.mod_eq_of_lt hr

theorem rank_ofRank (negative : Bool) (r : Nat) (h : r < 0x80000000) :
    (ofRank negative r).rank = r := by
  rw [rank, toNat_ofRank negative r h]
  split <;> omega

theorem ofRank_rank (x : Single) : ofRank x.isNegative x.rank = x := by
  have hx := x.bits.toNat_lt
  have hr : x.rank < 0x80000000 := Nat.mod_lt _ (by omega)
  have hb : (ofRank x.isNegative x.rank).bits.toNat = x.bits.toNat := by
    rw [toNat_ofRank _ _ hr, isNegative, rank]
    simp only [decide_eq_true_eq]
    split <;> omega
  cases x
  exact congrArg Single.mk (UInt32.toNat_inj.mp hb)

def isNaN (x : Single) : Bool := Format.single.infinity < x.rank

def isFinite (x : Single) : Bool := x.rank < Format.single.infinity

def isZero (x : Single) : Bool := x.rank == 0

def nan : Single := ofRank false (Format.single.infinity + 0x400000)

def infinity (negative : Bool) : Single := ofRank negative Format.single.infinity

def zero (negative : Bool) : Single := ofRank negative 0

/-- The magnitude of a finite number in units of `2 ^ -149`. -/
def magnitude (x : Single) : Nat := Format.single.units x.rank

def units (x : Single) : Int :=
  if x.isNegative then -(x.magnitude : Int) else x.magnitude

def nearest (negative : Bool) (num den : Nat) : Single :=
  ofRank negative (Format.single.rank num den)

def ofInt (n : Int) : Single := nearest (n < 0) n.natAbs 1

end Single

end TolerantScript
