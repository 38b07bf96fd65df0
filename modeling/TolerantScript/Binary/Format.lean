/-!
Binary floating-point formats and the one rounding that all arithmetic here goes through.

The non-negative numbers of a format, infinity included, stand in increasing order; the place of a
number in that order is its *rank*, and in the usual interchange encodings the rank is the encoding
without its sign bit. Every finite number is a whole multiple of the least positive one, and `units`
says which multiple. Rounding takes an exact quotient of natural numbers to the rank of the nearest
number of the format.
-/

namespace TolerantScript.Binary

/-- The quotient to the nearest whole number, a half going to the even neighbour. -/
def roundDiv (num den : Nat) : Nat :=
  let q := num / den
  let r := num % den
  if 2 * r < den then q else if den < 2 * r then q + 1 else q + q % 2

theorem roundDiv_zero (den : Nat) : roundDiv 0 den = 0 := by
  simp [roundDiv]

theorem roundDiv_mul (q den : Nat) (h : 0 < den) : roundDiv (q * den) den = q := by
  simp [roundDiv, Nat.mul_div_cancel q h, h]

/-- A format with `precision` significant bits, whose least positive number is `2 ^ -scale` and
whose infinity has the rank `infinity`. -/
structure Format where
  precision : Nat
  scale : Nat
  infinity : Nat

namespace Format

def single : Format := ⟨24, 149, 0x7F800000⟩

def double : Format := ⟨53, 1074, 0x7FF0000000000000⟩

def lead (f : Format) : Nat := Nat.pow 2 (f.precision - 1)

def one (f : Format) : Nat := Nat.pow 2 f.scale

/-- The finite number of the given rank, as a multiple of the least positive number. -/
def units (f : Format) (rank : Nat) : Nat :=
  if rank < f.lead then rank
  else (rank % f.lead + f.lead) * Nat.pow 2 (rank / f.lead - 1)

/-- The rank of the number nearest to `num / den`, a tie going to the even rank. What exceeds every
finite number by half a step or more is infinite. -/
def rank (f : Format) (num den : Nat) : Nat :=
  let n := num * f.one
  let shift := (n / den).log2 - (f.precision - 1)
  min f.infinity (shift * f.lead + roundDiv n (den * Nat.pow 2 shift))

theorem rank_zero (f : Format) (den : Nat) : f.rank 0 den = 0 := by
  simp [rank, roundDiv_zero]

theorem rank_le_infinity (f : Format) (num den : Nat) : f.rank num den ≤ f.infinity :=
  Nat.min_le_left _ _

end Format

end TolerantScript.Binary
