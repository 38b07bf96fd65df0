import TolerantScript.Proofs.Rounding
import TolerantScript.Value.Compare

/-!
Numbers widened to 64 bits. Every integer and every float is held exactly there, so that numbers of
both types stand to each other as their widened forms do.
-/

namespace TolerantScript

open Binary

/-- The point of a number, given by its sign and its rank, in units of the format, unless it is not
a number. -/
def Binary.Format.point? (f : Format) (negative : Bool) (rank : Nat) : Option Point :=
  if f.infinity < rank then none
  else if rank < f.infinity then
    some (.finite (if negative then -(f.units rank : Int) else f.units rank))
  else some (if negative then .least else .greatest)

theorem Single.point?_eq (x : Single) : x.point? = Format.single.point? x.isNegative x.rank := by
  simp only [point?, isNaN, isFinite, units, magnitude, Format.point?, decide_eq_true_eq]

namespace Point

def scale (k : Nat) : Point → Point
  | .finite units => .finite (units * k)
  | end_ => end_

theorem compare_scale {k : Nat} (hk : 0 < k) (a b : Point) :
    (a.scale k).compare (b.scale k) = a.compare b := by
  have hk' : (0 : Int) < k := Int.natCast_pos.mpr hk
  cases a with
  | finite a =>
    cases b with
    | finite b =>
      have hlt : a * k < b * k ↔ a < b := Int.mul_lt_mul_right hk'
      have heq : a * k = b * k ↔ a = b := Int.mul_eq_mul_right_iff (Int.ne_of_gt hk')
      simp only [scale, compare, hlt, heq]
    | least => rfl
    | greatest => rfl
  | least => cases b <;> rfl
  | greatest => cases b <;> rfl

end Point

namespace Double

def isNegative (x : Double) : Bool := 0x8000000000000000 ≤ x.bits.toNat

def rank (x : Double) : Nat := x.bits.toNat % 0x8000000000000000

def point? (x : Double) : Option Point := Format.double.point? x.isNegative x.rank

def order? (x y : Double) : Option Ordering := x.point?.bind fun a => y.point?.map a.compare

theorem toNat_ofRank (negative : Bool) {r : Nat} (h : r < 0x8000000000000000) :
    (ofRank negative r).bits.toNat = if negative then r + 0x8000000000000000 else r := by
  have hr : (if negative then r + 0x8000000000000000 else r) < 0x10000000000000000 := by
    split <;> omega
  simp only [ofRank, UInt64.toNat_ofNat']
  exact Nat.mod_eq_of_lt hr

theorem point?_ofRank (negative : Bool) {r : Nat} (h : r < 0x8000000000000000) :
    (ofRank negative r).point? = Format.double.point? negative r := by
  have hrank : (ofRank negative r).rank = r := by
    rw [rank, toNat_ofRank negative h]
    split <;> omega
  have hsign : (ofRank negative r).isNegative = negative := by
    rw [isNegative, toNat_ofRank negative h]
    cases negative with
    | true => simp
    | false => simpa using h
  rw [point?, hrank, hsign]

theorem signed_mul (negative : Bool) (m k : Nat) :
    (if negative then -((m * k : Nat) : Int) else ((m * k : Nat) : Int)) =
      (if negative then -(m : Int) else m) * k := by
  cases negative with
  | true => rw [if_pos rfl, if_pos rfl, Int.natCast_mul, Int.neg_mul]
  | false => exact Int.natCast_mul m k

/-- A quotient that the format holds, and that is far from infinity, keeps its place. -/
theorem point?_nearest (negative : Bool) {num den : Nat} (steps j k : Nat) (hden : 0 < den)
    (hsteps : steps < 2 ^ Format.double.precision)
    (h : num * Format.double.one = steps * 2 ^ j * den)
    (hbound : num * Format.double.one / den < 2 ^ k) (hk : Format.double.precision ≤ k)
    (hk' : k < 2097) :
    (ofRank negative (Format.double.rank num den)).point? =
      some (.finite ((if negative then -(steps : Int) else steps) * (2 ^ j : Nat))) := by
  have hfinite : Format.double.rank num den < Format.double.infinity := by
    have hle := Format.rank_le (by decide) hk hbound
    have hexponent : k - Format.double.precision + 2 ≤ 2046 := by
      simp only [Format.double]
      omega
    have hsteps := Nat.mul_le_mul_right Format.double.lead hexponent
    have hlast : 2046 * Format.double.lead < Format.double.infinity := by decide
    omega
  have hunits := Format.units_rank (by decide) hden hsteps h hfinite
  have hsmall : Format.double.infinity < 0x8000000000000000 := by decide
  rw [point?_ofRank negative (by omega), Format.point?, if_neg (by omega), if_pos hfinite, hunits,
    signed_mul]

theorem point?_ofInt (n : Int32) :
    (ofInt n.toInt).point? = some (.finite (n.toInt * Format.double.one)) := by
  have hlow := n.le_toInt
  have hhigh := n.toInt_lt
  have habs : n.toInt.natAbs < 2 ^ 32 := by omega
  have hsteps : n.toInt.natAbs < 2 ^ Format.double.precision := by
    simp only [Format.double]
    omega
  have hexact : n.toInt.natAbs * Format.double.one =
      n.toInt.natAbs * 2 ^ Format.double.scale * 1 := by
    rw [Nat.mul_one, Format.one_eq]
  have hsigned : (if decide (n.toInt < 0) then -(n.toInt.natAbs : Int) else n.toInt.natAbs) =
      n.toInt := by
    by_cases hnegative : n.toInt < 0
    · rw [if_pos (decide_eq_true hnegative)]
      omega
    · rw [if_neg (mt of_decide_eq_true hnegative)]
      omega
  have hnearest := point?_nearest (n.toInt < 0) n.toInt.natAbs Format.double.scale
    (32 + Format.double.scale) Nat.one_pos hsteps hexact (Format.double.whole_lt habs) (by decide)
    (by decide)
  rw [ofInt, hnearest, hsigned, Format.one_eq]

def unitsPerSingle : Nat := 2 ^ (Format.double.scale - Format.single.scale)

theorem unitsPerSingle_pos : 0 < unitsPerSingle := Nat.two_pow_pos _

theorem one_eq_mul_unitsPerSingle : Format.double.one = Format.single.one * unitsPerSingle := by
  rw [Format.one_eq, Format.one_eq, unitsPerSingle, ← Nat.pow_add, Nat.add_sub_cancel' (by decide)]

theorem point?_ofMagnitude (negative : Bool) {rank : Nat} (hrank : rank < Format.single.infinity) :
    (ofRank negative (Format.double.rank (Format.single.units rank) Format.single.one)).point? =
      some (.finite
        ((if negative then -(Format.single.units rank : Int) else Format.single.units rank) *
          unitsPerSingle)) := by
  obtain ⟨steps, j, hunits, hsteps⟩ :=
    Format.exists_steps (show 0 < Format.single.precision by decide) rank
  have hone : 0 < Format.single.one := Nat.two_pow_pos _
  have hexact : Format.single.units rank * Format.double.one =
      steps * 2 ^ (j + (Format.double.scale - Format.single.scale)) * Format.single.one := by
    rw [hunits, one_eq_mul_unitsPerSingle, Nat.pow_add, ← unitsPerSingle, ← Nat.mul_assoc,
      Nat.mul_right_comm, ← Nat.mul_assoc]
  have hlt : Format.single.units rank < 2 ^ (Format.single.precision + 255) := by
    refine Format.units_lt (by decide) (Nat.le_of_lt (Nat.lt_of_lt_of_le hrank ?_))
    decide
  have hbound : Format.single.units rank * Format.double.one / Format.single.one <
      2 ^ (Format.single.precision + 255 + (Format.double.scale - Format.single.scale)) := by
    rw [one_eq_mul_unitsPerSingle, Nat.mul_left_comm, Nat.mul_div_cancel_left _ hone,
      Nat.pow_add _ _ (_ - _), ← unitsPerSingle]
    exact Nat.mul_lt_mul_of_pos_right hlt unitsPerSingle_pos
  have hwider : 2 ^ Format.single.precision ≤ 2 ^ Format.double.precision :=
    Nat.pow_le_pow_right (by decide) (by decide)
  rw [point?_nearest negative steps _ _ hone (Nat.lt_of_lt_of_le hsteps hwider) hexact hbound
    (by decide) (by decide), Nat.pow_add, ← unitsPerSingle, hunits, signed_mul, Int.natCast_mul,
    Int.mul_assoc]

theorem point?_ofSingle (x : Single) :
    (ofSingle x).point? = x.point?.map (Point.scale unitsPerSingle) := by
  rw [ofSingle, Single.point?]
  split
  case isTrue hnan => decide
  case isFalse hnan =>
    split
    case isTrue hfinite => exact point?_ofMagnitude x.isNegative (of_decide_eq_true hfinite)
    case isFalse hfinite =>
      rw [point?_ofRank _ (by decide)]
      cases x.isNegative <;> rfl

end Double

namespace Value

open Double

/-- The widened form of a number stands where the number stands. -/
theorem point?_of_double? {v : Value} {x : Double} (h : v.double? = some x) :
    ∃ p, v.point? = some p ∧ x.point? = p.map (Point.scale unitsPerSingle) := by
  cases v with
  | int n =>
    cases h
    refine ⟨_, rfl, (point?_ofInt n).trans ?_⟩
    rw [one_eq_mul_unitsPerSingle, Int.natCast_mul, ← Int.mul_assoc]
    rfl
  | float y =>
    cases h
    exact ⟨_, rfl, point?_ofSingle y⟩
  | bool b => cases h
  | string s => cases h

theorem order?_of_point? {l r : Value} {p q : Option Point} (hl : l.point? = some p)
    (hr : r.point? = some q) : l.order? r = some (p.bind fun a => q.map a.compare) := by
  cases l with
  | string s => cases hl
  | _ => simp only [order?, hl, hr]

theorem order?_of_double? {l r : Value} {x y : Double} (hl : l.double? = some x)
    (hr : r.double? = some y) : l.order? r = some (x.order? y) := by
  obtain ⟨p, hp, hx⟩ := point?_of_double? hl
  obtain ⟨q, hq, hy⟩ := point?_of_double? hr
  rw [order?_of_point? hp hq, Double.order?, hx, hy]
  cases p with
  | none => rfl
  | some a =>
    cases q with
    | none => rfl
    | some b =>
      have hscaled := Point.compare_scale unitsPerSingle_pos a b
      exact congrArg (fun o => some (some o)) hscaled.symm

end Value

end TolerantScript
