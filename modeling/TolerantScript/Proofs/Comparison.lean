import TolerantScript.Proofs.ByteOrder
import TolerantScript.Proofs.OperatorType
import TolerantScript.Proofs.Widening

/-!
The six comparisons agree with each other. Two functions decide them, one for equality and one for
the order, and each law below is a fact about these two: when they answer at all, how they answer
with the operands exchanged, and that equality is the middle case of the order.
-/

namespace TolerantScript

/-! Points. -/

namespace Point

theorem compare_finite (a b : Int) : (finite a).compare (finite b) = Ord.compare a b := by
  simp only [compare, Ord.compare, compareOfLessAndEq]

theorem compare_swap (a b : Point) : b.compare a = (a.compare b).swap := by
  cases a with
  | finite a =>
    cases b with
    | finite b => rw [compare_finite, compare_finite, Int.compare_swap]
    | least => rfl
    | greatest => rfl
  | least => cases b <;> rfl
  | greatest => cases b <;> rfl

theorem compare_eq_eq_iff (a b : Point) : a.compare b = .eq ↔ a = b := by
  cases a with
  | finite a =>
    cases b with
    | finite b => rw [compare_finite, Int.compare_eq_eq, finite.injEq]
    | least => simp [compare]
    | greatest => simp [compare]
  | least => cases b <;> simp [compare]
  | greatest => cases b <;> simp [compare]

theorem compare_lt_trans {a b c : Point} (hab : a.compare b = .lt) (hbc : b.compare c = .lt) :
    a.compare c = .lt := by
  cases b with
  | finite b =>
    cases a with
    | finite a =>
      cases c with
      | finite c =>
        rw [compare_finite, Int.compare_eq_lt] at *
        omega
      | least => simp [compare] at hbc
      | greatest => rfl
    | least => cases c <;> simp [compare] at hbc ⊢
    | greatest => simp [compare] at hab
  | least => cases a <;> simp [compare] at hab
  | greatest => cases c <;> simp [compare] at hbc

end Point

/-! Values. -/

namespace Value

def isNaN : Value → Bool
  | .float x => x.isNaN
  | _ => false

def Ordered (l r : Value) : Prop :=
  l.ty = .string ∧ r.ty = .string ∨ l.isNumeric = true ∧ r.isNumeric = true

theorem order?_string (s t : String) :
    order? (.string s) (.string t) = some (some (compare s t)) := rfl

theorem order?_cases {l r : Value} {o : Option Ordering} (h : l.order? r = some o) :
    (∃ s t, l = .string s ∧ r = .string t ∧ o = some (compare s t)) ∨
      ∃ p q, l.point? = some p ∧ r.point? = some q ∧ o = p.bind fun a => q.map a.compare := by
  cases hl : l.point? with
  | some p =>
    cases hr : r.point? with
    | some q =>
      rw [order?_of_point? hl hr] at h
      exact .inr ⟨p, q, rfl, rfl, (Option.some.inj h).symm⟩
    | none =>
      -- A number has no order with what is not one.
      cases l with
      | string s => cases hl
      | _ =>
        simp only [order?, hl, hr] at h
        cases h
  | none =>
    cases l with
    | string s =>
      cases r with
      | string t => exact .inl ⟨s, t, rfl, rfl, (Option.some.inj h).symm⟩
      | _ => simp [order?, point?] at h
    | bool b => simp [order?, point?] at h
    | int n => cases hl
    | float x => cases hl

theorem isSome_order?_iff (l r : Value) : (l.order? r).isSome = true ↔ l.Ordered r := by
  rw [BinaryOp.isSome_order?]
  cases l <;> cases r <;> simp [Ordered, ty, isNumeric, Ty.isNumeric]

theorem exists_order? {l r : Value} (h : l.Ordered r) : ∃ o, l.order? r = some o :=
  Option.isSome_iff_exists.mp ((isSome_order?_iff l r).mpr h)

theorem Ordered.symm {l r : Value} (h : l.Ordered r) : r.Ordered l :=
  h.imp And.symm And.symm

theorem order?_swap (l r : Value) : r.order? l = (l.order? r).map (Option.map Ordering.swap) := by
  cases h : l.order? r with
  | some o =>
    obtain ⟨s, t, rfl, rfl, rfl⟩ | ⟨p, q, hp, hq, rfl⟩ := order?_cases h
    · rw [order?_string, Std.OrientedOrd.eq_swap]
      rfl
    · rw [order?_of_point? hq hp]
      cases p with
      | none => cases q <;> rfl
      | some a =>
        cases q with
        | none => rfl
        | some b => exact congrArg (fun o => some (some o)) (Point.compare_swap a b)
  | none =>
    have hnot : ¬l.Ordered r := by
      rw [← isSome_order?_iff, h]
      decide
    have hback : ¬(r.order? l).isSome = true := fun hsome =>
      hnot ((isSome_order?_iff r l).mp hsome).symm
    simpa using hback

theorem equal?_of_order? {l r : Value} {o : Option Ordering} (h : l.order? r = some o) :
    l.equal? r = some (o == some .eq) := by
  cases l with
  | bool b => simp [order?, point?] at h
  | _ =>
    cases r with
    | bool b => simp [order?, point?] at h
    | _ => simp [equal?, h]

theorem equal?_comm (l r : Value) : l.equal? r = r.equal? l := by
  have hordered : (l.order? r).map (fun o => o == some .eq) =
      (r.order? l).map fun o => o == some .eq := by
    rw [order?_swap l r, Option.map_map]
    congr 1
    funext o
    cases o with
    | none => rfl
    | some o => cases o <;> rfl
  cases l with
  | bool a =>
    cases r with
    | bool b => exact congrArg some (Bool.beq_comm)
    | _ => rfl
  | _ =>
    cases r with
    | bool b => rfl
    | _ => exact hordered

theorem eq_none_iff_of_point? {v : Value} {p : Option Point} (h : v.point? = some p) :
    p = none ↔ v.isNaN = true := by
  cases v with
  | int n =>
    cases h
    simp [isNaN]
  | float x =>
    cases h
    simp only [Single.point?, isNaN]
    split
    case isTrue hnan => simp [hnan]
    case isFalse hnan => split <;> simp [hnan]
  | bool b => cases h
  | string s => cases h

theorem eq_none_iff_of_order? {l r : Value} {o : Option Ordering} (h : l.order? r = some o) :
    o = none ↔ l.isNaN = true ∨ r.isNaN = true := by
  obtain ⟨s, t, rfl, rfl, rfl⟩ | ⟨p, q, hp, hq, rfl⟩ := order?_cases h
  · simp [isNaN]
  · rw [← eq_none_iff_of_point? hp, ← eq_none_iff_of_point? hq]
    cases p <;> cases q <;> simp

theorem order?_eq_iff_of_point? {l r : Value} {p q : Option Point} (hl : l.point? = some p)
    (hr : r.point? = some q) (o : Ordering) :
    l.order? r = some (some o) ↔ ∃ a b, p = some a ∧ q = some b ∧ a.compare b = o := by
  rw [order?_of_point? hl hr]
  cases p <;> cases q <;> simp

/-- What holds of the order of strings and of the order of points, from two pairs to a third, holds
of the order of values. -/
theorem order?_trans {l m r : Value} {o : Ordering}
    (hstring : ∀ s t u : String, compare s t = o → compare t u = o → compare s u = o)
    (hpoint : ∀ a b c : Point, a.compare b = o → b.compare c = o → a.compare c = o)
    (hlm : l.order? m = some (some o)) (hmr : m.order? r = some (some o)) :
    l.order? r = some (some o) := by
  obtain ⟨s, t, rfl, rfl, hst⟩ | ⟨p, q, hp, hq, hpq⟩ := order?_cases hlm
  · obtain ⟨t', u, ht, rfl, htu⟩ | ⟨p, q, hp, -, -⟩ := order?_cases hmr
    · cases ht
      rw [order?_string, hstring s t u (Option.some.inj hst).symm (Option.some.inj htu).symm]
    · cases hp
  · obtain ⟨t, u, rfl, -, -⟩ | ⟨-, x, -, hx, -⟩ := order?_cases hmr
    · cases hq
    · rw [order?_eq_iff_of_point? hp hq] at hlm
      rw [order?_eq_iff_of_point? hq hx] at hmr
      obtain ⟨a, b, rfl, rfl, hab⟩ := hlm
      obtain ⟨b', c, hb, rfl, hbc⟩ := hmr
      cases hb
      exact (order?_eq_iff_of_point? hp hx o).mpr ⟨a, c, rfl, rfl, hpoint a b c hab hbc⟩

theorem order?_lt_trans {l m r : Value} (hlm : l.order? m = some (some .lt))
    (hmr : m.order? r = some (some .lt)) : l.order? r = some (some .lt) :=
  order?_trans (fun _ _ _ => Std.TransCmp.lt_trans) (fun _ _ _ => Point.compare_lt_trans) hlm hmr

theorem order?_eq_trans {l m r : Value} (hlm : l.order? m = some (some .eq))
    (hmr : m.order? r = some (some .eq)) : l.order? r = some (some .eq) := by
  refine order?_trans (fun _ _ _ => Std.TransCmp.eq_trans) (fun a b c hab hbc => ?_) hlm hmr
  rw [Point.compare_eq_eq_iff] at *
  exact hab.trans hbc

end Value

/-! Operators. -/

namespace BinaryOp

def answer? (limit : Nat) (op : BinaryOp) (l r : Value) : Option Bool :=
  match op.apply limit l r with
  | .ok (.bool b) => some b
  | _ => none

def outcome (op : BinaryOp) (l r : Value) : Option Bool → Except Fault Value
  | some b => .ok (.bool b)
  | none => .error (op.refuse l r)

variable (limit : Nat) (l r : Value)

theorem answer?_of_outcome {op : BinaryOp} {answer : Option Bool}
    (h : op.apply limit l r = op.outcome l r answer) : op.answer? limit l r = answer := by
  rw [answer?, h]
  cases answer <;> rfl

theorem apply_eq_outcome {op : BinaryOp} {answer : Option Bool}
    (h : op.apply limit l r = op.outcome l r answer) :
    op.apply limit l r = op.outcome l r (op.answer? limit l r) := by
  rw [answer?_of_outcome limit l r h, h]

theorem apply_eq : apply limit .eq l r = outcome .eq l r (l.equal? r) := by
  rw [apply, equality]
  cases l.equal? r with
  | none => rfl
  | some b => cases b <;> rfl

theorem apply_ne : apply limit .ne l r = outcome .ne l r ((l.equal? r).map (!·)) := by
  rw [apply, equality]
  cases l.equal? r with
  | none => rfl
  | some b => cases b <;> rfl

theorem relation_eq (op : BinaryOp) (holds : Ordering → Bool) :
    relation op holds l r = op.outcome l r ((l.order? r).map (·.any holds)) := by
  rw [relation]
  cases l.order? r <;> rfl

/-- Which positions of the first operand an order test asks for. -/
def test : BinaryOp → Ordering → Bool
  | .lt => Ordering.isLT
  | .gt => Ordering.isGT
  | .le => Ordering.isLE
  | .ge => Ordering.isGE
  | _ => fun _ => false

def orders : List BinaryOp := [.lt, .gt, .le, .ge]

theorem apply_order {op : BinaryOp} (hop : op ∈ orders) :
    op.apply limit l r = op.outcome l r ((l.order? r).map (·.any op.test)) := by
  simp only [orders, List.mem_cons, List.not_mem_nil, or_false] at hop
  obtain rfl | rfl | rfl | rfl := hop <;> exact relation_eq l r _ _

theorem answer?_eq : answer? limit .eq l r = l.equal? r :=
  answer?_of_outcome limit l r (apply_eq limit l r)

theorem answer?_ne : answer? limit .ne l r = (l.equal? r).map (!·) :=
  answer?_of_outcome limit l r (apply_ne limit l r)

theorem answer?_order {op : BinaryOp} (hop : op ∈ orders) :
    op.answer? limit l r = (l.order? r).map (·.any op.test) :=
  answer?_of_outcome limit l r (apply_order limit l r hop)

theorem answer?_swap {op op' : BinaryOp} (hop : op ∈ orders) (hop' : op' ∈ orders)
    (h : ∀ place : Ordering, op.test place.swap = op'.test place) :
    op.answer? limit l r = op'.answer? limit r l := by
  rw [answer?_order limit l r hop, answer?_order limit r l hop', Value.order?_swap r l,
    Option.map_map]
  congr 1
  funext o
  cases o with
  | none => rfl
  | some place => exact h place

def Holds (limit : Nat) (op : BinaryOp) (l r : Value) : Prop := op.answer? limit l r = some true

/-- The comparisons of two values tell which of three conditions is met. -/
structure Tell (limit : Nat) (l r : Value) (before same after : Prop) : Prop where
  lt : Holds limit .lt l r ↔ before
  eq : Holds limit .eq l r ↔ same
  gt : Holds limit .gt l r ↔ after
  le : Holds limit .le l r ↔ before ∨ same
  ge : Holds limit .ge l r ↔ after ∨ same

variable {l r}

theorem holds_order {op : BinaryOp} (hop : op ∈ orders) {o : Option Ordering}
    (h : l.order? r = some o) : Holds limit op l r ↔ o.any op.test = true := by
  rw [Holds, answer?_order limit l r hop, h, Option.map_some, Option.some.injEq]

/-- All comparisons of ordered values follow from how the values stand to each other. -/
theorem tell_of_order? {o : Option Ordering} (h : l.order? r = some o) :
    Tell limit l r (o = some .lt) (o = some .eq) (o = some .gt) := by
  have heq : Holds limit .eq l r ↔ o = some .eq := by
    rw [Holds, answer?_eq, Value.equal?_of_order? h, Option.some.injEq, beq_iff_eq]
  refine ⟨?_, heq, ?_, ?_, ?_⟩
  all_goals
    rw [holds_order limit (by decide) h]
    cases o with
    | none => simp
    | some place => cases place <;> simp [test]

theorem holds_lt_iff : Holds limit .lt l r ↔ l.order? r = some (some .lt) := by
  cases h : l.order? r with
  | none => simp [Holds, answer?_order limit l r (show BinaryOp.lt ∈ orders by decide), h]
  | some o => rw [(tell_of_order? limit h).lt, Option.some.injEq]

theorem exists_tell (h : l.Ordered r) : ∃ o, l.order? r = some o ∧
    Tell limit l r (o = some .lt) (o = some .eq) (o = some .gt) := by
  obtain ⟨o, ho⟩ := Value.exists_order? h
  exact ⟨o, ho, tell_of_order? limit ho⟩

theorem holds_eq_iff (h : l.Ordered r) : Holds limit .eq l r ↔ l.order? r = some (some .eq) := by
  obtain ⟨o, ho, htell⟩ := exists_tell limit h
  rw [htell.eq, ho, Option.some.injEq]

theorem tell_int (a b : Int32) :
    Tell limit (.int a) (.int b) (a.toInt < b.toInt) (a.toInt = b.toInt) (b.toInt < a.toInt) := by
  have hone : 0 < Binary.Format.single.one := Nat.two_pow_pos _
  have horder : Value.order? (.int a) (.int b) = some (some (compare a.toInt b.toInt)) := by
    rw [← Point.compare_finite, ← Point.compare_scale hone]
    rfl
  have htell := tell_of_order? limit horder
  simp only [Option.some.injEq, Int.compare_eq_lt, Int.compare_eq_eq, Int.compare_eq_gt] at htell
  exact htell

theorem tell_string (s t : String) :
    Tell limit (.string s) (.string t) (Text.bytes s < Text.bytes t) (Text.bytes s = Text.bytes t)
      (Text.bytes t < Text.bytes s) := by
  have hlt (s t : String) : compare s t = .lt ↔ Text.bytes s < Text.bytes t := by
    rw [Text.bytes_lt_iff]
    exact compareOfLessAndEq_eq_lt
  have heq : compare s t = .eq ↔ Text.bytes s = Text.bytes t := by
    rw [Text.bytes_inj, Std.LawfulEqOrd.compare_eq_iff_eq]
  have htell := tell_of_order? limit (Value.order?_string s t)
  simp only [Option.some.injEq, hlt, heq, Std.OrientedCmp.gt_iff_lt] at htell
  exact htell

theorem tell_widened {x y : Double} (hl : l.double? = some x) (hr : r.double? = some y) :
    Tell limit l r (x.order? y = some .lt) (x.order? y = some .eq) (x.order? y = some .gt) :=
  tell_of_order? limit (Value.order?_of_double? hl hr)

end BinaryOp

open BinaryOp Value

structure ComparisonLaws (limit : Nat) : Prop where
  /-- A comparison gives a truth value, or refuses its operands. -/
  outcome : ∀ op ∈ BinaryOp.eq :: .ne :: orders, ∀ l r,
    op.apply limit l r = op.outcome l r (op.answer? limit l r)
  ne : ∀ l r, answer? limit .ne l r = (answer? limit .eq l r).map (!·)
  eq_comm : ∀ l r, answer? limit .eq l r = answer? limit .eq r l
  /-- The four order tests are for two strings or two numbers. -/
  ordered : ∀ op ∈ orders, ∀ l r, (op.answer? limit l r).isSome = true ↔ l.Ordered r
  gt : ∀ l r, answer? limit .gt l r = answer? limit .lt r l
  ge : ∀ l r, answer? limit .ge l r = answer? limit .le r l
  le_iff : ∀ l r, l.Ordered r → (Holds limit .le l r ↔ Holds limit .lt l r ∨ Holds limit .eq l r)
  exclusive : ∀ l r, l.Ordered r → ¬(Holds limit .lt l r ∧ Holds limit .eq l r) ∧
    ¬(Holds limit .lt l r ∧ Holds limit .gt l r) ∧ ¬(Holds limit .eq l r ∧ Holds limit .gt l r)
  total : ∀ l r, l.Ordered r → l.isNaN = false → r.isNaN = false →
    Holds limit .lt l r ∨ Holds limit .eq l r ∨ Holds limit .gt l r
  /-- What is not a number is neither before nor after anything, nor equal to it. -/
  nan : ∀ l r, l.Ordered r → l.isNaN = true ∨ r.isNaN = true →
    ∀ op ∈ BinaryOp.eq :: orders, op.answer? limit l r = some false
  lt_trans : ∀ l m r, Holds limit .lt l m → Holds limit .lt m r → Holds limit .lt l r
  eq_trans : ∀ l m r, l.isNumeric = true → m.isNumeric = true → r.isNumeric = true →
    Holds limit .eq l m → Holds limit .eq m r → Holds limit .eq l r
  int : ∀ a b : Int32,
    Tell limit (.int a) (.int b) (a.toInt < b.toInt) (a.toInt = b.toInt) (b.toInt < a.toInt)
  string : ∀ s t : String,
    Tell limit (.string s) (.string t) (Text.bytes s < Text.bytes t) (Text.bytes s = Text.bytes t)
      (Text.bytes t < Text.bytes s)
  /-- Numbers of both types are compared in 64 bits. -/
  widened : ∀ l r x y, l.double? = some x → r.double? = some y →
    Tell limit l r (x.order? y = some .lt) (x.order? y = some .eq) (x.order? y = some .gt)

/-- The comparisons are consistent with each other on all operands. -/
theorem comparisons_consistent (limit : Nat) : ComparisonLaws limit where
  outcome := by
    intro op hop l r
    simp only [List.mem_cons] at hop
    obtain rfl | rfl | hop := hop
    · exact apply_eq_outcome limit l r (apply_eq limit l r)
    · exact apply_eq_outcome limit l r (apply_ne limit l r)
    · exact apply_eq_outcome limit l r (apply_order limit l r hop)
  ne l r := by rw [answer?_ne, answer?_eq]
  eq_comm l r := by rw [answer?_eq, answer?_eq, equal?_comm]
  ordered op hop l r := by rw [answer?_order limit l r hop, Option.isSome_map, isSome_order?_iff]
  gt l r := by
    refine answer?_swap limit l r (by decide) (by decide) fun place => ?_
    cases place <;> rfl
  ge l r := by
    refine answer?_swap limit l r (by decide) (by decide) fun place => ?_
    cases place <;> rfl
  le_iff l r h := by
    obtain ⟨o, -, htell⟩ := exists_tell limit h
    rw [htell.le, htell.lt, htell.eq]
  exclusive l r h := by
    obtain ⟨o, -, htell⟩ := exists_tell limit h
    rw [htell.lt, htell.eq, htell.gt]
    refine ⟨?_, ?_, ?_⟩ <;>
    · rintro ⟨rfl, hother⟩
      cases hother
  total l r h hl hr := by
    obtain ⟨o, ho, htell⟩ := exists_tell limit h
    rw [htell.lt, htell.eq, htell.gt]
    cases o with
    | none => simpa [hl, hr] using eq_none_iff_of_order? ho
    | some place => cases place <;> simp
  nan l r h hnan op hop := by
    obtain ⟨o, ho⟩ := exists_order? h
    obtain rfl := (eq_none_iff_of_order? ho).mpr hnan
    obtain rfl | hop := List.mem_cons.mp hop
    · rw [answer?_eq, equal?_of_order? ho]
      rfl
    · rw [answer?_order limit l r hop, ho]
      rfl
  lt_trans l m r hlm hmr := by
    rw [holds_lt_iff] at *
    exact order?_lt_trans hlm hmr
  eq_trans l m r hl hm hr hlm hmr := by
    rw [holds_eq_iff limit (.inr ⟨hl, hm⟩)] at hlm
    rw [holds_eq_iff limit (.inr ⟨hm, hr⟩)] at hmr
    rw [holds_eq_iff limit (.inr ⟨hl, hr⟩)]
    exact order?_eq_trans hlm hmr
  int := tell_int limit
  string := tell_string limit
  widened _ _ _ _ := tell_widened limit

/-- The next integer after `2 ^ 24` is no number of 32 bits, and still stands after the float `2 ^
24`. -/
example : answer? 0 .lt (.float ⟨0x4b800000⟩) (.int 16777217) = some true := by decide +kernel

end TolerantScript
