import TolerantScript.Operator.Apply

/-!
The types of operators. On operands of types that it takes, an operator gives a value of its result
type or fails because of the values; on others it always fails, with a fault that depends on the
types alone. Either way the value that stands in for a missing result has the result's type.
-/

namespace TolerantScript

namespace Ty

def isNumeric : Ty → Bool
  | .int | .float => true
  | .bool | .string => false

def number? (l r : Ty) : Option Ty :=
  if l = .int ∧ r = .int then some .int
  else if l.isNumeric ∧ r.isNumeric then some .float
  else none

end Ty

/-- Faults of an operator that takes operands of the types given, but not these values. -/
inductive Fault.OfValues (limit : Nat) : Fault → Prop where
  | integerOverflow : OfValues limit .integerOverflow
  | divisionByZero : OfValues limit .divisionByZero
  | moduloByZero : OfValues limit .moduloByZero
  | stringTooLong : OfValues limit (.stringTooLong limit)
  | negativeCount (count : Int) (h : count < 0) :
    OfValues limit (.badType s!"string repeat count must be non-negative, found {count}")

theorem Fault.OfValues.isFatal {limit : Nat} {fault : Fault} (h : fault.OfValues limit) :
    fault.isFatal = false := by
  cases h <;> rfl

theorem Value.truth_of_ne_string {v : Value} (h : v.ty ≠ .string) : ∃ b, v.truth = .ok b := by
  cases v with
  | int n => exact ⟨_, rfl⟩
  | float x => exact ⟨_, rfl⟩
  | bool b => exact ⟨_, rfl⟩
  | string s => exact absurd rfl h

def Delivers (limit : Nat) (t : Ty) : Except Fault Value → Prop
  | .ok v => v.ty = t
  | .error fault => fault.OfValues limit

/-- The fault is the one that the types make certain, or, where they make none certain, it comes
from the values. -/
def Fault.ArisesFrom (limit : Nat) (misfit? : Option Fault) (fault : Fault) : Prop :=
  match misfit? with
  | some misfit => fault = misfit ∧ misfit.isFatal = false
  | none => fault.OfValues limit

theorem Fault.ArisesFrom.isFatal {limit : Nat} {misfit? : Option Fault} {fault : Fault}
    (h : fault.ArisesFrom limit misfit?) : fault.isFatal = false := by
  cases misfit? with
  | some misfit =>
    obtain ⟨rfl, hfatal⟩ := h
    exact hfatal
  | none => exact OfValues.isFatal h

def Answers (limit : Nat) (t : Ty) (misfit? : Option Fault) : Except Fault Value → Prop
  | .ok v => v.ty = t ∧ misfit? = none
  | .error fault => fault.ArisesFrom limit misfit?

theorem Delivers.answers {limit : Nat} {t : Ty} {r : Except Fault Value} (h : Delivers limit t r) :
    Answers limit t none r := by
  cases r with
  | ok v => exact ⟨h, rfl⟩
  | error fault => exact h

namespace BinaryOp

def resultTy? (op : BinaryOp) (l r : Ty) : Option Ty :=
  match op with
  | .add => if l = .string ∧ r = .string then some .string else Ty.number? l r
  | .sub | .div => Ty.number? l r
  | .mul =>
    if l = .string ∧ r = .int ∨ l = .int ∧ r = .string then some .string else Ty.number? l r
  | .mod => if l = .int ∧ r = .int then some .int else none
  | .concat => if l = .string ∧ r = .string then some .string else none
  | .eq | .ne => if l = .string ↔ r = .string then some .bool else none
  | .lt | .gt | .le | .ge =>
    if l = .string ∧ r = .string ∨ l.isNumeric ∧ r.isNumeric then some .bool else none
  | .and | .or => if l ≠ .string ∧ r ≠ .string then some .bool else none

def isLogical : BinaryOp → Bool
  | .and | .or => true
  | _ => false

def misfit (op : BinaryOp) (l r : Ty) : Fault :=
  if op.isLogical then .conversion .string .bool none
  else if op = .mod ∧ (l = .float ∨ r = .float) then .badType "modulo requires integers"
  else .badOperands op.symbol l.name r.name

/-- The fault that the operands' types make certain, or, for a logical operator, as soon as it looks
at the operand. -/
def misfit? (op : BinaryOp) (l r : Ty) : Option Fault :=
  match op.resultTy? l r with
  | some _ => none
  | none => some (op.misfit l r)

def kind (op : BinaryOp) (l r : Ty) : Ty :=
  match op with
  | .concat => .string
  | .add | .mul =>
    if l = .string ∨ r = .string then .string else if l = .float ∨ r = .float then .float else .int
  | .sub | .div => if l = .float ∨ r = .float then .float else .int
  | .mod => .int
  | _ => .bool

theorem kind_of_resultTy? {op : BinaryOp} {l r t : Ty} (h : op.resultTy? l r = some t) :
    op.kind l r = t := by
  -- As a truth value it is settled by going through all operators and types.
  have hall : (op.resultTy? l r).all (op.kind l r == ·) = true := by
    cases op <;> cases l <;> cases r <;> rfl
  rw [h] at hall
  exact eq_of_beq hall

theorem ty_fallback (op : BinaryOp) (l r : Value) : (op.fallback l r).ty = op.kind l.ty r.ty := by
  have hnumbers : (if l.ty = .float ∨ r.ty = .float then Value.initial .float
      else Value.initial .int).ty = if l.ty = .float ∨ r.ty = .float then .float else .int := by
    split <;> rfl
  cases op with
  | add | mul =>
    simp only [fallback, kind]
    split
    · rfl
    · exact hnumbers
  | sub | div => exact hnumbers
  | _ => rfl

theorem delivers_ofInt (limit : Nat) (n : Int) : Delivers limit .int (Value.ofInt n) := by
  unfold Value.ofInt
  split
  · rfl
  · exact .integerOverflow

theorem delivers_join (limit : Nat) (s t : String) : Delivers limit .string (join limit s t) := by
  rw [join, checkLength_wordLength?]
  split
  · rfl
  · exact .stringTooLong

theorem delivers_multiply (limit : Nat) (s : String) (count : Int32) :
    Delivers limit .string (multiply limit s count) := by
  rw [multiply, checkLength_wordLength?]
  split
  case isTrue hneg => exact .negativeCount count.toInt hneg
  case isFalse =>
    split
    · rfl
    · exact .stringTooLong

theorem delivers_arithmetic (limit : Nat) (op : BinaryOp) (exact : Int → Int → Int)
    (rounded : Single → Single → Single) {l r : Value} {t : Ty}
    (h : Ty.number? l.ty r.ty = some t) : Delivers limit t (arithmetic op exact rounded l r) := by
  cases l <;> cases r <;> cases h
  case int.int a b => exact delivers_ofInt limit _
  all_goals rfl

theorem arithmetic_refuses (op : BinaryOp) (exact : Int → Int → Int)
    (rounded : Single → Single → Single) {l r : Value} (h : Ty.number? l.ty r.ty = none) :
    arithmetic op exact rounded l r = .error (op.refuse l r) := by
  cases l <;> cases r <;> cases h <;> rfl

theorem delivers_divide (limit : Nat) {l r : Value} {t : Ty}
    (h : Ty.number? l.ty r.ty = some t) : Delivers limit t (divide l r) := by
  unfold divide
  split
  · exact .divisionByZero
  · exact delivers_arithmetic limit _ _ _ h

/-- A zero divisor is looked for first, but only under a number, where the types fit. -/
theorem divide_refuses {l r : Value} (h : Ty.number? l.ty r.ty = none) :
    divide l r = .error (refuse .div l r) := by
  have hzero : (l.isNumeric && isZeroDivisor r) = false := by
    cases l <;> cases r <;> cases h <;> rfl
  rw [divide, hzero]
  exact arithmetic_refuses _ _ _ h

theorem delivers_remainder (limit : Nat) (a b : Int32) :
    Delivers limit .int (remainder (.int a) (.int b)) := by
  simp only [remainder]
  split
  · exact .moduloByZero
  · have hquotient := delivers_ofInt limit (a.toInt.tdiv b.toInt)
    cases hq : Value.ofInt (a.toInt.tdiv b.toInt) with
    | ok v => exact delivers_ofInt limit _
    | error fault =>
      rw [hq] at hquotient
      exact hquotient

theorem remainder_refuses {l r : Value} (h : resultTy? .mod l.ty r.ty = none) :
    remainder l r = .error (misfit .mod l.ty r.ty) := by
  cases l <;> cases r <;> cases h <;> rfl

theorem isSome_equal? (l r : Value) :
    (l.equal? r).isSome = true ↔ (l.ty = .string ↔ r.ty = .string) := by
  cases l <;> cases r <;> simp [Value.equal?, Value.order?, Value.point?, Value.ty]

theorem isSome_order? (l r : Value) :
    (l.order? r).isSome = true ↔
      l.ty = .string ∧ r.ty = .string ∨ l.ty.isNumeric ∧ r.ty.isNumeric := by
  cases l <;> cases r <;> simp [Value.order?, Value.point?, Value.ty, Ty.isNumeric]

theorem delivers_equality (limit : Nat) (op : BinaryOp) (negate : Bool) {l r : Value}
    (h : l.ty = .string ↔ r.ty = .string) : Delivers limit .bool (equality op negate l r) := by
  obtain ⟨b, hb⟩ := Option.isSome_iff_exists.mp ((isSome_equal? l r).mpr h)
  simp only [equality, hb]
  rfl

theorem equality_refuses (op : BinaryOp) (negate : Bool) {l r : Value}
    (h : ¬(l.ty = .string ↔ r.ty = .string)) :
    equality op negate l r = .error (op.refuse l r) := by
  have hnone : l.equal? r = none := by
    simpa using mt (isSome_equal? l r).mp h
  simp only [equality, hnone]

theorem delivers_relation (limit : Nat) (op : BinaryOp) (holds : Ordering → Bool) {l r : Value}
    (h : l.ty = .string ∧ r.ty = .string ∨ l.ty.isNumeric ∧ r.ty.isNumeric) :
    Delivers limit .bool (relation op holds l r) := by
  obtain ⟨o, ho⟩ := Option.isSome_iff_exists.mp ((isSome_order? l r).mpr h)
  simp only [relation, ho]
  rfl

theorem relation_refuses (op : BinaryOp) (holds : Ordering → Bool) {l r : Value}
    (h : ¬(l.ty = .string ∧ r.ty = .string ∨ l.ty.isNumeric ∧ r.ty.isNumeric)) :
    relation op holds l r = .error (op.refuse l r) := by
  have hnone : l.order? r = none := by
    simpa using mt (isSome_order? l r).mp h
  simp only [relation, hnone]

theorem apply_add_numbers (limit : Nat) {l r : Value} (h : ¬(l.ty = .string ∧ r.ty = .string)) :
    apply limit .add l r = arithmetic .add (· + ·) Single.add l r := by
  cases l <;> cases r <;> try rfl
  exact absurd ⟨rfl, rfl⟩ h

theorem apply_mul_numbers (limit : Nat) {l r : Value}
    (h : ¬(l.ty = .string ∧ r.ty = .int ∨ l.ty = .int ∧ r.ty = .string)) :
    apply limit .mul l r = arithmetic .mul (· * ·) Single.mul l r := by
  cases l <;> cases r <;> try rfl
  case int.string => exact absurd (.inr ⟨rfl, rfl⟩) h
  case string.int => exact absurd (.inl ⟨rfl, rfl⟩) h

theorem delivers_add (limit : Nat) {l r : Value} {t : Ty}
    (h : resultTy? .add l.ty r.ty = some t) : Delivers limit t (apply limit .add l r) := by
  simp only [resultTy?] at h
  split at h
  case isTrue hstrings =>
    cases l <;> cases r <;> cases hstrings.1 <;> cases hstrings.2
    cases h
    exact delivers_join limit _ _
  case isFalse hnumbers =>
    rw [apply_add_numbers limit hnumbers]
    exact delivers_arithmetic limit _ _ _ h

theorem delivers_mul (limit : Nat) {l r : Value} {t : Ty}
    (h : resultTy? .mul l.ty r.ty = some t) : Delivers limit t (apply limit .mul l r) := by
  simp only [resultTy?] at h
  split at h
  case isTrue hrepeat =>
    cases h
    obtain ⟨hl, hr⟩ | ⟨hl, hr⟩ := hrepeat <;> cases l <;> cases hl <;> cases r <;> cases hr <;>
      exact delivers_multiply limit _ _
  case isFalse hnumbers =>
    rw [apply_mul_numbers limit hnumbers]
    exact delivers_arithmetic limit _ _ _ h

theorem delivers_logic (limit : Nat) {l r : Value} (hl : l.ty ≠ .string) (hr : r.ty ≠ .string) :
    Delivers limit .bool (apply limit .and l r) ∧ Delivers limit .bool (apply limit .or l r) := by
  obtain ⟨a, ha⟩ := Value.truth_of_ne_string hl
  obtain ⟨b, hb⟩ := Value.truth_of_ne_string hr
  simp only [apply, ha, hb]
  cases a <;> exact ⟨rfl, rfl⟩

theorem delivers_apply (limit : Nat) (op : BinaryOp) {l r : Value} {t : Ty}
    (h : op.resultTy? l.ty r.ty = some t) : Delivers limit t (op.apply limit l r) := by
  cases op with
  | add => exact delivers_add limit h
  | sub => exact delivers_arithmetic limit _ _ _ h
  | mul => exact delivers_mul limit h
  | div => exact delivers_divide limit h
  | mod =>
    cases l <;> cases r <;> cases h
    exact delivers_remainder limit _ _
  | concat =>
    cases l <;> cases r <;> cases h
    exact delivers_join limit _ _
  | eq | ne =>
    simp only [resultTy?, Option.ite_none_right_eq_some, Option.some.injEq] at h
    obtain ⟨hfit, rfl⟩ := h
    exact delivers_equality limit _ _ hfit
  | lt | gt | le | ge =>
    simp only [resultTy?, Option.ite_none_right_eq_some, Option.some.injEq] at h
    obtain ⟨hfit, rfl⟩ := h
    exact delivers_relation limit _ _ hfit
  | and =>
    simp only [resultTy?, Option.ite_none_right_eq_some, Option.some.injEq] at h
    obtain ⟨⟨hl, hr⟩, rfl⟩ := h
    exact (delivers_logic limit hl hr).1
  | or =>
    simp only [resultTy?, Option.ite_none_right_eq_some, Option.some.injEq] at h
    obtain ⟨⟨hl, hr⟩, rfl⟩ := h
    exact (delivers_logic limit hl hr).2

theorem misfit_eq_refuse {op : BinaryOp} (hop : op.isLogical = false) (hmod : op ≠ .mod)
    (l r : Value) : op.misfit l.ty r.ty = op.refuse l r := by
  simp [misfit, refuse, hop, hmod]

/-- An operator that does not take operands of the types given fails whatever the values, and always
with the same fault. -/
theorem apply_refuses (limit : Nat) {op : BinaryOp} (hop : op.isLogical = false) {l r : Value}
    (h : op.resultTy? l.ty r.ty = none) :
    op.apply limit l r = .error (op.misfit l.ty r.ty) := by
  cases op with
  | add =>
    simp only [resultTy?] at h
    split at h
    case isTrue => cases h
    case isFalse hnumbers =>
      rw [apply_add_numbers limit hnumbers, misfit_eq_refuse hop (by decide)]
      exact arithmetic_refuses _ _ _ h
  | sub =>
    rw [misfit_eq_refuse hop (by decide)]
    exact arithmetic_refuses _ _ _ h
  | mul =>
    simp only [resultTy?] at h
    split at h
    case isTrue => cases h
    case isFalse hnumbers =>
      rw [apply_mul_numbers limit hnumbers, misfit_eq_refuse hop (by decide)]
      exact arithmetic_refuses _ _ _ h
  | div =>
    rw [misfit_eq_refuse hop (by decide)]
    exact divide_refuses h
  | mod => exact remainder_refuses h
  | concat =>
    rw [misfit_eq_refuse hop (by decide)]
    cases l <;> cases r <;> cases h <;> rfl
  | eq | ne =>
    simp only [resultTy?, ite_eq_right_iff, reduceCtorEq, imp_false] at h
    rw [misfit_eq_refuse hop (by decide)]
    exact equality_refuses _ _ h
  | lt | gt | le | ge =>
    simp only [resultTy?, ite_eq_right_iff, reduceCtorEq, imp_false] at h
    rw [misfit_eq_refuse hop (by decide)]
    exact relation_refuses _ _ h
  | and | or => cases hop

theorem isFatal_misfit (op : BinaryOp) (l r : Ty) : (op.misfit l r).isFatal = false := by
  unfold misfit
  split
  · rfl
  · split <;> rfl

theorem answers_apply (limit : Nat) {op : BinaryOp} (hop : op.isLogical = false) (l r : Value) :
    Answers limit (op.kind l.ty r.ty) (op.misfit? l.ty r.ty) (op.apply limit l r) := by
  unfold misfit?
  cases ht : op.resultTy? l.ty r.ty with
  | some t =>
    rw [kind_of_resultTy? ht]
    exact (delivers_apply limit op ht).answers
  | none =>
    rw [apply_refuses limit hop ht]
    exact ⟨rfl, isFatal_misfit op l.ty r.ty⟩

theorem arisesFrom_of_truth (limit : Nat) {op : BinaryOp} (hop : op.isLogical = true) {l r : Ty}
    {v : Value} (hv : v.ty = l ∨ v.ty = r) {fault : Fault} (h : v.truth = .error fault) :
    fault.ArisesFrom limit (op.misfit? l r) := by
  cases v with
  | string s =>
    cases h
    have hnone : op.resultTy? l r = none := by
      cases op with
      | and | or => obtain rfl | rfl := hv <;> simp [resultTy?, Value.ty]
      | _ => cases hop
    simp only [misfit?, hnone, misfit, hop, if_true]
    exact ⟨rfl, rfl⟩
  | _ => cases h

end BinaryOp

namespace UnaryOp

def resultTy? (op : UnaryOp) (t : Ty) : Option Ty :=
  match op with
  | .neg => if t.isNumeric then some t else none
  | .not => if t ≠ .string then some .bool else none

def misfit (op : UnaryOp) (t : Ty) : Fault :=
  match op with
  | .neg => .badOperand (symbol .neg) t.name
  | .not => .conversion t .bool none

def misfit? (op : UnaryOp) (t : Ty) : Option Fault :=
  match op.resultTy? t with
  | some _ => none
  | none => some (op.misfit t)

def kind (op : UnaryOp) (t : Ty) : Ty :=
  match op with
  | .neg => if t = .float then .float else .int
  | .not => .bool

theorem kind_of_resultTy? {op : UnaryOp} {t u : Ty} (h : op.resultTy? t = some u) :
    op.kind t = u := by
  cases op <;> cases t <;> cases h <;> rfl

theorem ty_fallback (op : UnaryOp) (v : Value) : (op.fallback v).ty = op.kind v.ty := by
  cases op <;> cases v <;> rfl

theorem delivers_apply (limit : Nat) (op : UnaryOp) {v : Value} {t : Ty}
    (h : op.resultTy? v.ty = some t) : Delivers limit t (op.apply v) := by
  cases op <;> cases v <;> cases h
  case neg.int n => exact BinaryOp.delivers_ofInt limit _
  all_goals rfl

theorem apply_refuses {op : UnaryOp} {v : Value} (h : op.resultTy? v.ty = none) :
    op.apply v = .error (op.misfit v.ty) := by
  cases op <;> cases v <;> cases h <;> rfl

theorem isFatal_misfit (op : UnaryOp) (t : Ty) : (op.misfit t).isFatal = false := by
  cases op <;> rfl

theorem answers_apply (limit : Nat) (op : UnaryOp) (v : Value) :
    Answers limit (op.kind v.ty) (op.misfit? v.ty) (op.apply v) := by
  unfold misfit?
  cases ht : op.resultTy? v.ty with
  | some t =>
    rw [kind_of_resultTy? ht]
    exact (delivers_apply limit op ht).answers
  | none =>
    rw [apply_refuses ht]
    exact ⟨rfl, isFatal_misfit op v.ty⟩

end UnaryOp

end TolerantScript
