import TolerantScript.Operator.Apply

/-!
Arithmetic on integers. Where 32 bits hold the exact result, an operator gives it, and where they do
not, it reports an overflow. A quotient goes toward zero, and a remainder is given wherever a
quotient is.
-/

namespace TolerantScript

def InIntRange (z : Int) : Prop := -0x80000000 ≤ z ∧ z ≤ 0x7fffffff

theorem inIntRange_toInt (a : Int32) : InIntRange a.toInt := by
  have hlow := a.le_toInt
  have hhigh := a.toInt_lt
  unfold InIntRange
  omega

theorem int_eq_minValue_iff (a : Int32) : a = Int32.minValue ↔ a.toInt = -0x80000000 :=
  Int32.toInt_inj.symm

theorem int_eq_zero_iff (a : Int32) : a = 0 ↔ a.toInt = 0 := Int32.toInt_inj.symm

theorem int_eq_neg_one_iff (a : Int32) : a = -1 ↔ a.toInt = -1 := Int32.toInt_inj.symm

/-! What a result has to be. -/

structure IsExact (z : Int) (r : Except Fault Value) : Prop where
  value : (∃ n : Int32, r = .ok (.int n) ∧ n.toInt = z) ↔ InIntRange z
  overflow : r = .error .integerOverflow ↔ ¬InIntRange z

/-- The integer, which comes from dividing `a` by `b`: a fault of its own for a zero divisor, an
overflow for the least integer divided by minus one, and the integer itself in all other cases. -/
structure IsFromDivision (zero : Fault) (a b : Int32) (z : Int) (r : Except Fault Value) :
    Prop where
  zero : r = .error zero ↔ b = 0
  overflow : r = .error .integerOverflow ↔ a = Int32.minValue ∧ b = -1
  value : (∃ n : Int32, r = .ok (.int n) ∧ n.toInt = z) ↔ b ≠ 0 ∧ ¬(a = Int32.minValue ∧ b = -1)

namespace Value

theorem ofInt_of_inIntRange {z : Int} (h : InIntRange z) :
    ∃ n : Int32, ofInt z = .ok (.int n) ∧ n.toInt = z := by
  unfold InIntRange at h
  refine ⟨Int32.ofInt z, if_pos (by omega), ?_⟩
  exact Int32.toInt_ofInt_of_le (by omega) (by omega)

theorem ofInt_of_not_inIntRange {z : Int} (h : ¬InIntRange z) :
    ofInt z = .error .integerOverflow := by
  unfold InIntRange at h
  exact if_neg (by omega)

theorem isExact_ofInt (z : Int) : IsExact z (ofInt z) := by
  by_cases h : InIntRange z
  · obtain ⟨n, hn, hz⟩ := ofInt_of_inIntRange h
    refine ⟨iff_of_true ⟨n, hn, hz⟩ h, ?_⟩
    simp [hn, h]
  · have hfault := ofInt_of_not_inIntRange h
    refine ⟨?_, iff_of_true hfault h⟩
    simp [hfault, h]

end Value

/-! Division. -/

/-- The only quotient out of range is that of the least integer by minus one. -/
theorem inIntRange_tdiv {a b : Int32} (hb : b ≠ 0) :
    InIntRange (a.toInt.tdiv b.toInt) ↔ ¬(a = Int32.minValue ∧ b = -1) := by
  have ha := inIntRange_toInt a
  rw [Ne, int_eq_zero_iff] at hb
  rw [int_eq_minValue_iff, int_eq_neg_one_iff]
  generalize a.toInt = x at *
  generalize b.toInt = y at *
  unfold InIntRange at *
  by_cases hone : y = 1
  · rw [hone, Int.tdiv_one]
    omega
  · by_cases hminus : y = -1
    · rw [hminus, Int.tdiv_neg, Int.tdiv_one]
      omega
    · -- by any other divisor the quotient is at most half as far from zero
      have hhalf : (x.tdiv y).natAbs ≤ x.natAbs / 2 := by
        rw [Int.natAbs_tdiv]
        exact Nat.div_le_div_left (by omega) (by decide)
      omega

theorem natAbs_tmod_lt (a : Int) {b : Int} (hb : b ≠ 0) : (a.tmod b).natAbs < b.natAbs := by
  rw [Int.natAbs_tmod]
  exact Nat.mod_lt _ (by omega)

theorem inIntRange_tmod {a b : Int32} (hb : b ≠ 0) : InIntRange (a.toInt.tmod b.toInt) := by
  have hrange := inIntRange_toInt b
  rw [Ne, int_eq_zero_iff] at hb
  have hlt := natAbs_tmod_lt a.toInt hb
  unfold InIntRange at *
  omega

theorem tmod_eq_zero_or_sign (a b : Int) : a.tmod b = 0 ∨ (a.tmod b).sign = a.sign := by
  have hsign := Int.sign_tmod a b
  by_cases hdvd : b ∣ a
  · exact .inl (Int.tmod_eq_zero_of_dvd hdvd)
  · rw [if_neg hdvd] at hsign
    exact .inr hsign

theorem IsFromDivision.of_cases {zero : Fault} {a b : Int32} {z : Int} {r : Except Fault Value}
    (hne : zero ≠ .integerOverflow) (hzero : b = 0 → r = .error zero)
    (hoverflow : b ≠ 0 → a = Int32.minValue ∧ b = -1 → r = .error .integerOverflow)
    (hvalue : b ≠ 0 → ¬(a = Int32.minValue ∧ b = -1) →
      ∃ n : Int32, r = .ok (.int n) ∧ n.toInt = z) :
    IsFromDivision zero a b z r := by
  by_cases hb : b = 0
  · constructor <;> simp [hzero hb, hb, hne]
  · by_cases hleast : a = Int32.minValue ∧ b = -1
    · have hr := hoverflow hb hleast
      constructor
      · simp [hr, hb, hne.symm]
      · exact iff_of_true hr hleast
      · simp [hr, hleast]
    · obtain ⟨n, hr, hn⟩ := hvalue hb hleast
      constructor
      · simp [hr, hb]
      · simp [hr, hleast]
      · exact iff_of_true ⟨n, hr, hn⟩ ⟨hb, hleast⟩

namespace BinaryOp

theorem divide_of_ne_zero (a : Int32) {b : Int32} (hb : b ≠ 0) :
    divide (.int a) (.int b) = Value.ofInt (a.toInt.tdiv b.toInt) := by
  have hdivisor : isZeroDivisor (.int b) = false := beq_false_of_ne hb
  rw [divide, hdivisor]
  rfl

theorem remainder_of_ne_zero (a : Int32) {b : Int32} (hb : b ≠ 0) :
    remainder (.int a) (.int b) =
      (Value.ofInt (a.toInt.tdiv b.toInt)).bind fun _ => Value.ofInt (a.toInt.tmod b.toInt) := by
  have hdivisor : (b == 0) = false := beq_false_of_ne hb
  simp only [remainder, hdivisor]
  rfl

theorem isFromDivision_divide (a b : Int32) :
    IsFromDivision .divisionByZero a b (a.toInt.tdiv b.toInt) (divide (.int a) (.int b)) := by
  refine .of_cases (by decide) ?_ ?_ ?_
  · rintro rfl
    rfl
  · intro hb hleast
    rw [divide_of_ne_zero a hb]
    exact Value.ofInt_of_not_inIntRange fun h => (inIntRange_tdiv hb).mp h hleast
  · intro hb hleast
    rw [divide_of_ne_zero a hb]
    exact Value.ofInt_of_inIntRange ((inIntRange_tdiv hb).mpr hleast)

theorem isFromDivision_remainder (a b : Int32) :
    IsFromDivision .moduloByZero a b (a.toInt.tmod b.toInt) (remainder (.int a) (.int b)) := by
  refine .of_cases (by decide) ?_ ?_ ?_
  · rintro rfl
    rfl
  · -- the remainder would be zero, but the quotient is looked at first
    intro hb hleast
    rw [remainder_of_ne_zero a hb,
      Value.ofInt_of_not_inIntRange fun h => (inIntRange_tdiv hb).mp h hleast]
    rfl
  · intro hb hleast
    obtain ⟨q, hq, -⟩ := Value.ofInt_of_inIntRange ((inIntRange_tdiv hb).mpr hleast)
    rw [remainder_of_ne_zero a hb, hq]
    exact Value.ofInt_of_inIntRange (inIntRange_tmod hb)

end BinaryOp

theorem IsFromDivision.isOk_iff {zero : Fault} {a b : Int32} {z : Int} {r : Except Fault Value}
    (h : IsFromDivision zero a b z r) :
    (∃ v, r = .ok v) ↔ b ≠ 0 ∧ ¬(a = Int32.minValue ∧ b = -1) := by
  rw [← h.value]
  constructor
  · rintro ⟨v, hv⟩
    refine h.value.mpr ⟨fun hb => ?_, fun hleast => ?_⟩
    · simp [h.zero.mpr hb] at hv
    · simp [h.overflow.mpr hleast] at hv
  · rintro ⟨n, hn, -⟩
    exact ⟨.int n, hn⟩

theorem IsFromDivision.eq_int {zero : Fault} {a b : Int32} {z : Int} {r : Except Fault Value}
    {v : Value} (h : IsFromDivision zero a b z r) (hv : r = .ok v) :
    ∃ n : Int32, v = .int n ∧ n.toInt = z := by
  obtain ⟨n, hn, hz⟩ := h.value.mpr (h.isOk_iff.mp ⟨v, hv⟩)
  exact ⟨n, Except.ok.inj (hv.symm.trans hn), hz⟩

namespace UnaryOp

theorem isExact_neg (a : Int32) : IsExact (-a.toInt) (UnaryOp.apply .neg (.int a)) :=
  Value.isExact_ofInt _

theorem neg_overflows_iff (a : Int32) :
    UnaryOp.apply .neg (.int a) = .error .integerOverflow ↔ a = Int32.minValue := by
  have ha := inIntRange_toInt a
  rw [(isExact_neg a).overflow, int_eq_minValue_iff]
  unfold InIntRange at *
  omega

end UnaryOp

/-- On two integers, a sum, a difference, a product and a negation are exact, or an overflow is
reported just where 32 bits do not hold them; a division fails just where its divisor is zero or its
quotient does not fit, with the quotient truncated toward zero. Quotient and remainder are given
together, and then make up the dividend; the remainder is smaller than the divisor and has the
dividend's sign unless it is zero. The limit on strings has no part in any of this. -/
theorem int_arithmetic_exact_or_reported (limit : Nat) (a b : Int32) :
    IsExact (a.toInt + b.toInt) (BinaryOp.apply limit .add (.int a) (.int b)) ∧
    IsExact (a.toInt - b.toInt) (BinaryOp.apply limit .sub (.int a) (.int b)) ∧
    IsExact (a.toInt * b.toInt) (BinaryOp.apply limit .mul (.int a) (.int b)) ∧
    IsFromDivision .divisionByZero a b (a.toInt.tdiv b.toInt)
      (BinaryOp.apply limit .div (.int a) (.int b)) ∧
    IsFromDivision .moduloByZero a b (a.toInt.tmod b.toInt)
      (BinaryOp.apply limit .mod (.int a) (.int b)) ∧
    IsExact (-a.toInt) (UnaryOp.apply .neg (.int a)) ∧
    (UnaryOp.apply .neg (.int a) = .error .integerOverflow ↔ a = Int32.minValue) ∧
    ((∃ v, BinaryOp.apply limit .div (.int a) (.int b) = .ok v) ↔
      ∃ v, BinaryOp.apply limit .mod (.int a) (.int b) = .ok v) ∧
    (∀ v w, BinaryOp.apply limit .div (.int a) (.int b) = .ok v →
      BinaryOp.apply limit .mod (.int a) (.int b) = .ok w →
      ∃ q r : Int32, v = .int q ∧ w = .int r ∧ q.toInt * b.toInt + r.toInt = a.toInt ∧
        r.toInt.natAbs < b.toInt.natAbs ∧ (r.toInt = 0 ∨ r.toInt.sign = a.toInt.sign)) ∧
    ∀ op ∈ [BinaryOp.add, .sub, .mul, .div, .mod], ∀ limit',
      op.apply limit' (.int a) (.int b) = op.apply limit (.int a) (.int b) := by
  have hdiv := BinaryOp.isFromDivision_divide a b
  have hmod := BinaryOp.isFromDivision_remainder a b
  refine ⟨Value.isExact_ofInt _, Value.isExact_ofInt _, Value.isExact_ofInt _, hdiv, hmod,
    UnaryOp.isExact_neg a, UnaryOp.neg_overflows_iff a,
    hdiv.isOk_iff.trans hmod.isOk_iff.symm, ?_, ?_⟩
  · intro v w hv hw
    have hb : b.toInt ≠ 0 := fun h => (hdiv.isOk_iff.mp ⟨v, hv⟩).1 ((int_eq_zero_iff b).mpr h)
    obtain ⟨q, rfl, hq⟩ := hdiv.eq_int hv
    obtain ⟨r, rfl, hr⟩ := hmod.eq_int hw
    refine ⟨q, r, rfl, rfl, ?_⟩
    rw [hq, hr]
    exact ⟨Int.tdiv_mul_add_tmod _ _, natAbs_tmod_lt _ hb, tmod_eq_zero_or_sign _ _⟩
  · intro op hop limit'
    simp only [List.mem_cons, List.not_mem_nil, or_false] at hop
    obtain rfl | rfl | rfl | rfl | rfl := hop <;> rfl

example : BinaryOp.apply 0 .div (.int (-7)) (.int 2) = .ok (.int (-3)) := rfl

/-- The remainder itself would be zero. -/
example : BinaryOp.apply 0 .mod (.int Int32.minValue) (.int (-1)) = .error .integerOverflow := rfl

end TolerantScript
