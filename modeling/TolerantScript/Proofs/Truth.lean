import TolerantScript.Proofs.Comparison
import TolerantScript.Proofs.Loop
import TolerantScript.Proofs.ShortCircuit

/-!
The truth of values. A value has one truth, whichever way it is asked for: by negation, by a
variable it is assigned to, by equality with a truth value, by a logical operator, or by the
condition of a statement. A string has none on any of these ways.
-/

namespace TolerantScript

open TolerantScript.Action

/-! Zero. -/

theorem Binary.Format.point?_eq_zero_iff {f : Format} (hinfinity : 0 < f.infinity) (negative : Bool)
    (rank : Nat) : f.point? negative rank = some (.finite 0) ↔ rank = 0 := by
  rw [point?]
  split
  case isTrue hnan => exact iff_of_false (by simp) (by omega)
  case isFalse hnan =>
    split
    case isTrue hfinite =>
      rw [← f.units_eq_zero_iff rank, Option.some.injEq, Point.finite.injEq]
      cases negative <;> simp
    case isFalse hfinite => exact iff_of_false (by cases negative <;> simp) (by omega)

theorem Single.point?_eq_zero_iff (x : Single) : x.point? = some (.finite 0) ↔ x.isZero = true := by
  rw [point?_eq, Binary.Format.point?_eq_zero_iff (by decide), isZero, beq_iff_eq]

theorem Point.scale_eq_zero_iff {k : Nat} (hk : 0 < k) (p : Point) :
    p.scale k = .finite 0 ↔ p = .finite 0 := by
  have hk' : (k : Int) ≠ 0 := Int.natCast_ne_zero.mpr (Nat.ne_of_gt hk)
  cases p with
  | least => exact Iff.rfl
  | finite units => rw [scale, finite.injEq, finite.injEq, Int.mul_eq_zero, or_iff_left hk']
  | greatest => exact Iff.rfl

theorem Single.isZero_ofInt (n : Int) : (ofInt n).isZero = true ↔ n = 0 := by
  have hsmall : Binary.Format.single.infinity < 0x80000000 := by decide
  have hrank : (ofInt n).rank = Binary.Format.single.rank n.natAbs 1 :=
    rank_ofRank _ _ (Nat.lt_of_le_of_lt (Binary.Format.rank_le_infinity _ _ _) hsmall)
  rw [isZero, beq_iff_eq, hrank]
  by_cases hn : n = 0
  · rw [hn]
    exact iff_of_true (Binary.Format.rank_zero _ 1) rfl
  · have hone : 0 < Binary.Format.single.one := Nat.two_pow_pos _
    have hpos := Binary.Format.rank_pos (f := Binary.Format.single) (by decide) Nat.one_pos
      (Nat.mul_pos (Int.natAbs_pos.mpr hn) hone)
    exact iff_of_false (Nat.ne_of_gt hpos) hn

/-- The truth of a number is that it does not stand at zero. -/
theorem Value.truth_of_point? {v : Value} {p : Option Point} (h : v.point? = some p) :
    v.truth = .ok (p != some (.finite 0)) := by
  cases v with
  | int n =>
    cases h
    have hone : (Binary.Format.single.one : Int) ≠ 0 :=
      Int.natCast_ne_zero.mpr (Nat.ne_of_gt (Nat.two_pow_pos _))
    have hzero :
        some (Point.finite (n.toInt * Binary.Format.single.one)) = some (.finite 0) ↔ n = 0 := by
      rw [Option.some.injEq, Point.finite.injEq, Int.mul_eq_zero, or_iff_left hone,
        ← Int32.toInt_inj]
      rfl
    refine congrArg Except.ok (Bool.eq_iff_iff.mpr ?_)
    rw [bne_iff_ne, bne_iff_ne, Ne, Ne, hzero]
  | float x =>
    cases h
    refine congrArg Except.ok (Bool.eq_iff_iff.mpr ?_)
    rw [bne_iff_ne, Ne, x.point?_eq_zero_iff, Bool.not_eq_true', Bool.not_eq_true]
  | bool b => cases h
  | string s => cases h

theorem Value.truth_widened (n : Int32) :
    (Value.float (Single.ofInt n.toInt)).truth = (Value.int n).truth := by
  refine congrArg Except.ok (Bool.eq_iff_iff.mpr ?_)
  rw [bne_iff_ne, Ne, ← Int32.toInt_inj, Bool.not_eq_true', ← Bool.not_eq_true, Single.isZero_ofInt]
  rfl

/-! Being asked for its truth. -/

/-- The logical operators, each with the truth value that leaves the other operand to decide. -/
def neutral : List (BinaryOp × Bool) := [(.and, true), (.or, false)]

theorem settledBy_of_neutral {op : BinaryOp} {c : Bool} (h : (op, c) ∈ neutral) :
    op.isLogical = true ∧ ∀ b, op.settledBy b = (b != c) := by
  simp only [neutral, List.mem_cons, List.not_mem_nil, or_false, Prod.mk.injEq] at h
  obtain ⟨rfl, rfl⟩ | ⟨rfl, rfl⟩ := h <;> exact ⟨rfl, by decide⟩

/-- Wherever an evaluation or an execution asks the value for its truth, it goes on as `b` says, and
has recorded what `misread` gives for the position that the question is put at. -/
structure GoesBy (v : Value) (b : Bool) (misread : Position → List Diagnostic) : Prop where
  logical : ∀ op c, (op, c) ∈ neutral → ∀ (e other : Expr) (p : Position) (s t : Session),
    e.eval (s.furtherIn 1) = .done v t →
    other.eval (s.furtherIn 1) = .done (.bool c) (s.furtherIn 1) →
    (Expr.binary op e other p).eval s = .done (.bool b) ((leave t).recordAll (misread p)) ∧
    (Expr.binary op other e p).eval s = .done (.bool b) ((leave t).recordAll (misread p))
  branch : ∀ (cond : Expr) (yes : Stmt) (no : Option Stmt) (p : Position) (turns : Nat)
      (s t : Session),
    s.refusal? = none → cond.eval (s.inside .branch p) = .done v t →
    (Stmt.branch cond yes no p).exec turns s =
      ((if b then yes.exec turns else Stmt.execElse turns no)
        (t.recordAll (misread cond.position))).mapSession leave
  whileDo : ∀ (cond : Expr) (body : Stmt) (turns left count : Nat) (s t : Session),
    s.interrupted = false → cond.eval s = .done v t →
    whileLoop cond.test (body.exec turns) (left + 1) count s =
      (if b then do
        let _ ← body.exec turns
        whileLoop cond.test (body.exec turns) left (count + 1)
      else do
        emit (.whileFinished count)
        return none : Action (Option Value)) (t.recordAll (misread cond.position))
  doWhile : ∀ (cond : Expr) (body : Stmt) (turns left count : Nat) (s s₁ t : Session)
    (w : Option Value), s.interrupted = false → body.exec turns s = .done w s₁ →
    cond.eval s₁ = .done v t →
    doWhileLoop cond.test (body.exec turns) (left + 1) count s =
      (if b then doWhileLoop cond.test (body.exec turns) left (count + 1)
      else do
        emit (.doWhileFinished (count + 1))
        return none : Action (Option Value)) (t.recordAll (misread cond.position))

theorem Expr.test_of_eval {cond : Expr} {v : Value} {s t : Session} (h : cond.eval s = .done v t) :
    cond.test s = .done v.counts (t.recordAll (v.misreadAt cond.position)) := by
  rw [Expr.test, truthOf, bind_apply, h]
  cases v <;> rfl

/-- Beside an operand that leaves the other one to decide, the truth of the other one is the
result. -/
theorem Expr.eval_beside_neutral {op : BinaryOp} {c : Bool} (hop : (op, c) ∈ neutral)
    {e other : Expr} {v : Value} (p : Position) {s t : Session}
    (he : e.eval (s.furtherIn 1) = .done v t)
    (hother : other.eval (s.furtherIn 1) = .done (.bool c) (s.furtherIn 1)) :
    (Expr.binary op e other p).eval s =
      .done (.bool v.counts) ((leave t).recordAll (v.misreadAt p)) ∧
    (Expr.binary op other e p).eval s =
      .done (.bool v.counts) ((leave t).recordAll (v.misreadAt p)) := by
  obtain ⟨hlogical, hsettled⟩ := settledBy_of_neutral hop
  have hroom : s.depth < s.settings.maxDepth := by
    obtain ⟨x, hx⟩ := e.eval_eq_nested
    rw [hx] at he
    have hlevels : s.depth + 1 < s.settings.maxDepth := Action.depth_lt_of_nested he
    omega
  obtain ⟨early, hquery, rfl⟩ := e.eval_tells.of_done he
  obtain ⟨late, hqueryOther, hsame⟩ := other.eval_tells.of_done hother
  have hnone : late = [] :=
    ((s.furtherIn 1).gains_recordAll late).unique (hsame ▸ Session.Gains.refl (s.furtherIn 1))
  have hleave : leave ((s.furtherIn 1).recordAll early) = s.recordAll early :=
    s.leave_recordAll early
  rw [hleave, ← Session.recordAll_append]
  subst hnone
  constructor
  · cases hb : op.settledBy v.counts with
    | true => exact (eval_tells _).answer (query_settled hlogical hroom hquery hb other p)
    | false =>
      have hv : v.counts = c := by simpa [hsettled] using hb
      have hanswer := (eval_tells _).answer (query_open hlogical hroom hquery hqueryOther hb p)
      rw [hanswer, hv, show (Value.bool c).misreadAt p = [] from rfl, List.append_nil,
        List.append_nil]
      rfl
  · have hopen : op.settledBy (Value.bool c).counts = false :=
      (hsettled c).trans (bne_self_eq_false c)
    exact (eval_tells _).answer (query_open hlogical hroom hqueryOther hquery hopen p)

theorem Value.goesBy_counts (v : Value) : GoesBy v v.counts v.misreadAt where
  logical op c hop e other p s t he hother := Expr.eval_beside_neutral hop p he hother
  branch cond yes no p turns s t hrefusal hcond := by
    obtain ⟨hflag, hroom⟩ := s.refusal?_eq_none_iff.mp hrefusal
    rw [Stmt.exec]
    refine (begin_apply hflag hroom .branch p _).trans ?_
    rw [bind_apply, Expr.test_of_eval hcond]
  whileDo cond body turns left count s t hflag hcond := by
    rw [whileLoop_apply hflag, bind_apply, Expr.test_of_eval hcond]
  doWhile cond body turns left count s s₁ t w hflag hbody hcond := by
    rw [doWhileLoop_apply hflag, bind_apply, hbody]
    refine (bind_apply _ _ _).trans ?_
    rw [Expr.test_of_eval hcond]

/-! Values with a truth and values without. -/

def Stores (v : Value) (ty : Ty) (stored : Value) : Prop :=
  ∀ (s : Store) (name : String) (x : Variable), s.find? name = some x → x.ty = ty →
    s.assign name v = .ok (stored, s.put name stored) ∧ (s.put name stored).get name = .ok stored

theorem Stores.of_convert {v stored : Value} {ty : Ty}
    (h : ∀ name, v.convert ty (some name) = .ok stored) : Stores v ty stored := by
  rintro s name x hx rfl
  have hname : x.name = name := by simpa using List.find?_some hx
  constructor
  · simp only [Store.assign, hx, h name]
    rfl
  · simp only [Store.get, Store.find?_put, hx, Option.map_some, hname, beq_self_eq_true, if_true]

/-- Every way of asking for the truth of the value gives `b`. -/
structure HasTruth (v : Value) (b : Bool) : Prop where
  truth : v.truth = .ok b
  not : UnaryOp.apply .not v = .ok (.bool !b)
  stored : Stores v .bool (.bool b)
  equals : ∀ limit c, BinaryOp.apply limit .eq (.bool c) v = .ok (.bool (if c then b else !b)) ∧
    BinaryOp.apply limit .eq v (.bool c) = .ok (.bool (if c then b else !b))
  joined : ∀ op c, (op, c) ∈ neutral → ∀ limit, op.apply limit v (.bool c) = .ok (.bool b) ∧
    op.apply limit (.bool c) v = .ok (.bool b)
  widened : ∀ x, v.double? = some x → (b = true ↔ x.point? ≠ some (.finite 0))
  goesBy : GoesBy v b fun _ => []

structure LacksTruth (v : Value) : Prop where
  truth : v.truth = .error (.conversion .string .bool none)
  not : UnaryOp.apply .not v = .error (.conversion .string .bool none)
  stored : ∀ (s : Store) (name : String) (x : Variable), s.find? name = some x → x.ty = .bool →
    s.assign name v = .error (.conversion .string .bool (some name))
  equals : ∀ limit c,
    BinaryOp.apply limit .eq (.bool c) v = .error (.badOperands "==" "bool" "string") ∧
    BinaryOp.apply limit .eq v (.bool c) = .error (.badOperands "==" "string" "bool")
  joined : ∀ op c, (op, c) ∈ neutral → ∀ limit,
    op.apply limit v (.bool c) = .error (.conversion .string .bool none) ∧
    op.apply limit (.bool c) v = .error (.conversion .string .bool none)
  goesBy : GoesBy v false fun p => [⟨p, .conversion .string .bool none⟩]

namespace Value

theorem stores_truth {v : Value} {b : Bool} (h : v.truth = .ok b) : Stores v .bool (.bool b) := by
  refine .of_convert fun name => ?_
  cases v with
  | string s => cases h
  | int n | float x | bool c =>
    cases h
    rfl

theorem equal?_bool {v : Value} {b : Bool} (h : v.truth = .ok b) (c : Bool) :
    (Value.bool c).equal? v = some (if c then b else !b) := by
  have hnumber {p : Option Point} (hp : v.point? = some p) :
      v.point?.map (fun p => c == (p != some (.finite 0))) = some (if c then b else !b) := by
    rw [truth_of_point? hp] at h
    cases h
    rw [hp]
    cases c <;> simp
  cases v with
  | string s => cases h
  | int n => exact hnumber rfl
  | float x => exact hnumber rfl
  | bool d =>
    cases h
    revert b c
    decide

theorem hasTruth {v : Value} {b : Bool} (h : v.truth = .ok b) : HasTruth v b where
  truth := h
  not := by
    rw [UnaryOp.apply, h]
    rfl
  stored := stores_truth h
  equals limit c := by
    rw [BinaryOp.apply_eq, BinaryOp.apply_eq, equal?_comm v, equal?_bool h c]
    exact ⟨rfl, rfl⟩
  joined op c hop limit := by
    obtain ⟨hlogical, hsettled⟩ := settledBy_of_neutral hop
    rw [BinaryOp.apply_logical hlogical, BinaryOp.apply_logical hlogical, h]
    simp only [bind, Except.bind, hsettled, Value.truth]
    cases b <;> cases c <;> exact ⟨rfl, rfl⟩
  widened x hx := by
    obtain ⟨p, hp, hwide⟩ := point?_of_double? hx
    rw [truth_of_point? hp] at h
    cases h
    rw [hwide, bne_iff_ne, Ne, Ne, Option.map_eq_some_iff]
    refine not_congr ⟨?_, ?_⟩
    · rintro rfl
      exact ⟨_, rfl, (Point.scale_eq_zero_iff Double.unitsPerSingle_pos _).mpr rfl⟩
    · rintro ⟨q, rfl, hq⟩
      exact congrArg some ((Point.scale_eq_zero_iff Double.unitsPerSingle_pos q).mp hq)
  goesBy := by
    have hcounts : v.counts = b := by rw [counts, h]
    have hmisread : (fun p => v.misreadAt p) = fun _ => [] := funext fun p => by rw [misreadAt, h]
    rw [← hcounts, ← hmisread]
    exact v.goesBy_counts

theorem lacksTruth (s : String) : LacksTruth (.string s) where
  truth := rfl
  not := rfl
  stored store name x hx hty := by
    simp only [Store.assign, hx, hty]
    rfl
  equals limit c := ⟨rfl, rfl⟩
  joined op c hop limit := by
    obtain ⟨hlogical, hsettled⟩ := settledBy_of_neutral hop
    rw [BinaryOp.apply_logical hlogical, BinaryOp.apply_logical hlogical]
    simp only [bind, Except.bind, hsettled, truth, bne_self_eq_false, Bool.false_eq_true, if_false]
    trivial
  goesBy := (Value.string s).goesBy_counts

theorem exists_truth {v : Value} (h : v.ty ≠ .string) : ∃ b, v.truth = .ok b := by
  cases v with
  | string s => exact absurd rfl h
  | int n | float x | bool b => exact ⟨_, rfl⟩

end Value

/-- Each value that is no string has one truth, whichever way it is asked for, and a string has
none. An integer keeps its truth where a float variable takes it. The loops that go by the truth of
a value are those that loop statements carry out once they are entered. -/
theorem one_truth_per_value :
    (∀ v : Value, v.ty ≠ .string → ∃ b, HasTruth v b) ∧
    (∀ s, LacksTruth (.string s)) ∧
    (∀ n : Int32, ∃ b widened, Stores (.int n) .float widened ∧
      HasTruth (.int n) b ∧ HasTruth widened b) ∧
    ∀ (s : Session) (turns : Nat) (cond : Expr) (body : Stmt) (p : Position), s.refusal? = none →
      (Stmt.whileDo cond body p).exec turns s =
        (whileLoop cond.test (body.exec turns) turns 0 (s.inside .whileDo p)).mapSession leave ∧
      (Stmt.doWhile body cond p).exec turns s =
        (doWhileLoop cond.test (body.exec turns) turns 0
          (s.inside .doWhile p)).mapSession leave := by
  refine ⟨fun v hv => ?_, Value.lacksTruth, fun n => ?_, fun s turns cond body p h => ?_⟩
  · obtain ⟨b, hb⟩ := Value.exists_truth hv
    exact ⟨b, Value.hasTruth hb⟩
  · have hstored : Stores (.int n) .float (.float (Single.ofInt n.toInt)) :=
      .of_convert fun _ => rfl
    exact ⟨n != 0, _, hstored, Value.hasTruth rfl, Value.hasTruth (Value.truth_widened n)⟩
  · obtain ⟨hflag, hroom⟩ := s.refusal?_eq_none_iff.mp h
    rw [Stmt.exec, Stmt.exec]
    exact ⟨begin_apply hflag hroom .whileDo p _, begin_apply hflag hroom .doWhile p _⟩

/-- What is not a number is true, negative zero is false, and the least positive float is true. -/
theorem one_truth_per_value_floats :
    HasTruth (.float ⟨0x7fc00000⟩) true ∧ HasTruth (.float ⟨0x80000000⟩) false ∧
      HasTruth (.float ⟨1⟩) true := by
  obtain ⟨hvalue, -⟩ := one_truth_per_value
  have hfloat {x : Single} {b : Bool} (hb : (Value.float x).truth = .ok b) :
      HasTruth (.float x) b := by
    obtain ⟨c, hc⟩ := hvalue (.float x) Ty.noConfusion
    cases hc.truth.symm.trans hb
    exact hc
  exact ⟨hfloat rfl, hfloat rfl, hfloat rfl⟩

end TolerantScript
