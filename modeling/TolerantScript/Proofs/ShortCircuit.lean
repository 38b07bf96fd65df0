import TolerantScript.Proofs.Answer
import TolerantScript.Proofs.NestingThreshold

/-!
The logical operators. An operand on the right is evaluated only if the one on the left leaves the
result open, and an operand without a truth is recorded at the operator and counts as false. Where
both operands have one, this comes to what the operator gives for their values.
-/

namespace TolerantScript

open Machine

theorem Session.Gains.unique {s t : Session} {ds es : List Diagnostic} (h : s.Gains ds t)
    (h' : s.Gains es t) : ds = es :=
  List.append_cancel_left (h.diagnostics.symm.trans h'.diagnostics)

/-! Deciding by the left operand. -/

namespace BinaryOp

/-- Whether a logical operator leaves its right operand out once the left one is `b`; its result is
then `b` as well. -/
def settledBy (op : BinaryOp) (b : Bool) : Bool :=
  match op with
  | .and => !b
  | .or => b
  | _ => false

theorem apply_logical {op : BinaryOp} (hop : op.isLogical = true) (limit : Nat) (l r : Value) :
    op.apply limit l r = do
      let b ← l.truth
      if op.settledBy b then return .bool b
      return .bool (← r.truth) := by
  cases op with
  | and | or =>
    rw [apply]
    cases l.truth with
    | ok b => cases b <;> rfl
    | error fault => rfl
  | _ => cases hop

/-- A result of a logical operator on two values is the truth of the one that decides, and no value
that is asked for its truth lacks one. -/
theorem counts_of_apply {op : BinaryOp} (hop : op.isLogical = true) {limit : Nat} {l r v : Value}
    (h : op.apply limit l r = .ok v) (p : Position) :
    l.misreadAt p = [] ∧ (op.settledBy l.counts = true → v = .bool l.counts) ∧
      (op.settledBy l.counts = false → v = .bool r.counts ∧ r.misreadAt p = []) := by
  rw [apply_logical hop] at h
  rw [Value.misreadAt, Value.misreadAt, Value.counts, Value.counts]
  cases hl : l.truth with
  | error fault =>
    rw [hl] at h
    cases h
  | ok b =>
    rw [hl] at h
    simp only [bind, Except.bind] at h
    cases hb : op.settledBy b with
    | true =>
      rw [hb] at h
      cases h
      simp
    | false =>
      rw [hb] at h
      cases hr : r.truth with
      | error fault =>
        rw [hr] at h
        cases h
      | ok c =>
        rw [hr] at h
        cases h
        simp

end BinaryOp

namespace Expr

theorem evalIn_logical {m : Type → Type} [Machine m] {op : BinaryOp} (hop : op.isLogical = true)
    (l r : Expr) (p : Position) :
    (Expr.binary op l r p).evalIn m = nested (do
      let b ← truthOf p (l.evalIn m)
      if op.settledBy b then return .bool b
      return .bool (← truthOf p (r.evalIn m))) := by
  cases op with
  | and | or =>
    rw [evalIn]
    refine congrArg nested (congrArg (truthOf p (l.evalIn m) >>= ·) (funext fun b => ?_))
    cases b <;> rfl
  | _ => cases hop

variable {op : BinaryOp} {l r : Expr} {s : Session} {a b : Value} {early late : List Diagnostic}

theorem query_settled (hop : op.isLogical = true) (hroom : s.depth < s.settings.maxDepth)
    (hl : l.evalIn Query (s.furtherIn 1) = some (.ok a, early))
    (hsettled : op.settledBy a.counts = true) (r : Expr) (p : Position) :
    (Expr.binary op l r p).evalIn Query s =
      some (.ok (.bool a.counts), early ++ a.misreadAt p) := by
  rw [evalIn_logical hop, Query.nested_apply hroom, Query.bind_ok (Query.truthOf_of_ok p hl),
    if_pos hsettled]
  show some (Except.ok (Value.bool a.counts), early ++ a.misreadAt p ++ []) = _
  rw [List.append_nil]

theorem query_open (hop : op.isLogical = true) (hroom : s.depth < s.settings.maxDepth)
    (hl : l.evalIn Query (s.furtherIn 1) = some (.ok a, early))
    (hr : r.evalIn Query (s.furtherIn 1) = some (.ok b, late))
    (hopen : op.settledBy a.counts = false) (p : Position) :
    (Expr.binary op l r p).evalIn Query s =
      some (.ok (.bool b.counts), early ++ a.misreadAt p ++ (late ++ b.misreadAt p)) := by
  rw [evalIn_logical hop, Query.nested_apply hroom, Query.bind_ok (Query.truthOf_of_ok p hl),
    if_neg (by simp [hopen])]
  have hright :
      (do return Value.bool (← truthOf p (r.evalIn Query)) : Query Value) (s.furtherIn 1) =
        some (.ok (.bool b.counts), late ++ b.misreadAt p) := by
    rw [Query.bind_ok (Query.truthOf_of_ok p hr)]
    show some (Except.ok (Value.bool b.counts), late ++ b.misreadAt p ++ []) = _
    rw [List.append_nil]
  rw [hright]
  rfl

theorem query_of_gains {e : Expr} {s t u : Session} {v w : Value} {ds : List Diagnostic}
    (h : e.eval s = .done v t) (hgains : s.Gains ds t)
    (hroom : e.eval (s.furtherIn 1) = .done w u) :
    e.evalIn Query (s.furtherIn 1) = some (.ok v, ds) := by
  obtain ⟨ds', hquery, rfl⟩ := e.eval_tells.of_done h
  rw [hgains.unique (s.gains_recordAll ds')]
  exact query_furtherIn hroom hquery

/-- Two operands that have values from here, and one level more to evaluate them in. If the left one
decides, the right one may be any expression whatever, and all that is recorded is what the left one
records, and that it has no truth if so. Otherwise the truth of the right one is the result, and
both record what they record, each followed by its lack of a truth. Wherever the operator gives a
result for the two values, the evaluation gives it too and records nothing of its own. -/
theorem short_circuit {op : BinaryOp} (hop : op.isLogical = true) {l r : Expr} (p : Position)
    {s tl tr : Session} {vl vr : Value} {dl dr : List Diagnostic}
    (hl : l.eval s = .done vl tl) (hdl : s.Gains dl tl) (hr : r.eval s = .done vr tr)
    (hdr : s.Gains dr tr) (hroom : ∀ e ∈ [l, r], ∃ v t, e.eval (s.furtherIn 1) = .done v t) :
    (op.settledBy vl.counts = true → ∃ t, s.Gains (dl ++ vl.misreadAt p) t ∧
      ∀ r', (Expr.binary op l r' p).eval s = .done (.bool vl.counts) t) ∧
    (op.settledBy vl.counts = false → ∃ t,
      s.Gains (dl ++ vl.misreadAt p ++ (dr ++ vr.misreadAt p)) t ∧
      (Expr.binary op l r p).eval s = .done (.bool vr.counts) t) ∧
    ∀ limit v, op.apply limit vl vr = .ok v → ∃ t,
      (Expr.binary op l r p).eval s = .done v t ∧
      s.Gains (if op.settledBy vl.counts then dl else dl ++ dr) t := by
  obtain ⟨wl, ul, hinl⟩ := hroom l (by simp)
  obtain ⟨wr, ur, hinr⟩ := hroom r (by simp)
  have hlevel : s.depth < s.settings.maxDepth := by
    obtain ⟨x, hx⟩ := l.eval_eq_nested
    rw [hx] at hinl
    have hlevels : s.depth + 1 < s.settings.maxDepth := Action.depth_lt_of_nested hinl
    omega
  have hql := query_of_gains hl hdl hinl
  have hqr := query_of_gains hr hdr hinr
  have hsettled (h : op.settledBy vl.counts = true) (r' : Expr) :
      (Expr.binary op l r' p).eval s =
        .done (.bool vl.counts) (s.recordAll (dl ++ vl.misreadAt p)) :=
    (Expr.binary op l r' p).eval_tells.answer (query_settled hop hlevel hql h r' p)
  have hopen (h : op.settledBy vl.counts = false) : (Expr.binary op l r p).eval s =
      .done (.bool vr.counts)
        (s.recordAll (dl ++ vl.misreadAt p ++ (dr ++ vr.misreadAt p))) :=
    (Expr.binary op l r p).eval_tells.answer (query_open hop hlevel hql hqr h p)
  refine ⟨fun h => ⟨_, s.gains_recordAll _, hsettled h⟩,
    fun h => ⟨_, s.gains_recordAll _, hopen h⟩, fun limit v hv => ?_⟩
  obtain ⟨hleft, hdecided, hundecided⟩ := BinaryOp.counts_of_apply hop hv p
  cases hb : op.settledBy vl.counts with
  | true =>
    rw [hdecided hb, hsettled hb r, hleft, List.append_nil]
    exact ⟨_, rfl, s.gains_recordAll dl⟩
  | false =>
    obtain ⟨rfl, hright⟩ := hundecided hb
    rw [hopen hb, hleft, hright, List.append_nil, List.append_nil]
    exact ⟨_, rfl, s.gains_recordAll (dl ++ dr)⟩

/-- `s . 5`, which is refused and then an empty string. -/
def joinedToNumber : Expr :=
  .binary .concat (.var "s" ⟨1, 1⟩) (.literal ⟨.int, "5"⟩ ⟨1, 5⟩) ⟨1, 3⟩

def unknownName : Expr := .var "y" ⟨1, 10⟩

/-- `((((y))))` -/
def manyParens : Expr :=
  .paren (.paren (.paren (.paren unknownName ⟨1, 9⟩) ⟨1, 8⟩) ⟨1, 7⟩) ⟨1, 6⟩

def threeLevels : Session :=
  { settings := { maxDepth := 3 }, store := ⟨[⟨"s", .string, .string "t"⟩]⟩ }

/-- An operand that has no truth leaves `||` open and settles `&&`, and then the other operand may
be one that nests too deep. -/
theorem short_circuit_joinedToNumber :
    (∃ t, (Expr.binary .or joinedToNumber unknownName ⟨1, 7⟩).eval threeLevels =
        .done (.bool false) t ∧
      t.diagnostics.toList = [⟨⟨1, 3⟩, .badOperands "." "string" "int"⟩,
        ⟨⟨1, 7⟩, .conversion .string .bool none⟩, ⟨⟨1, 10⟩, .undeclaredVariable "y"⟩]) ∧
    manyParens.eval threeLevels = .halted (.nestingTooDeep 4 3) threeLevels ∧
    ∃ t, (Expr.binary .and joinedToNumber manyParens ⟨1, 7⟩).eval threeLevels =
        .done (.bool false) t ∧
      t.diagnostics.toList = [⟨⟨1, 3⟩, .badOperands "." "string" "int"⟩,
        ⟨⟨1, 7⟩, .conversion .string .bool none⟩] := by
  have hl : joinedToNumber.eval threeLevels = .done (.string "")
      (threeLevels.recordAll [⟨⟨1, 3⟩, .badOperands "." "string" "int"⟩]) := by decide +kernel
  have hr : unknownName.eval threeLevels = .done (.int 0)
      (threeLevels.recordAll [⟨⟨1, 10⟩, .undeclaredVariable "y"⟩]) := by decide +kernel
  have hgains := threeLevels.gains_recordAll
  have hroom : ∀ e ∈ [joinedToNumber, unknownName],
      ∃ v t, e.eval (threeLevels.furtherIn 1) = .done v t := by
    intro e he
    simp only [List.mem_cons, List.not_mem_nil, or_false] at he
    obtain rfl | rfl := he <;> exact done_of_height_le (by decide)
  have hor : BinaryOp.isLogical .or = true := rfl
  have hand : BinaryOp.isLogical .and = true := rfl
  obtain ⟨-, hopen, -⟩ := short_circuit hor ⟨1, 7⟩ hl (hgains _) hr (hgains _) hroom
  obtain ⟨hsettled, -⟩ := short_circuit hand ⟨1, 7⟩ hl (hgains _) hr (hgains _) hroom
  obtain ⟨t, ht, heval⟩ := hopen rfl
  obtain ⟨t', ht', heval'⟩ := hsettled rfl
  exact ⟨⟨t, heval, ht.diagnostics⟩, by decide +kernel, t', heval' manyParens, ht'.diagnostics⟩

end Expr

end TolerantScript
