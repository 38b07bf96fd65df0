import TolerantScript.Proofs.ShortCircuit

/-!
The order of an expression's diagnostics. An evaluation records nothing but at the places that it
comes to, in the order in which it comes to them and once at each, wherever it is cut off.
-/

namespace TolerantScript

open Machine

variable {α β : Type}

/-! Paths. -/

namespace Query

/-- All that the question tells stands at the places of the path: in their order, and no more than
once at each. -/
def Follows (path : List Position) (x : Query α) : Prop :=
  ∀ s reply ds, x s = some (reply, ds) → (ds.map Diagnostic.position).Sublist path

theorem follows_pure (a : α) : Follows [] (pure a : Query α) := by
  intro s reply ds h
  cases h
  exact .slnil

theorem follows_perform (x : Action α) : Follows [] (perform x : Query α) := by
  intro s reply ds h
  obtain ⟨answer, -, heq⟩ := Option.map_eq_some_iff.mp h
  cases heq
  exact .slnil

theorem follows_report (p : Position) (fault : Fault) :
    Follows [p] (report p fault : Query Unit) := by
  intro s reply ds h
  cases h
  exact .refl _

theorem Follows.weaken {path path' : List Position} {x : Query α} (h : Follows path x)
    (hpath : path.Sublist path') : Follows path' x :=
  fun s reply ds hx => (h s reply ds hx).trans hpath

theorem Follows.bind {path path' : List Position} {x : Query α} {f : α → Query β}
    (hx : Follows path x) (hf : ∀ a, Follows path' (f a)) : Follows (path ++ path') (x >>= f) := by
  intro s reply ds h
  obtain ⟨fault, hfirst⟩ | ⟨a, early, late, hfirst, hlast, rfl⟩ := bind_eq_some h
  · exact (hx s _ ds hfirst).trans (List.sublist_append_left path path')
  · rw [List.map_append]
    exact (hx s _ early hfirst).append (hf a s reply late hlast)

theorem Follows.nested {path : List Position} {x : Query α} (h : Follows path x) :
    Follows path (nested x) := by
  intro s reply ds hx
  by_cases hdeep : s.settings.maxDepth ≤ s.depth
  · cases (if_pos hdeep).symm.trans hx
    exact List.nil_sublist path
  · exact h _ reply ds ((if_neg hdeep).symm.trans hx)

theorem follows_recover (p : Position) (fallback : Value) (r : Except Fault Value) :
    Follows [p] (recover p fallback r : Query Value) := by
  cases r with
  | ok v => exact (follows_pure v).weaken (List.nil_sublist [p])
  | error fault =>
    simp only [recover]
    cases fault.isFatal with
    | true => exact (follows_perform _).weaken (List.nil_sublist [p])
    | false => exact (follows_report p fault).bind fun _ => follows_pure fallback

theorem Follows.truthOf {path : List Position} {x : Query Value} (h : Follows path x)
    (p : Position) : Follows (path ++ [p]) (truthOf p x) := by
  refine h.bind fun v => ?_
  cases v with
  | string s => exact (follows_report p _).bind fun _ => follows_pure false
  | int n => exact (follows_pure _).weaken (List.nil_sublist [p])
  | float x => exact (follows_pure _).weaken (List.nil_sublist [p])
  | bool b => exact (follows_pure _).weaken (List.nil_sublist [p])

end Query

/-! The path of an expression. -/

namespace Expr

/-- The places of an expression in the order in which an evaluation may record at them. An operator
comes after its operands; a logical one stands there twice, once for the truth of each operand. -/
def trail : Expr → List Position
  | .literal _ p | .var _ p => [p]
  | .unary _ e p => e.trail ++ [p]
  | .paren e _ => e.trail
  | .binary op l r p =>
    if op.isLogical then l.trail ++ [p] ++ (r.trail ++ [p]) else l.trail ++ (r.trail ++ [p])

theorem query_follows (e : Expr) : Query.Follows e.trail (e.evalIn Query) := by
  induction e with
  | literal l p => exact (Query.follows_recover p _ _).nested
  | var name p =>
    exact ((Query.follows_perform _).bind fun r => Query.follows_recover p _ r).nested
  | binary op l r p ihl ihr =>
    cases hop : op.isLogical with
    | true =>
      simp only [trail, hop, if_true]
      rw [evalIn_logical hop]
      refine ((ihl.truthOf p).bind fun b => ?_).nested
      by_cases hsettled : op.settledBy b = true
      · rw [if_pos hsettled]
        exact (Query.follows_pure _).weaken (List.nil_sublist _)
      · rw [if_neg hsettled]
        have hright := (ihr.truthOf p).bind fun c => Query.follows_pure (Value.bool c)
        rw [List.append_nil] at hright
        exact hright
    | false =>
      simp only [trail, hop]
      rw [evalIn_binary hop]
      refine (ihl.bind fun a => ihr.bind fun b => ?_).nested
      exact (Query.follows_perform _).bind fun v => Query.follows_recover p _ v
  | unary op e p ih => exact (ih.bind fun a => Query.follows_recover p _ _).nested
  | paren e p ih => exact ih.nested

/-- An evaluation gives a value or runs out of levels. Either way the diagnostics that it has
appended stand at places of the expression's trail, in the trail's order, none more often than
there. -/
theorem diagnostics_follow_trail (e : Expr) (s : Session) :
    ∃ added t, s.Gains added t ∧ (added.map Diagnostic.position).Sublist e.trail ∧
      ((∃ v, e.eval s = .done v t) ∨
        ∃ depth max, e.eval s = .halted (.nestingTooDeep depth max) t) := by
  obtain ⟨-, reply, added, hquery, hend⟩ := e.eval_tells s
  refine ⟨added, s.recordAll added, s.gains_recordAll added, e.query_follows s reply added hquery,
    ?_⟩
  cases reply with
  | ok v => exact .inl ⟨v, hend⟩
  | error fault =>
    obtain ⟨depth, max, rfl⟩ := nestingTooDeep_of_eval hend
    exact .inr ⟨depth, max, hend⟩

/-- `"a" || "b"`: neither operand has a truth, so the operator's own place comes up twice. -/
example :
    ((Expr.binary .or (.literal ⟨.string, "a"⟩ ⟨1, 1⟩) (.literal ⟨.string, "b"⟩ ⟨1, 8⟩)
      ⟨1, 5⟩).eval {}).session?.map (·.diagnostics.toList.map Diagnostic.position) =
    some [⟨1, 5⟩, ⟨1, 5⟩] := by
  decide +kernel

end Expr

end TolerantScript
