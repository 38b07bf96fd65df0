import TolerantScript.Proofs.Query
import TolerantScript.Proofs.StaticFault

/-!
How many levels an expression needs. As many as it is high are always enough; and where no operator
may leave an operand out, an evaluation that lacks one of them cannot get round the node that needs
it.
-/

namespace TolerantScript

open TolerantScript.Action

theorem Action.depth_lt_of_nested {α : Type} {x : Action α} {s t : Session} {a : α}
    (h : nested x s = .done a t) : s.depth < s.settings.maxDepth := by
  rw [nested] at h
  split at h
  case isTrue hdeep => cases h
  case isFalse hroom => omega

namespace Expr

theorem eval_cases (e : Expr) (s : Session) :
    ∃ t, t.settings = s.settings ∧ t.depth = s.depth ∧
      ((∃ v, e.eval s = .done v t) ∨ ∃ fault, e.eval s = .halted fault t) := by
  obtain ⟨-, reply, ds, -, hend⟩ := e.eval_tells s
  have hgains := s.gains_recordAll ds
  refine ⟨s.recordAll ds, hgains.settings, hgains.depth, ?_⟩
  cases reply with
  | ok v => exact .inl ⟨v, hend⟩
  | error fault => exact .inr ⟨fault, hend⟩

theorem depth_of_eval {e : Expr} {s t : Session} {v : Value} (h : e.eval s = .done v t) :
    t.settings = s.settings ∧ t.depth = s.depth := by
  obtain ⟨u, hsettings, hdepth, ⟨w, hw⟩ | ⟨fault, hfault⟩⟩ := e.eval_cases s
  · rw [h] at hw
    cases hw
    exact ⟨hsettings, hdepth⟩
  · rw [h] at hfault
    cases hfault

/-- Without logical operators, no value is given before every node was entered. -/
theorem height_le_of_eval {e : Expr} (hfree : e.isLogicFree = true) {s t : Session} {v : Value}
    (h : e.eval s = .done v t) : s.depth + e.height ≤ s.settings.maxDepth := by
  induction e generalizing s t v with
  | literal l p | var name p =>
    have hroom := depth_lt_of_nested h
    simp only [height]
    omega
  | binary op l r p ihl ihr =>
    simp only [isLogicFree, Bool.and_eq_true, Bool.not_eq_true'] at hfree
    obtain ⟨⟨hop, hfreel⟩, hfreer⟩ := hfree
    rw [eval_binary hop] at h
    obtain ⟨t₁, hinside⟩ := nested_eq_done h
    obtain ⟨a, t₂, hl, hrest⟩ := bind_eq_done hinside
    obtain ⟨b, t₃, hr, -⟩ := bind_eq_done hrest
    have hleft := ihl hfreel hl
    -- the right operand is evaluated where the left one was
    have hright := ihr hfreer hr
    obtain ⟨hsettings, hdepth⟩ := depth_of_eval hl
    rw [hsettings, hdepth] at hright
    simp only [height] at hleft hright ⊢
    omega
  | unary op e p ih =>
    obtain ⟨t₁, hinside⟩ := nested_eq_done h
    obtain ⟨a, t₂, he, -⟩ := bind_eq_done hinside
    have hoperand := ih hfree he
    simp only [height] at hoperand ⊢
    omega
  | paren e p ih =>
    obtain ⟨t₁, he⟩ := nested_eq_done h
    have hinner := ih hfree he
    simp only [height] at hinner ⊢
    omega

theorem nestingTooDeep_of_eval {e : Expr} {s t : Session} {fault : Fault}
    (h : e.eval s = .halted fault t) : ∃ depth max, fault = .nestingTooDeep depth max := by
  by_cases hs : s.depth ≤ s.settings.maxDepth
  · exact ⟨_, _, (fault_of_eval_within hs h).1⟩
  · obtain ⟨x, hx⟩ := e.eval_eq_nested
    rw [hx, nested, if_pos (by omega)] at h
    cases h
    exact ⟨_, _, rfl⟩

theorem done_of_height_le {e : Expr} {s : Session}
    (h : s.depth + e.height ≤ s.settings.maxDepth) : ∃ v t, e.eval s = .done v t := by
  obtain ⟨t, -, -, ⟨v, hv⟩ | ⟨fault, hhalted⟩⟩ := e.eval_cases s
  · exact ⟨v, t, hv⟩
  · have hdeep := (fault_of_eval_within (by omega) hhalted).2
    omega

/-- If the depth and the height of an expression together are within the limit, its evaluation gives
a value. Without logical operators it does so only then, and otherwise the fault names the first
level past the limit. -/
theorem nesting_threshold (e : Expr) (s : Session) (hs : s.depth ≤ s.settings.maxDepth) :
    (s.depth + e.height ≤ s.settings.maxDepth → ∃ v t, e.eval s = .done v t) ∧
    (e.isLogicFree = true →
      ((∃ v t, e.eval s = .done v t) ↔ s.depth + e.height ≤ s.settings.maxDepth) ∧
      (¬s.depth + e.height ≤ s.settings.maxDepth → ∃ t, e.eval s =
        .halted (.nestingTooDeep (s.settings.maxDepth + 1) s.settings.maxDepth) t)) := by
  refine ⟨done_of_height_le, fun hfree => ⟨⟨?_, done_of_height_le⟩, fun hdeep => ?_⟩⟩
  · rintro ⟨v, t, hv⟩
    exact height_le_of_eval hfree hv
  · obtain ⟨t, -, -, ⟨v, hv⟩ | ⟨fault, hhalted⟩⟩ := e.eval_cases s
    · exact absurd (height_le_of_eval hfree hv) hdeep
    · rw [(fault_of_eval_within hs hhalted).1] at hhalted
      exact ⟨t, hhalted⟩

/-- `1 / 0 + -(x . "!")`, with its longest path in the right operand. -/
def deepOnTheRight : Expr :=
  .binary .add (.binary .div (.literal ⟨.int, "1"⟩ ⟨1, 1⟩) (.literal ⟨.int, "0"⟩ ⟨1, 5⟩) ⟨1, 3⟩)
    (.unary .neg
      (.paren (.binary .concat (.var "x" ⟨1, 11⟩) (.literal ⟨.string, "!"⟩ ⟨1, 15⟩) ⟨1, 13⟩)
        ⟨1, 10⟩)
      ⟨1, 9⟩) ⟨1, 7⟩

def threeIn (maxDepth : Nat) : Session := { settings := { maxDepth }, depth := 3 }

/-- Height five at depth three: eight levels are enough, and with seven the left operand has
recorded its fault by the time the eighth is missed. -/
theorem nesting_threshold_deepOnTheRight :
    deepOnTheRight.isLogicFree = true ∧ deepOnTheRight.height = 5 ∧
    (∃ v t, deepOnTheRight.eval (threeIn 8) = .done v t) ∧
    ∃ t, deepOnTheRight.eval (threeIn 7) = .halted (.nestingTooDeep 8 7) t ∧
      t.diagnostics.toList = [⟨⟨1, 3⟩, .divisionByZero⟩] := by
  have hheight : deepOnTheRight.height = 5 := by decide
  have hshallow := (nesting_threshold deepOnTheRight (threeIn 8) (by decide)).1 (by decide)
  obtain ⟨t, ht⟩ := ((nesting_threshold deepOnTheRight (threeIn 7) (by decide)).2 rfl).2 (by decide)
  refine ⟨rfl, hheight, hshallow, t, ht, ?_⟩
  have hrecorded : (deepOnTheRight.eval (threeIn 7)).session?.map (·.diagnostics.toList) =
      some [⟨⟨1, 3⟩, .divisionByZero⟩] := by decide +kernel
  rw [ht] at hrecorded
  exact Option.some.inj hrecorded

end Expr

end TolerantScript
