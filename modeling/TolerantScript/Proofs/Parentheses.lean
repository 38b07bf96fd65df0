import TolerantScript.Proofs.ShortCircuit

/-!
Parentheses. Each one costs a level, and that is all it does: with levels to spare, an expression
comes to the same and records the same as the one that is left when all its parentheses are taken
away.
-/

namespace TolerantScript

open Machine

theorem Query.Sinks.nested_left {α : Type} {x y : Query α} (h : Sinks x y) :
    Sinks (Machine.nested x) y := by
  intro levels s
  by_cases hdeep : s.settings.maxDepth ≤ s.depth + levels
  · exact .inr ⟨_, _, [], if_pos hdeep⟩
  · have hin : (Machine.nested x : Query α) (s.furtherIn levels) = x (s.furtherIn (levels + 1)) :=
      if_neg hdeep
    rw [hin]
    exact h (levels + 1) s

namespace Expr

/-- The expression without its parentheses, all other nodes where they were. -/
def bare : Expr → Expr
  | .literal l p => .literal l p
  | .var name p => .var name p
  | .binary op l r p => .binary op l.bare r.bare p
  | .unary op e p => .unary op e.bare p
  | .paren e _ => e.bare

def isParen : Expr → Bool
  | .paren .. => true
  | _ => false

theorem parts_bare (e : Expr) : e.bare.parts = (e.parts.filter (!·.isParen)).map bare := by
  induction e with
  | literal l p | var name p => rfl
  | binary op l r p ihl ihr =>
    rw [bare, parts_binary, parts_binary, ihl, ihr]
    simp [isParen, bare]
  | unary op e p ih =>
    rw [bare, parts_unary, parts_unary, ih]
    simp [isParen, bare]
  | paren e p ih =>
    rw [bare, parts_paren, ih]
    simp [isParen]

/-- At every node the operands without parentheses are evaluated no deeper than before. -/
theorem bare_sinks (e : Expr) : Query.Sinks (e.evalIn Query) (e.bare.evalIn Query) := by
  induction e with
  | literal l p | var name p => exact Query.sinking.eval _
  | binary op l r p ihl ihr => exact Query.sinking.binary ihl ihr op p
  | unary op e p ih => exact Query.sinking.unary ih op p
  | paren e p ih => exact ih.nested_left

theorem isParen_bare (e : Expr) : e.bare.isParen = false := by
  induction e with
  | paren e p ih => exact ih
  | _ => rfl

/-- Where the levels suffice for an expression, the one without its parentheses has no parentheses
left, comes to the same value and records the same. -/
theorem parens_transparent (e : Expr) (s : Session)
    (hlevels : ∀ depth max t, e.eval s ≠ .halted (.nestingTooDeep depth max) t) :
    (∀ part ∈ e.bare.parts, part.isParen = false) ∧
    ∃ v added t, e.eval s = .done v t ∧ e.bare.eval s = .done v t ∧ s.Gains added t := by
  constructor
  · intro part hpart
    rw [parts_bare] at hpart
    obtain ⟨part', -, rfl⟩ := List.mem_map.mp hpart
    exact part'.isParen_bare
  · obtain ⟨-, reply, added, hquery, hend⟩ := e.eval_tells s
    cases reply with
    | error fault =>
      obtain ⟨depth, max, rfl⟩ := nestingTooDeep_of_eval hend
      exact absurd hend (hlevels depth max _)
    | ok v =>
      have hbare : e.bare.evalIn Query s = some (.ok v, added) := by
        obtain hsame | ⟨depth, max, ds, hcut⟩ := e.bare_sinks 0 s
        · exact hsame.symm.trans hquery
        · cases hcut.symm.trans hquery
      exact ⟨v, added, _, hend, e.bare.eval_tells.answer hbare, s.gains_recordAll added⟩

/-- `((x) / (0)) || ((s))` -/
def wrappedOperands : Expr :=
  .binary .or
    (.paren
      (.binary .div (.paren (.var "x" ⟨1, 3⟩) ⟨1, 2⟩)
        (.paren (.literal ⟨.int, "0"⟩ ⟨1, 9⟩) ⟨1, 8⟩) ⟨1, 6⟩)
      ⟨1, 1⟩)
    (.paren (.paren (.var "s" ⟨1, 18⟩) ⟨1, 17⟩) ⟨1, 16⟩) ⟨1, 13⟩

/-- `x / 0 || s`, with its parts where they were. -/
def plainOperands : Expr :=
  .binary .or (.binary .div (.var "x" ⟨1, 3⟩) (.literal ⟨.int, "0"⟩ ⟨1, 9⟩) ⟨1, 6⟩)
    (.var "s" ⟨1, 18⟩)
    ⟨1, 13⟩

def fiveLevels : Session :=
  { settings := { maxDepth := 5 }, store := ⟨[⟨"s", .string, .string "t"⟩]⟩ }

/-- The unknown name, the zero divisor and the string that has no truth, with and without
parentheses. -/
theorem parens_transparent_wrappedOperands :
    wrappedOperands.bare = plainOperands ∧
    ∃ t, wrappedOperands.eval fiveLevels = .done (.bool false) t ∧
      plainOperands.eval fiveLevels = .done (.bool false) t ∧
      t.diagnostics.toList = [⟨⟨1, 3⟩, .undeclaredVariable "x"⟩, ⟨⟨1, 6⟩, .divisionByZero⟩,
        ⟨⟨1, 13⟩, .conversion .string .bool none⟩] := by
  have hbare : wrappedOperands.bare = plainOperands := rfl
  have hdone : wrappedOperands.eval fiveLevels = .done (.bool false) (fiveLevels.recordAll
      [⟨⟨1, 3⟩, .undeclaredVariable "x"⟩, ⟨⟨1, 6⟩, .divisionByZero⟩,
        ⟨⟨1, 13⟩, .conversion .string .bool none⟩]) := by
    decide +kernel
  have hlevels : ∀ depth max t,
      wrappedOperands.eval fiveLevels ≠ .halted (.nestingTooDeep depth max) t := by
    simp [hdone]
  obtain ⟨-, v, added, t, ht, hplain, -⟩ := parens_transparent wrappedOperands fiveLevels hlevels
  rw [hbare] at hplain
  rw [hdone] at ht
  cases ht
  exact ⟨hbare, _, hdone, hplain, rfl⟩

end Expr

end TolerantScript
