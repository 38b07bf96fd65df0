import TolerantScript.Proofs.Query

/-!
Answers to questions put elsewhere. A question that is answered with a value so many levels further
in gets the same answer further out, and an evaluation does what the answer to its question says.
-/

namespace TolerantScript

open Machine

variable {α β : Type}

def Session.furtherIn (levels : Nat) (s : Session) : Session := { s with depth := s.depth + levels }

namespace Query

theorem Tells.answer {x : Query α} {y : Action α} (h : Tells x y) {s : Session}
    {reply : Except Fault α} {ds : List Diagnostic} (hx : x s = some (reply, ds)) :
    y s = .ofReply reply (s.recordAll ds) := by
  obtain ⟨-, reply', ds', hx', hend⟩ := h s
  rw [hx] at hx'
  cases hx'
  exact hend

theorem Tells.of_done {x : Query α} {y : Action α} (h : Tells x y) {s t : Session} {a : α}
    (hy : y s = .done a t) : ∃ ds, x s = some (.ok a, ds) ∧ t = s.recordAll ds := by
  obtain ⟨-, reply, ds, hx, hend⟩ := h s
  rw [hy] at hend
  cases reply with
  | ok a' =>
    cases hend
    exact ⟨ds, hx, rfl⟩
  | error fault => cases hend

/-! The level at which a question is asked. -/

theorem nested_apply {s : Session} (hroom : s.depth < s.settings.maxDepth) (x : Query α) :
    (nested x : Query α) s = x (s.furtherIn 1) :=
  if_neg (by omega)

/-- Further in, the first question gets the answer that the second one gets here, or the levels do
not suffice for it. -/
def Sinks (x y : Query α) : Prop :=
  ∀ levels s, x (s.furtherIn levels) = y s ∨
    ∃ depth max ds, x (s.furtherIn levels) = some (.error (.nestingTooDeep depth max), ds)

theorem Sinks.of_same {x y : Query α} (h : ∀ levels s, x (s.furtherIn levels) = y s) : Sinks x y :=
  fun levels s => .inl (h levels s)

theorem Sinks.bind {x y : Query α} {f g : α → Query β} (hx : Sinks x y)
    (hf : ∀ a, Sinks (f a) (g a)) : Sinks (x >>= f) (y >>= g) := by
  intro levels s
  obtain hsame | ⟨depth, max, ds, hcut⟩ := hx levels s
  · cases hy : y s with
    | none =>
      rw [bind_none f (hsame.trans hy), bind_none g hy]
      exact .inl rfl
    | some answer =>
      obtain ⟨reply, early⟩ := answer
      cases reply with
      | error fault =>
        rw [bind_error (hsame.trans hy), bind_error hy]
        exact .inl rfl
      | ok a =>
        rw [bind_ok (hsame.trans hy), bind_ok hy]
        obtain hsame' | ⟨depth, max, late, hcut⟩ := hf a levels s
        · rw [hsame']
          exact .inl rfl
        · rw [hcut]
          exact .inr ⟨depth, max, early ++ late, rfl⟩
  · rw [bind_error hcut]
    exact .inr ⟨depth, max, ds, rfl⟩

theorem Sinks.nested {x y : Query α} (h : Sinks x y) : Sinks (nested x) (nested y) := by
  intro levels s
  by_cases hdeep : s.settings.maxDepth ≤ s.depth + levels
  · exact .inr ⟨_, _, [], if_pos hdeep⟩
  · have hroom : ¬s.settings.maxDepth ≤ s.depth := by omega
    have hin : (Machine.nested x : Query α) (s.furtherIn levels) =
        x ({ s with depth := s.depth + 1 }.furtherIn levels) := by
      refine (if_neg hdeep).trans ?_
      simp only [Session.furtherIn, Nat.add_right_comm]
    have hout : (Machine.nested y : Query α) s = y { s with depth := s.depth + 1 } := if_neg hroom
    rw [hin, hout]
    exact h levels _

def sinking : Evaluation Query Query where
  Rel := Sinks
  pure _ := .of_same fun _ _ => rfl
  bind := Sinks.bind
  nested := Sinks.nested
  halt _ := .of_same fun _ _ => rfl
  lookup _ := .of_same fun _ _ => rfl
  operate _ _ _ := .of_same fun _ _ => rfl
  report _ _ := .of_same fun _ _ => rfl

end Query

namespace Expr

variable {e : Expr} {s : Session} {v : Value} {ds : List Diagnostic}

theorem query_of_furtherIn {levels : Nat}
    (h : e.evalIn Query (s.furtherIn levels) = some (.ok v, ds)) :
    e.evalIn Query s = some (.ok v, ds) := by
  obtain hsame | ⟨depth, max, late, hcut⟩ := Query.sinking.eval e levels s
  · exact hsame.symm.trans h
  · rw [hcut] at h
    cases h

theorem query_furtherIn {levels : Nat} {t : Session} {w : Value}
    (hroom : e.eval (s.furtherIn levels) = .done w t) (h : e.evalIn Query s = some (.ok v, ds)) :
    e.evalIn Query (s.furtherIn levels) = some (.ok v, ds) := by
  obtain ⟨late, hlate, -⟩ := e.eval_tells.of_done hroom
  rw [hlate, ← h, query_of_furtherIn hlate]

end Expr

/-! Truth. -/

namespace Value

/-- Whether the value stands for true where a truth is asked for. One that has none does not. -/
def counts (v : Value) : Bool :=
  match v.truth with
  | .ok b => b
  | .error _ => false

def misreadAt (p : Position) (v : Value) : List Diagnostic :=
  match v.truth with
  | .ok _ => []
  | .error _ => [⟨p, .conversion .string .bool none⟩]

theorem counts_eq_true_iff (v : Value) : v.counts = true ↔ v.truth = .ok true := by
  cases v <;> simp [counts, truth]

end Value

theorem Query.truthOf_of_ok {x : Query Value} {s : Session} {v : Value} {ds : List Diagnostic}
    (p : Position) (h : x s = some (.ok v, ds)) :
    (truthOf p x : Query Bool) s = some (.ok v.counts, ds ++ v.misreadAt p) := by
  rw [truthOf, bind_ok h]
  cases v with
  | string s => rfl
  | int n => rfl
  | float x => rfl
  | bool b => rfl

theorem Query.ok_of_truthOf {x : Query Value} {y : Action Value} (hxy : Tells x y) {s : Session}
    {b : Bool} {ds : List Diagnostic} {p : Position}
    (h : (truthOf p x : Query Bool) s = some (.ok b, ds)) :
    ∃ v early, x s = some (.ok v, early) ∧ b = v.counts ∧ ds = early ++ v.misreadAt p := by
  obtain ⟨-, reply, early, hx, -⟩ := hxy s
  cases reply with
  | ok v =>
    rw [truthOf_of_ok p hx] at h
    cases h
    exact ⟨v, early, hx, rfl, rfl⟩
  | error fault =>
    rw [truthOf, bind_error hx] at h
    cases h

theorem Expr.test_tells (e : Expr) : Query.Tells (e.testIn Query) e.test := by
  have h := Query.telling.test e
  rw [testIn_action] at h
  exact h

end TolerantScript
