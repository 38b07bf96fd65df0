import TolerantScript.Proofs.Truncation

/-!
Statements that nobody has asked to stop, step by step: how one is entered, and how a loop goes from
one turn to the next.
-/

namespace TolerantScript

/-- The session as the own work of a statement finds it. -/
def Session.inside (kind : Stmt.Kind) (p : Position) (s : Session) : Session :=
  let entered := { s with depth := s.depth + 1 }
  if s.settings.trace then entered.emit (.started kind p) else entered

namespace Session

def refusal? (s : Session) : Option Fault :=
  if s.interrupted then some .interrupted
  else if s.settings.maxDepth ≤ s.depth then
    some (.nestingTooDeep (s.depth + 1) s.settings.maxDepth)
  else none

theorem refusal?_eq_none_iff (s : Session) :
    s.refusal? = none ↔ s.interrupted = false ∧ s.depth < s.settings.maxDepth := by
  by_cases hflag : s.interrupted = true <;> simp [refusal?, hflag]

variable (s : Session) (kind : Stmt.Kind) (p : Position)

@[simp] theorem inside_store : (s.inside kind p).store = s.store := by
  rw [inside]
  cases s.settings.trace <;> rfl

@[simp] theorem inside_settings : (s.inside kind p).settings = s.settings := by
  rw [inside]
  cases s.settings.trace <;> rfl

@[simp] theorem inside_depth : (s.inside kind p).depth = s.depth + 1 := by
  rw [inside]
  cases s.settings.trace <;> rfl

@[simp] theorem inside_diagnostics : (s.inside kind p).diagnostics = s.diagnostics := by
  rw [inside]
  cases s.settings.trace <;> rfl

end Session

namespace Action

variable {α : Type} {s : Session}

theorem checkInterrupt_bind (hflag : s.interrupted = false) (f : Unit → Action α) :
    (checkInterrupt >>= f) s = f () s := by
  rw [bind_apply, checkInterrupt, if_neg (by simp [hflag])]

theorem begin_of_deep (hflag : s.interrupted = false) (hdeep : s.settings.maxDepth ≤ s.depth)
    (kind : Stmt.Kind) (p : Position) (work : Action (Option Value)) :
    begin kind p work s = .halted (.nestingTooDeep (s.depth + 1) s.settings.maxDepth) s := by
  rw [begin, checkInterrupt_bind hflag]
  exact if_pos hdeep

theorem begin_apply (hflag : s.interrupted = false) (hroom : s.depth < s.settings.maxDepth)
    (kind : Stmt.Kind) (p : Position) (work : Action (Option Value)) :
    begin kind p work s = (work (s.inside kind p)).mapSession leave := by
  have hwork : (do announce kind p; work : Action (Option Value)) { s with depth := s.depth + 1 } =
      work (s.inside kind p) := by
    simp only [bind_apply, announce, settings, Session.inside]
    cases s.settings.trace <;> rfl
  rw [← Machine.begin_action]
  refine (checkInterrupt_bind hflag _).trans ((if_neg (by omega)).trans ?_)
  simp only [Machine.perform, hwork]
  cases work (s.inside kind p) <;> rfl

theorem begin_of_refusal {fault : Fault} (h : s.refusal? = some fault) (kind : Stmt.Kind)
    (p : Position) (work : Action (Option Value)) : begin kind p work s = .halted fault s := by
  rw [Session.refusal?] at h
  split at h
  case isTrue hflag =>
    cases h
    rw [begin, bind_apply, checkInterrupt, if_pos hflag]
  case isFalse hflag =>
    split at h
    case isTrue hdeep =>
      cases h
      exact begin_of_deep (Bool.eq_false_iff.mpr hflag) hdeep kind p work
    case isFalse => cases h

variable {test : Action Bool} {body : Action (Option Value)}

theorem whileLoop_apply (hflag : s.interrupted = false) (turns count : Nat) :
    whileLoop test body (turns + 1) count s = (do
      if ← test then
        let _ ← body
        whileLoop test body turns (count + 1)
      else
        emit (.whileFinished count)
        return none : Action (Option Value)) s :=
  checkInterrupt_bind hflag _

theorem doWhileLoop_apply (hflag : s.interrupted = false) (turns count : Nat) :
    doWhileLoop test body (turns + 1) count s = (do
      let _ ← body
      if ← test then
        doWhileLoop test body turns (count + 1)
      else
        emit (.doWhileFinished (count + 1))
        return none : Action (Option Value)) s :=
  checkInterrupt_bind hflag _

/-- So many turns of a loop lead from the first session to the second: each finds the test to hold
and carries out the body. -/
inductive Laps (test : Action Bool) (body : Action (Option Value)) :
    Nat → Session → Session → Prop where
  | none (s : Session) : Laps test body 0 s s
  | turn {n : Nat} {s s₁ s₂ t : Session} {v : Option Value} :
    test s = .done true s₁ → body s₁ = .done v s₂ → Laps test body n s₂ t →
      Laps test body (n + 1) s t

theorem checkInterrupt_eq_done {s t : Session} {u : Unit} (h : checkInterrupt s = .done u t) :
    s.interrupted = false ∧ t = s := by
  rw [checkInterrupt] at h
  split at h
  case isTrue hup => cases h
  case isFalse hdown =>
    cases h
    exact ⟨Bool.eq_false_iff.mpr hdown, rfl⟩

theorem begin_eq_done {kind : Stmt.Kind} {p : Position} {work : Action (Option Value)}
    {s t : Session} {v : Option Value} (h : begin kind p work s = .done v t) :
    s.depth < s.settings.maxDepth ∧ ∃ u, work (s.inside kind p) = .done v u ∧ t = leave u := by
  obtain ⟨_, s', hcheck, -⟩ := bind_eq_done h
  have hflag := (checkInterrupt_eq_done hcheck).1
  by_cases hdeep : s.settings.maxDepth ≤ s.depth
  · rw [begin_of_deep hflag hdeep] at h
    cases h
  · rw [begin_apply hflag (by omega)] at h
    refine ⟨by omega, ?_⟩
    cases hwork : work (s.inside kind p) with
    | done w u =>
      rw [hwork] at h
      cases h
      exact ⟨u, rfl, rfl⟩
    | halted fault u =>
      rw [hwork] at h
      cases h
    | unfinished =>
      rw [hwork] at h
      cases h

/-- A loop that tests first ends with a test that fails, after some turns. -/
theorem whileLoop_eq_done {turns count : Nat} {s t : Session} {v : Option Value}
    (h : whileLoop test body turns count s = .done v t) :
    v = none ∧ ∃ n u u', Laps test body n s u ∧ test u = .done false u' ∧
      t = u'.emit (.whileFinished (count + n)) := by
  induction turns generalizing count s with
  | zero => cases h
  | succ turns ih =>
    obtain ⟨_, s', hcheck, hrest⟩ := bind_eq_done h
    obtain ⟨-, rfl⟩ := checkInterrupt_eq_done hcheck
    obtain ⟨b, s₁, htest, hrest⟩ := bind_eq_done hrest
    cases b with
    | true =>
      obtain ⟨w, s₂, hbody, hrest⟩ := bind_eq_done hrest
      obtain ⟨hv, n, u, u', hlaps, hlast, rfl⟩ := ih hrest
      refine ⟨hv, n + 1, u, u', .turn htest hbody hlaps, hlast, ?_⟩
      rw [Nat.add_right_comm, Nat.add_assoc]
    | false =>
      cases hrest
      exact ⟨rfl, 0, s', s₁, .none s', htest, rfl⟩

theorem doWhileLoop_eq_done {turns count : Nat} {s t : Session} {v : Option Value}
    (h : doWhileLoop test body turns count s = .done v t) :
    v = none ∧ ∃ n w s₁ u u', body s = .done w s₁ ∧ Laps test body n s₁ u ∧
      test u = .done false u' ∧ t = u'.emit (.doWhileFinished (count + n + 1)) := by
  induction turns generalizing count s with
  | zero => cases h
  | succ turns ih =>
    obtain ⟨_, s', hcheck, hrest⟩ := bind_eq_done h
    obtain ⟨-, rfl⟩ := checkInterrupt_eq_done hcheck
    obtain ⟨w, s₁, hbody, hrest⟩ := bind_eq_done hrest
    obtain ⟨b, s₂, htest, hrest⟩ := bind_eq_done hrest
    cases b with
    | true =>
      obtain ⟨hv, n, w', s₃, u, u', hbody', hlaps, hlast, rfl⟩ := ih hrest
      refine ⟨hv, n + 1, w, s₁, u, u', hbody, .turn htest hbody' hlaps, hlast, ?_⟩
      rw [Nat.add_right_comm count 1 n, Nat.add_assoc count n 1]
    | false =>
      cases hrest
      exact ⟨rfl, 0, w, s₁, s₁, s₂, hbody, .none s₁, htest, rfl⟩

end Action

theorem Stmt.exec_of_refusal {s : Session} {fault : Fault} (h : s.refusal? = some fault)
    (turns : Nat) (stmt : Stmt) : stmt.exec turns s = .halted fault s := by
  rw [exec.eq_def]
  exact Action.begin_of_refusal h _ _ _

end TolerantScript
