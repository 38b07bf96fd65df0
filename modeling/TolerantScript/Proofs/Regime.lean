import TolerantScript.Execution.Program

/-!
What execution keeps: properties of sessions that are carried from step to step, whatever the
outcome, where every level of nesting that was entered is left again.
-/

namespace TolerantScript

def Outcome.session? {α : Type} : Outcome α → Option Session
  | .done _ s | .halted _ s => some s
  | .unfinished => none

theorem Session.appended_record {s : Session} {old : List Diagnostic} {P : Diagnostic → Prop}
    {d : Diagnostic}
    (h : ∃ appended, s.diagnostics.toList = old ++ appended ∧ ∀ x ∈ appended, P x) (hd : P d) :
    ∃ appended, (s.record d).diagnostics.toList = old ++ appended ∧ ∀ x ∈ appended, P x := by
  obtain ⟨appended, hdiag, hall⟩ := h
  refine ⟨appended ++ [d], ?_, fun x hx => ?_⟩
  · rw [toList_diagnostics_record, hdiag, List.append_assoc]
  · obtain hx | hx := List.mem_append.mp hx
    · exact hall x hx
    · rw [List.mem_singleton.mp hx]
      exact hd

/-- Events that go with no change of the variables or the diagnostics. -/
def Event.isMark : Event → Bool
  | .declared .. | .assigned .. | .recorded _ => false
  | _ => true

/-- What holds of a session all the while, and what holds of one that a fault has halted. -/
structure Regime where
  Inv : Session → Prop
  Fatal : Fault → Session → Prop
  inv_enter (s : Session) :
    s.depth < s.settings.maxDepth → Inv s → Inv { s with depth := s.depth + 1 }
  inv_leave (s : Session) : Inv s → Inv (Action.leave s)
  inv_mark (s : Session) (e : Event) : e.isMark = true → Inv s → Inv (s.emit e)
  fatal_leave (fault : Fault) (s : Session) : Fatal fault s → Fatal fault (Action.leave s)

namespace Regime

variable {R : Regime} {α β : Type} {d : Nat}

def Holds (R : Regime) (d : Nat) (Q : α → Prop) : Outcome α → Prop
  | .done a s => s.depth = d ∧ R.Inv s ∧ Q a
  | .halted fault s => s.depth = d ∧ R.Inv s ∧ R.Fatal fault s
  | .unfinished => True

/-- Started at depth `d` under the regime, the action stays under it and is at depth `d` again when
it ends; a value that it gives has `Q`. -/
def Keeps (R : Regime) (d : Nat) (x : Action α) (Q : α → Prop) : Prop :=
  ∀ s, s.depth = d → R.Inv s → R.Holds d Q (x s)

def Enters (R : Regime) (d : Nat) : Prop :=
  ∀ s, s.depth = d → R.Inv s → s.settings.maxDepth ≤ d →
    R.Fatal (.nestingTooDeep (d + 1) s.settings.maxDepth) s

def Stops (R : Regime) : Prop :=
  ∀ s, R.Inv s → s.interrupted = true → R.Fatal .interrupted s

def Records (R : Regime) (position : Position) (fault : Fault) : Prop :=
  ∀ s, R.Inv s → R.Inv (s.record ⟨position, fault⟩)

theorem Holds.session {Q : α → Prop} {o : Outcome α} {s : Session} (h : R.Holds d Q o)
    (hend : o.session? = some s) : s.depth = d ∧ R.Inv s := by
  cases o with
  | done a t =>
    cases hend
    exact ⟨h.1, h.2.1⟩
  | halted fault t =>
    cases hend
    exact ⟨h.1, h.2.1⟩
  | unfinished => cases hend

theorem Keeps.pure {a : α} {Q : α → Prop} (h : Q a) : R.Keeps d (pure a) Q :=
  fun _ hd hI => ⟨hd, hI, h⟩

theorem Keeps.bind {x : Action α} {f : α → Action β} {P : α → Prop} {Q : β → Prop}
    (hx : R.Keeps d x P) (hf : ∀ a, P a → R.Keeps d (f a) Q) : R.Keeps d (x >>= f) Q := by
  intro s hd hI
  have h := hx s hd hI
  rw [Action.bind_apply]
  cases hs : x s with
  | done a s' =>
    rw [hs] at h
    obtain ⟨hd', hI', ha⟩ := h
    exact hf a ha s' hd' hI'
  | halted fault s' =>
    rw [hs] at h
    exact h
  | unfinished => trivial

theorem Keeps.weaken {x : Action α} {P Q : α → Prop} (hx : R.Keeps d x P)
    (hPQ : ∀ a, P a → Q a) : R.Keeps d x Q := by
  intro s hd hI
  have h := hx s hd hI
  cases hs : x s with
  | done a s' =>
    rw [hs] at h
    exact ⟨h.1, h.2.1, hPQ a h.2.2⟩
  | halted fault s' =>
    rw [hs] at h
    exact h
  | unfinished => trivial

theorem Keeps.nested {x : Action α} {Q : α → Prop} (he : R.Enters d) (hx : R.Keeps (d + 1) x Q) :
    R.Keeps d (Action.nested x) Q := by
  intro s hd hI
  subst hd
  simp only [Action.nested]
  split
  case isTrue hdeep => exact ⟨rfl, hI, he s rfl hI hdeep⟩
  case isFalse hroom =>
    have h := hx { s with depth := s.depth + 1 } rfl (R.inv_enter s (by omega) hI)
    cases hs : x { s with depth := s.depth + 1 } with
    | done a s' =>
      rw [hs] at h
      obtain ⟨hd, hI', ha⟩ := h
      exact ⟨by simp [Action.leave, hd], R.inv_leave s' hI', ha⟩
    | halted fault s' =>
      rw [hs] at h
      obtain ⟨hd, hI', hfault⟩ := h
      exact ⟨by simp [Action.leave, hd], R.inv_leave s' hI', R.fatal_leave fault s' hfault⟩
    | unfinished => trivial

theorem Keeps.halt {fault : Fault} {Q : α → Prop} (h : ∀ s, R.Inv s → R.Fatal fault s) :
    R.Keeps d (Action.halt fault) Q :=
  fun s hd hI => ⟨hd, hI, h s hI⟩

theorem Keeps.mark {e : Event} (h : e.isMark = true) :
    R.Keeps d (Action.emit e) fun _ => True :=
  fun s hd hI => ⟨hd, R.inv_mark s e h hI, trivial⟩

theorem Keeps.report {p : Position} {fault : Fault} (h : R.Records p fault) :
    R.Keeps d (Action.report p fault) fun _ => True :=
  fun s hd hI => ⟨hd, h s hI, trivial⟩

theorem Keeps.checkInterrupt (h : R.Stops) : R.Keeps d Action.checkInterrupt fun _ => True := by
  intro s hd hI
  simp only [Action.checkInterrupt]
  split
  case isTrue hstop => exact ⟨hd, hI, h s hI hstop⟩
  case isFalse => exact ⟨hd, hI, trivial⟩

theorem Keeps.recover {p : Position} {fallback : Value} {r : Except Fault Value} {Q : Value → Prop}
    (hok : ∀ v, r = .ok v → Q v)
    (herror : ∀ fault, r = .error fault → fault.isFatal = false ∧ R.Records p fault ∧ Q fallback) :
    R.Keeps d (Action.recover p fallback r) Q := by
  cases r with
  | ok v => exact Keeps.pure (hok v rfl)
  | error fault =>
    obtain ⟨hfatal, hrecord, hQ⟩ := herror fault rfl
    simp only [Action.recover, hfatal]
    exact Keeps.bind (Keeps.report hrecord) fun _ _ => Keeps.pure hQ

theorem Keeps.truthOf {p : Position} {x : Action Value} {P : Value → Prop} (hx : R.Keeps d x P)
    (hP : ∀ v, P v → ∀ fault, v.truth = .error fault → R.Records p fault) :
    R.Keeps d (Action.truthOf p x) fun _ => True := by
  refine Keeps.bind hx fun v hv => ?_
  have hrecord := hP v hv
  cases hv : v.truth with
  | ok b => exact Keeps.pure trivial
  | error fault =>
    exact Keeps.bind (Keeps.report (hrecord fault hv)) fun _ _ => Keeps.pure trivial

theorem Keeps.declareAll {ty : Ty} {names : List Ident}
    (hnew : ∀ x ∈ names, ∀ s store, R.Inv s → s.store.declare x.name ty = .ok store →
      R.Inv ({ s with store }.emit (.declared x.name ty)))
    (hold : ∀ x ∈ names, R.Records x.position (.duplicateDeclaration x.name)) :
    R.Keeps d (Action.declareAll ty names) fun _ => True := by
  induction names with
  | nil => exact Keeps.pure trivial
  | cons x rest ih =>
    -- A name that is taken is recorded and left out; the names after it are declared all the same.
    have hrest := ih (fun y hy => hnew y (List.mem_cons_of_mem x hy))
      fun y hy => hold y (List.mem_cons_of_mem x hy)
    intro s hd hI
    simp only [Action.declareAll, Action.bind_apply, Action.store]
    cases hs : s.store.declare x.name ty with
    | ok store => exact hrest _ hd (hnew x List.mem_cons_self s store hI hs)
    | error fault =>
      have hfault : fault = .duplicateDeclaration x.name := by
        unfold Store.declare at hs
        split at hs
        · exact (Except.error.inj hs).symm
        · cases hs
      subst hfault
      exact hrest _ hd (hold x List.mem_cons_self s hI)

theorem Keeps.assignTo {target : Ident} {value : Value} {Q : Option Value → Prop}
    (hok : ∀ s stored store, R.Inv s → s.store.assign target.name value = .ok (stored, store) →
      R.Inv ({ s with store }.emit (.assigned target.name stored)) ∧ Q (some stored))
    (herror : ∀ s fault, R.Inv s → s.store.assign target.name value = .error fault →
      R.Inv (s.record ⟨target.position, fault⟩) ∧ Q none) :
    R.Keeps d (Action.assignTo target value) Q := by
  intro s hd hI
  simp only [Action.assignTo, Action.bind_apply, Action.store]
  cases hs : s.store.assign target.name value with
  | ok r =>
    obtain ⟨hI', hQ⟩ := hok s r.1 r.2 hI hs
    exact ⟨hd, hI', hQ⟩
  | error fault =>
    obtain ⟨hI', hQ⟩ := herror s fault hI hs
    exact ⟨hd, hI', hQ⟩

end Regime

end TolerantScript
