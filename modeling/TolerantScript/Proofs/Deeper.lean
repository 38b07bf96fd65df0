import TolerantScript.Proofs.Simulation

/-!
Executions that start further in. What a session has announced and how deep it is decide nothing but
whether the levels last: beside an execution from another session that is the same apart from that,
one that starts deeper does the same, or it runs out of levels.
-/

namespace TolerantScript

variable {α β γ δ : Type}

/-! Sessions whose flag does not change. -/

namespace Session

/-- The flag stays as it is, whatever is announced: it is up, or the event that raises it is
past. -/
def Steady (s : Session) : Prop :=
  s.interrupted = true ∨ ∀ n, s.stopAt = some n → n ≤ s.events.size

theorem Steady.interrupted_emit {s : Session} (h : s.Steady) (e : Event) :
    (s.emit e).interrupted = s.interrupted := by
  simp only [Session.emit]
  obtain hflag | hpast := h
  · simp [hflag]
  · have hlater : s.stopAt ≠ some (s.events.size + 1) := by
      intro hnext
      have := hpast _ hnext
      omega
    simp [hlater]

theorem Steady.emit {s : Session} (h : s.Steady) (e : Event) : (s.emit e).Steady := by
  obtain hflag | hpast := h
  · exact .inl ((Steady.interrupted_emit (.inl hflag) e).trans hflag)
  · refine .inr fun n hn => ?_
    have hsize : (s.emit e).events.size = s.events.size + 1 := Array.size_push e
    have := hpast n hn
    omega

/-- The first session is the second one so many levels further in, and may have announced more. The
flag is the same in both, and no event will change it. -/
structure Deeper (levels : Nat) (flag : Bool) (s t : Session) : Prop where
  settings : s.settings = t.settings
  store : s.store = t.store
  diagnostics : s.diagnostics = t.diagnostics
  depth : s.depth = t.depth + levels
  interrupted : s.interrupted = flag ∧ t.interrupted = flag
  steady : s.Steady ∧ t.Steady
  events : t.events.size ≤ s.events.size

namespace Deeper

variable {levels : Nat} {flag : Bool} {s t : Session}

theorem refl (h : s.Steady) : s.Deeper 0 s.interrupted s :=
  ⟨rfl, rfl, rfl, rfl, ⟨rfl, rfl⟩, ⟨h, h⟩, Nat.le_refl _⟩

theorem emit_left (h : s.Deeper levels flag t) (e : Event) : (s.emit e).Deeper levels flag t :=
  { h with
    interrupted := ⟨(h.steady.1.interrupted_emit e).trans h.interrupted.1, h.interrupted.2⟩
    steady := ⟨h.steady.1.emit e, h.steady.2⟩
    events := by
      have hsize : (s.emit e).events.size = s.events.size + 1 := Array.size_push e
      have := h.events
      omega }

theorem emit_both (h : s.Deeper levels flag t) (e e' : Event) :
    (s.emit e).Deeper levels flag (t.emit e') :=
  { h with
    interrupted := ⟨(h.steady.1.interrupted_emit e).trans h.interrupted.1,
      (h.steady.2.interrupted_emit e').trans h.interrupted.2⟩
    steady := ⟨h.steady.1.emit e, h.steady.2.emit e'⟩
    events := by
      have hs : (s.emit e).events.size = s.events.size + 1 := Array.size_push e
      have ht : (t.emit e').events.size = t.events.size + 1 := Array.size_push e'
      have := h.events
      omega }

theorem emit (h : s.Deeper levels flag t) (e : Event) : (s.emit e).Deeper levels flag (t.emit e) :=
  h.emit_both e e

theorem setStore (h : s.Deeper levels flag t) (store : Store) :
    { s with store }.Deeper levels flag { t with store } :=
  { h with store := rfl }

theorem record (h : s.Deeper levels flag t) (d : Diagnostic) :
    (s.record d).Deeper levels flag (t.record d) :=
  { h.emit (.recorded d) with diagnostics := congrArg (·.push d) h.diagnostics }

theorem enter (h : s.Deeper levels flag t) :
    { s with depth := s.depth + 1 }.Deeper levels flag { t with depth := t.depth + 1 } :=
  { h with
    depth := by
      have := h.depth
      simp only
      omega }

theorem enter_left (h : s.Deeper levels flag t) :
    { s with depth := s.depth + 1 }.Deeper (levels + 1) flag t :=
  { h with
    depth := by
      have := h.depth
      simp only
      omega }

theorem leave (h : s.Deeper levels flag t) {d : Nat} (hd : t.depth = d + 1) :
    (Action.leave s).Deeper levels flag (Action.leave t) :=
  { h with
    depth := by
      have := h.depth
      simp only [Action.leave]
      omega }

theorem leave_left (h : s.Deeper (levels + 1) flag t) :
    (Action.leave s).Deeper levels flag t :=
  { h with
    depth := by
      have := h.depth
      simp only [Action.leave]
      omega }

end Deeper

end Session

namespace Outcome

/-- Both come to the same, the first so many levels further in than the second, which is at depth
`d`; the values they give have `V`. -/
inductive Deeper (levels : Nat) (flag : Bool) (d : Nat) (V : α → β → Prop) :
    Outcome α → Outcome β → Prop where
  | done {s t : Session} {a : α} {b : β} :
    V a b → s.Deeper levels flag t → t.depth = d → Deeper levels flag d V (.done a s) (.done b t)
  | halted {s t : Session} (fault : Fault) :
    s.Deeper levels flag t → t.depth = d →
      Deeper levels flag d V (.halted fault s) (.halted fault t)
  | unfinished : Deeper levels flag d V .unfinished .unfinished

def LacksLevels (o : Outcome α) : Prop := ∃ depth max s, o = .halted (.nestingTooDeep depth max) s

/-- How a call ended, for the one who made it: the fatal fault if there was one, the variables and
the diagnostics; and none if it has not come to an end. -/
def ending : Outcome α → Option (Option Fault × Store × Array Diagnostic)
  | .done _ s => some (none, s.store, s.diagnostics)
  | .halted fault s => some (some fault, s.store, s.diagnostics)
  | .unfinished => none

theorem Deeper.ending_eq {levels d : Nat} {flag : Bool} {V : α → β → Prop} {o : Outcome α}
    {o' : Outcome β} (h : o.Deeper levels flag d V o') : o.ending = o'.ending := by
  cases h with
  | done _ h _ => simp only [ending, h.store, h.diagnostics]
  | halted fault h _ => simp only [ending, h.store, h.diagnostics]
  | unfinished => rfl

end Outcome

/-! Actions. -/

namespace Action

/-- From a session so many levels further in, the first action does what the second does; or it runs
out of levels, if that is allowed for. -/
def Sinks (cut : Prop) (levels : Nat) (flag : Bool) (V : α → β → Prop) (x : Action α)
    (y : Action β) : Prop :=
  ∀ s t, s.Deeper levels flag t →
    (x s).Deeper levels flag t.depth V (y t) ∨ cut ∧ (x s).LacksLevels

namespace Sinks

variable {cut : Prop} {levels : Nat} {flag : Bool}

theorem pure {V : α → β → Prop} {a : α} {b : β} (h : V a b) :
    Sinks cut levels flag V (pure a) (pure b) :=
  fun _ _ hst => .inl (.done h hst rfl)

theorem bind {V : α → β → Prop} {W : γ → δ → Prop} {x : Action α} {y : Action β}
    {f : α → Action γ} {g : β → Action δ} (hx : Sinks cut levels flag V x y)
    (hf : ∀ a b, V a b → Sinks cut levels flag W (f a) (g b)) :
    Sinks cut levels flag W (x >>= f) (y >>= g) := by
  intro s t h
  rw [bind_apply, bind_apply]
  obtain hsame | ⟨hcut, depth, max, u, hu⟩ := hx s t h
  · generalize x s = o at hsame ⊢
    generalize y t = o' at hsame ⊢
    cases hsame with
    | @done s' t' a b hab h' hd =>
      rw [← hd]
      exact hf a b hab s' t' h'
    | halted fault h' hd => exact .inl (.halted fault h' hd)
    | unfinished => exact .inl .unfinished
  · rw [hu]
    exact .inr ⟨hcut, depth, max, u, rfl⟩

theorem weaken {V W : α → β → Prop} {x : Action α} {y : Action β}
    (hx : Sinks cut levels flag V x y) (hVW : ∀ a b, V a b → W a b) :
    Sinks cut levels flag W x y := by
  intro s t h
  obtain hsame | hcut := hx s t h
  · generalize x s = o at hsame ⊢
    generalize y t = o' at hsame ⊢
    cases hsame with
    | done hab h' hd => exact .inl (.done (hVW _ _ hab) h' hd)
    | halted fault h' hd => exact .inl (.halted fault h' hd)
    | unfinished => exact .inl .unfinished
  · exact .inr hcut

theorem nested {V : α → β → Prop} {x : Action α} {y : Action β} (hcut : 0 < levels → cut)
    (hx : Sinks cut levels flag V x y) : Sinks cut levels flag V (nested x) (nested y) := by
  intro s t h
  have hdepth := h.depth
  simp only [Action.nested]
  by_cases hdeep : s.settings.maxDepth ≤ s.depth
  · rw [if_pos hdeep]
    by_cases hlevels : levels = 0
    · -- no levels between them, so neither has one left
      have hsame : s.depth = t.depth := by omega
      rw [h.settings, hsame] at hdeep
      rw [if_pos hdeep, h.settings, hsame]
      exact .inl (.halted _ h rfl)
    · exact .inr ⟨hcut (by omega), _, _, _, rfl⟩
  · have hroom : ¬t.settings.maxDepth ≤ t.depth := by
      rw [← h.settings]
      omega
    rw [if_neg hdeep, if_neg hroom]
    obtain hsame | ⟨hcut, depth, max, u, hu⟩ := hx _ _ h.enter
    · generalize x { s with depth := s.depth + 1 } = o at hsame ⊢
      generalize y { t with depth := t.depth + 1 } = o' at hsame ⊢
      cases hsame with
      | done hab h' hd => exact .inl (.done hab (h'.leave hd) (by simp [Action.leave, hd]))
      | halted fault h' hd => exact .inl (.halted fault (h'.leave hd) (by simp [Action.leave, hd]))
      | unfinished => exact .inl .unfinished
    · rw [hu]
      exact .inr ⟨hcut, depth, max, Action.leave u, rfl⟩

theorem quiet {x : Action α} (hx : x.Quiet) : Sinks cut levels flag Eq x x := by
  intro s t h
  refine .inl ?_
  cases hx with
  | halt fault => exact .halted fault h rfl
  | giveUp => exact .unfinished
  | checkInterrupt =>
    simp only [Action.checkInterrupt, h.interrupted]
    cases flag with
    | true => exact .halted _ h rfl
    | false => exact .done rfl h rfl
  | lookup name => exact .done (congrArg (·.get name) h.store) h rfl
  | operate op l r => exact .done (congrArg (op.apply ·.maxStringLen l r) h.settings) h rfl
  | announce kind p =>
    simp only [Action.announce, bind_apply, Action.settings, h.settings]
    cases t.settings.trace with
    | true => exact .done rfl (h.emit (.started kind p)) rfl
    | false => exact .done rfl h rfl
  | declare name ty =>
    rw [declare_apply, declare_apply, h.store]
    cases t.store.declare name ty with
    | ok extended => exact .done rfl ((h.setStore extended).emit (.declared name ty)) rfl
    | error fault => exact .done rfl h rfl
  | assign name value =>
    rw [assign_apply, assign_apply, h.store]
    cases t.store.assign name value with
    | ok r => exact .done rfl ((h.setStore r.2).emit (.assigned name r.1)) rfl
    | error fault => exact .done rfl h rfl
  | whileFinished count => exact .done rfl (h.emit (.whileFinished count)) rfl
  | doWhileFinished count => exact .done rfl (h.emit (.doWhileFinished count)) rfl

theorem report (p : Position) (fault : Fault) :
    Sinks cut levels flag Eq (report p fault) (report p fault) :=
  fun _ _ h => .inl (.done rfl (h.record ⟨p, fault⟩) rfl)

/-! Steps that only the first one takes. -/

theorem nested_left {V : α → β → Prop} {x : Action α} {y : Action β} (hcut : cut)
    (hx : Sinks cut (levels + 1) flag V x y) : Sinks cut levels flag V (Action.nested x) y := by
  intro s t h
  simp only [Action.nested]
  by_cases hdeep : s.settings.maxDepth ≤ s.depth
  · rw [if_pos hdeep]
    exact .inr ⟨hcut, _, _, _, rfl⟩
  · rw [if_neg hdeep]
    obtain hsame | ⟨hcut, depth, max, u, hu⟩ := hx _ t h.enter_left
    · generalize x { s with depth := s.depth + 1 } = o at hsame ⊢
      generalize y t = o' at hsame ⊢
      cases hsame with
      | done hab h' hd => exact .inl (.done hab h'.leave_left hd)
      | halted fault h' hd => exact .inl (.halted fault h'.leave_left hd)
      | unfinished => exact .inl .unfinished
    · rw [hu]
      exact .inr ⟨hcut, depth, max, Action.leave u, rfl⟩

theorem announce_left {V : α → β → Prop} {x : Action α} {y : Action β}
    (hx : Sinks cut levels flag V x y) (kind : Stmt.Kind) (p : Position) :
    Sinks cut levels flag V (do announce kind p; x) y := by
  intro s t h
  cases htrace : s.settings.trace with
  | true =>
    have htold : announce kind p s = .done () (s.emit (.started kind p)) := by
      simp [Action.announce, bind_apply, Action.settings, htrace, Action.emit]
    rw [bind_apply, htold]
    exact hx _ t (h.emit_left (.started kind p))
  | false =>
    have hquiet : announce kind p s = .done () s := by
      simp [Action.announce, bind_apply, Action.settings, htrace, pure_apply]
    rw [bind_apply, hquiet]
    exact hx s t h

/-- As long as nobody asks to stop, what a statement does before its own work takes a level and
changes nothing. -/
theorem begin_left {V : Option Value → β → Prop} {x : Action (Option Value)} {y : Action β}
    (hcut : cut) (hx : Sinks cut (levels + 1) false V x y) (kind : Stmt.Kind) (p : Position) :
    Sinks cut levels false V (begin kind p x) y := by
  intro s t h
  have hcheck : checkInterrupt s = .done () s := if_neg (by simp [h.interrupted.1])
  rw [← Machine.begin_action, Machine.begin, bind_apply]
  simp only [Machine.perform, hcheck]
  exact nested_left hcut (hx.announce_left kind p) s t h

end Sinks

end Action

def sinking (cut : Prop) (levels : Nat) (flag : Bool) (hcut : 0 < levels → cut) :
    Simulation Action Action where
  Rel := Action.Sinks cut levels flag Eq
  pure _ := Action.Sinks.pure rfl
  bind hx hf := Action.Sinks.bind hx fun a _ hab => hab ▸ hf a
  nested := Action.Sinks.nested hcut
  quiet := Action.Sinks.quiet
  report := Action.Sinks.report

namespace Stmt

variable {cut : Prop} {levels : Nat} {flag : Bool}

theorem exec_sinks (hcut : 0 < levels → cut) (turns : Nat) (stmt : Stmt) :
    Action.Sinks cut levels flag Eq (stmt.exec turns) (stmt.exec turns) := by
  have h := (sinking cut levels flag hcut).exec turns stmt
  rw [execIn_action] at h
  exact h

theorem execAll_sinks (hcut : 0 < levels → cut) (turns : Nat) (last last' : Option Value)
    (stmts : List Stmt) :
    Action.Sinks cut levels flag (fun v w => (stmts = [] → last = last') → v = w)
      (execAll turns last stmts) (execAll turns last' stmts) := by
  cases stmts with
  | nil =>
    rw [execAll, execAll]
    exact Action.Sinks.pure fun h => h rfl
  | cons stmt rest =>
    have h := (sinking cut levels flag hcut).composition.execAll turns (stmt :: rest) last
    rw [execAllIn_action] at h
    rw [show execAll turns last' (stmt :: rest) = execAll turns last (stmt :: rest) by
      rw [execAll, execAll]]
    exact Action.Sinks.weaken h fun _ _ hvw _ => hvw

end Stmt

end TolerantScript
