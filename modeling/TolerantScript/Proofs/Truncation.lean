import TolerantScript.Proofs.Simulation
import TolerantScript.Proofs.Turns

/-!
Runs that are cut short, by a request to stop or by a limit on nesting. Beside a run that is free of
it, such a run does the same up to the cut, and what it did before it stays as it is.
-/

namespace TolerantScript

variable {α β : Type}

/-- What one session has announced and recorded, the other has too, and it may have more. -/
structure Session.Precedes (s t : Session) : Prop where
  events : s.events.toList <+: t.events.toList
  diagnostics : s.diagnostics.toList <+: t.diagnostics.toList

namespace Session.Precedes

theorem refl (s : Session) : s.Precedes s := ⟨List.prefix_rfl, List.prefix_rfl⟩

theorem trans {s t u : Session} (h : s.Precedes t) (h' : t.Precedes u) : s.Precedes u :=
  ⟨h.events.trans h'.events, h.diagnostics.trans h'.diagnostics⟩

theorem emit (s : Session) (e : Event) : s.Precedes (s.emit e) where
  events := by
    rw [toList_events_emit]
    exact List.prefix_append _ _
  diagnostics := List.prefix_rfl

theorem record (s : Session) (d : Diagnostic) : s.Precedes (s.record d) where
  events := by
    rw [toList_events_record]
    exact List.prefix_append _ _
  diagnostics := by
    rw [toList_diagnostics_record]
    exact List.prefix_append _ _

end Session.Precedes

namespace Outcome

def mapSession (f : Session → Session) : Outcome α → Outcome α
  | .done a s => .done a (f s)
  | .halted fault s => .halted fault (f s)
  | .unfinished => .unfinished

theorem exists_session {o : Outcome α} (h : o ≠ .unfinished) : ∃ s, o.session? = some s := by
  cases o with
  | done a s => exact ⟨s, rfl⟩
  | halted fault s => exact ⟨s, rfl⟩
  | unfinished => exact absurd rfl h

theorem mapSession_ne_unfinished {o : Outcome α} (h : o ≠ .unfinished) (f : Session → Session) :
    o.mapSession f ≠ .unfinished := by
  cases o with
  | done a s | halted fault s => simp [mapSession]
  | unfinished => exact absurd rfl h

end Outcome

def Run.mapSession (f : Session → Session) (run : Run) : Run :=
  ⟨run.outputs, run.outcome.mapSession f⟩

/-! Nothing that was announced or recorded is taken back. -/

namespace Action

def Appends (x : Action α) : Prop := ∀ s t, (x s).session? = some t → s.Precedes t

theorem Appends.bind_session {x : Action α} {f : α → Action β} (hf : ∀ a, Appends (f a))
    {s u : Session} (h : ((x >>= f) s).session? = some u) :
    ∃ t, (x s).session? = some t ∧ t.Precedes u := by
  rw [bind_apply] at h
  cases hx : x s with
  | done a t =>
    rw [hx] at h
    exact ⟨t, rfl, hf a t u h⟩
  | halted fault t =>
    rw [hx] at h
    cases h
    exact ⟨u, rfl, .refl u⟩
  | unfinished =>
    rw [hx] at h
    cases h

theorem Appends.bind {x : Action α} {f : α → Action β} (hx : Appends x) (hf : ∀ a, Appends (f a)) :
    Appends (x >>= f) := by
  intro s u h
  obtain ⟨t, ht, htu⟩ := Appends.bind_session hf h
  exact (hx s t ht).trans htu

theorem Appends.nested {x : Action α} (hx : Appends x) : Appends (nested x) := by
  intro s t h
  obtain ⟨-, rfl⟩ | ⟨-, u, hu, rfl⟩ := session?_nested h
  · exact .refl t
  · have hin := hx _ u hu
    exact ⟨hin.events, hin.diagnostics⟩

theorem Quiet.appends {x : Action α} (h : x.Quiet) : Appends x := by
  intro s t hs
  obtain rfl | ⟨store, e, rfl⟩ := h.session_cases hs
  · exact .refl t
  · have hemit := Session.Precedes.emit { s with store } e
    exact ⟨hemit.events, hemit.diagnostics⟩

end Action

/-! What may cut a run short. -/

/-- A request to stop, or so many levels of nesting less than another run is allowed. -/
inductive Curb where
  | request
  | levels (missing : Nat)

namespace Curb

def Cuts : Curb → Fault → Prop
  | .request, fault => fault = .interrupted
  | .levels _, fault => ∃ depth max, fault = .nestingTooDeep depth max

end Curb

namespace Session

/-- The session as nobody has asked it, and nobody will ask it, to stop. -/
def unasked (s : Session) : Session := { s with interrupted := false, stopAt := none }

def deepen (levels : Nat) (s : Session) : Session :=
  { s with settings := { s.settings with maxDepth := s.settings.maxDepth + levels } }

end Session

namespace Curb

def lift : Curb → Session → Session
  | .request => Session.unasked
  | .levels missing => Session.deepen missing

/-- The output that raises the flag, if it still does without the curb. -/
def liftStop : Curb → Option Nat → Option Nat
  | .request, _ => none
  | .levels _, stopAfter => stopAfter

variable (c : Curb)

theorem lift_store (s : Session) : (c.lift s).store = s.store := by cases c <;> rfl

theorem lift_maxStringLen (s : Session) :
    (c.lift s).settings.maxStringLen = s.settings.maxStringLen := by
  cases c <;> rfl

theorem lift_trace (s : Session) : (c.lift s).settings.trace = s.settings.trace := by
  cases c <;> rfl

theorem lift_diagnostics (s : Session) : (c.lift s).diagnostics = s.diagnostics := by
  cases c <;> rfl

theorem lift_events (s : Session) : (c.lift s).events = s.events := by cases c <;> rfl

theorem lift_emit (s : Session) (e : Event) : (c.lift s).emit e = c.lift (s.emit e) := by
  cases c <;> rfl

theorem lift_setStore (s : Session) (store : Store) :
    { c.lift s with store } = c.lift { s with store } := by
  cases c <;> rfl

theorem lift_record (s : Session) (d : Diagnostic) : (c.lift s).record d = c.lift (s.record d) := by
  cases c <;> rfl

theorem lift_enter (s : Session) :
    { c.lift s with depth := (c.lift s).depth + 1 } = c.lift { s with depth := s.depth + 1 } := by
  cases c <;> rfl

theorem lift_leave (s : Session) : Action.leave (c.lift s) = c.lift (Action.leave s) := by
  cases c <;> rfl

theorem precedes_of_lift {s t : Session} (h : (c.lift s).Precedes t) : s.Precedes t := by
  obtain ⟨hevents, hdiagnostics⟩ := h
  rw [lift_events] at hevents
  rw [lift_diagnostics] at hdiagnostics
  exact ⟨hevents, hdiagnostics⟩

/-- The first outcome is the second one under the curb, or it was cut short on the way there. -/
def Shortens (o o' : Outcome α) : Prop :=
  o' = o.mapSession c.lift ∨
    ∃ fault s, o = .halted fault s ∧ c.Cuts fault ∧ ∀ t, o'.session? = some t → s.Precedes t

def Holds (x y : Action α) : Prop := y.Appends ∧ ∀ s, c.Shortens (x s) (y (c.lift s))

variable {c}

theorem Holds.bind {x y : Action α} {f g : α → Action β} (hx : c.Holds x y)
    (hf : ∀ a, c.Holds (f a) (g a)) : c.Holds (x >>= f) (y >>= g) := by
  have hg (a : α) : (g a).Appends := (hf a).1
  refine ⟨hx.1.bind hg, fun s => ?_⟩
  obtain hsame | ⟨fault, s', hcut, hfault, hbefore⟩ := hx.2 s
  · rw [Action.bind_apply, Action.bind_apply, hsame]
    cases x s with
    | done a s' => exact (hf a).2 s'
    | halted fault s' => exact .inl rfl
    | unfinished => exact .inl rfl
  · -- what the second action does after the cut only adds to what it had done
    refine .inr ⟨fault, s', by rw [Action.bind_apply, hcut], hfault, fun u hu => ?_⟩
    obtain ⟨t, ht, htu⟩ := Action.Appends.bind_session hg hu
    exact (hbefore t ht).trans htu

/-- Without a level left, both stay out, or the first one is cut short. -/
theorem Holds.deep {x y : Action α} (hy : y.Appends) {s : Session}
    (hdeep : s.settings.maxDepth ≤ s.depth) :
    c.Shortens (Action.nested x s) (Action.nested y (c.lift s)) := by
  have hhalt :
      Action.nested x s = .halted (.nestingTooDeep (s.depth + 1) s.settings.maxDepth) s := by
    rw [Action.nested, if_pos hdeep]
  rw [hhalt]
  cases c with
  | request =>
    refine .inl ?_
    rw [Action.nested]
    exact if_pos hdeep
  | levels missing =>
    refine .inr ⟨_, s, rfl, ⟨_, _, rfl⟩, fun t ht => ?_⟩
    exact (Curb.levels missing).precedes_of_lift (hy.nested _ t ht)

theorem not_deep_lift {s : Session} (h : ¬s.settings.maxDepth ≤ s.depth) :
    ¬(c.lift s).settings.maxDepth ≤ (c.lift s).depth := by
  cases c with
  | request => exact h
  | levels missing =>
    simp only [lift, Session.deepen]
    omega

theorem Holds.nested {x y : Action α} (h : c.Holds x y) :
    c.Holds (Action.nested x) (Action.nested y) := by
  refine ⟨h.1.nested, fun s => ?_⟩
  by_cases hdeep : s.settings.maxDepth ≤ s.depth
  · exact Holds.deep h.1 hdeep
  · obtain hsame | ⟨fault, s', hcut, hfault, hbefore⟩ := h.2 { s with depth := s.depth + 1 }
    · rw [Action.nested, Action.nested, if_neg hdeep, if_neg (not_deep_lift hdeep), lift_enter,
        hsame]
      refine .inl ?_
      cases x { s with depth := s.depth + 1 } with
      | done a s' => exact congrArg (Outcome.done a) (c.lift_leave s')
      | halted fault s' => exact congrArg (Outcome.halted fault) (c.lift_leave s')
      | unfinished => rfl
    · have hhalt : Action.nested x s = .halted fault (Action.leave s') := by
        rw [Action.nested, if_neg hdeep, hcut]
      refine .inr ⟨fault, Action.leave s', hhalt, hfault, fun t ht => ?_⟩
      obtain ⟨hdeep', -⟩ | ⟨-, u, hu, rfl⟩ := Action.session?_nested ht
      · exact absurd hdeep' (not_deep_lift hdeep)
      · rw [lift_enter] at hu
        have hin := hbefore u hu
        exact ⟨hin.events, hin.diagnostics⟩

theorem shortens_checkInterrupt (s : Session) :
    c.Shortens (Action.checkInterrupt s) (Action.checkInterrupt (c.lift s)) := by
  simp only [Action.checkInterrupt]
  by_cases hflag : s.interrupted = true
  · rw [if_pos hflag]
    cases c with
    | request =>
      refine .inr ⟨.interrupted, s, rfl, rfl, fun t ht => ?_⟩
      cases ht
      exact ⟨List.prefix_rfl, List.prefix_rfl⟩
    | levels missing => exact .inl (if_pos hflag)
  · rw [if_neg hflag]
    cases c with
    | request => exact .inl rfl
    | levels missing => exact .inl (if_neg hflag)

/-- Apart from the check for requests, the steps of execution do not see the curb. -/
theorem Holds.quiet {x : Action α} (h : x.Quiet) : c.Holds x x := by
  refine ⟨h.appends, fun s => ?_⟩
  cases h with
  | checkInterrupt => exact shortens_checkInterrupt s
  | halt fault => exact .inl rfl
  | giveUp => exact .inl rfl
  | lookup name =>
    refine .inl ?_
    show Outcome.done ((c.lift s).store.get name) (c.lift s) = _
    rw [lift_store]
    rfl
  | operate op l r =>
    refine .inl ?_
    show Outcome.done (op.apply (c.lift s).settings.maxStringLen l r) (c.lift s) = _
    rw [lift_maxStringLen]
    rfl
  | announce kind p =>
    refine .inl ?_
    simp only [Action.announce, Action.bind_apply, Action.settings, lift_trace]
    cases s.settings.trace with
    | true => exact congrArg (Outcome.done ()) (c.lift_emit s _)
    | false => rfl
  | declare name ty =>
    refine .inl ?_
    rw [Action.declare_apply, Action.declare_apply, lift_store]
    cases s.store.declare name ty with
    | ok extended => simp only [lift_setStore, lift_emit, Outcome.mapSession]
    | error fault => rfl
  | assign name value =>
    refine .inl ?_
    rw [Action.assign_apply, Action.assign_apply, lift_store]
    cases s.store.assign name value with
    | ok r => simp only [lift_setStore, lift_emit, Outcome.mapSession]
    | error fault => rfl
  | whileFinished count => exact .inl (congrArg (Outcome.done ()) (c.lift_emit s _))
  | doWhileFinished count => exact .inl (congrArg (Outcome.done ()) (c.lift_emit s _))

def simulation (c : Curb) : Simulation Action Action where
  Rel := c.Holds
  pure a := ⟨fun s t ht => by cases ht; exact .refl s, fun _ => .inl rfl⟩
  bind := Holds.bind
  nested := Holds.nested
  quiet := Holds.quiet
  report p fault := by
    refine ⟨fun s t ht => ?_, fun s => .inl (congrArg (Outcome.done ()) (c.lift_record s _))⟩
    cases ht
    exact .record s _

end Curb

/-! Whole runs. -/

theorem Stmt.exec_holds (c : Curb) (turns : Nat) (stmt : Stmt) :
    c.Holds (stmt.exec turns) (stmt.exec turns) := by
  have h := c.simulation.exec turns stmt
  rw [execIn_action] at h
  exact h

namespace Stmt

variable {turns : Nat} {stopAfter : Option Nat}

theorem precedes_handOver (stopAfter : Option Nat) (outputs : Array Value) (s : Session)
    (value : Option Value) : s.Precedes (handOver stopAfter outputs s value).2 := by
  obtain h | h := session_handOver stopAfter outputs s value <;> rw [h]
  · exact .refl s
  · exact ⟨List.prefix_rfl, List.prefix_rfl⟩

theorem prefix_feed (stmts : List Stmt) (outputs : Array Value) (s : Session) :
    outputs.toList <+: (feed turns stopAfter outputs stmts s).outputs.toList := by
  induction stmts generalizing outputs s with
  | nil => exact List.prefix_rfl
  | cons stmt rest ih =>
    rw [feed_cons]
    cases stmt.exec turns s with
    | done value s' =>
      exact (prefix_handOver stopAfter outputs s' (stmt.output? value)).trans (ih _ _)
    | halted fault s' => exact List.prefix_rfl
    | unfinished => exact List.prefix_rfl

theorem precedes_feed {stmts : List Stmt} {outputs : Array Value} {s t : Session}
    (h : (feed turns stopAfter outputs stmts s).outcome.session? = some t) : s.Precedes t := by
  induction stmts generalizing outputs s with
  | nil =>
    cases h
    exact .refl t
  | cons stmt rest ih =>
    have hfirst : (stmt.exec turns).Appends := (stmt.exec_holds .request turns).1
    rw [feed_cons] at h
    cases hs : stmt.exec turns s with
    | done value s' =>
      rw [hs] at h
      have hnext := precedes_handOver stopAfter outputs s' (stmt.output? value)
      exact ((hfirst s s' (by rw [hs]; rfl)).trans hnext).trans (ih h)
    | halted fault s' =>
      rw [hs] at h
      cases h
      exact hfirst s t (by rw [hs]; rfl)
    | unfinished =>
      rw [hs] at h
      cases h

end Stmt

namespace Curb

def ShortensRun (c : Curb) (run run' : Run) : Prop :=
  run' = run.mapSession c.lift ∨
    ∃ fault s, run.outcome = .halted fault s ∧ c.Cuts fault ∧
      run.outputs.toList <+: run'.outputs.toList ∧
      ∀ t, run'.outcome.session? = some t → s.Precedes t

theorem handOver_lift (c : Curb) (stopAfter : Option Nat) (outputs : Array Value) (s : Session)
    (value : Option Value) :
    Stmt.handOver (c.liftStop stopAfter) outputs (c.lift s) value =
      ((Stmt.handOver stopAfter outputs s value).1,
        c.lift (Stmt.handOver stopAfter outputs s value).2) := by
  cases value with
  | none => rfl
  | some v =>
    by_cases hlast : stopAfter = some (outputs.size + 1)
    · cases c <;> simp [Stmt.handOver, liftStop, hlast, lift, Session.unasked, Session.deepen,
        Session.interrupt]
    · cases c <;> simp [Stmt.handOver, liftStop, hlast]

theorem shortensRun_feed (c : Curb) (turns : Nat) (stopAfter : Option Nat) (stmts : List Stmt)
    (outputs : Array Value) (s : Session) :
    c.ShortensRun (Stmt.feed turns stopAfter outputs stmts s)
      (Stmt.feed turns (c.liftStop stopAfter) outputs stmts (c.lift s)) := by
  induction stmts generalizing outputs s with
  | nil => exact .inl rfl
  | cons stmt rest ih =>
    obtain hsame | ⟨fault, s', hcut, hfault, hbefore⟩ := (stmt.exec_holds c turns).2 s
    · rw [Stmt.feed_cons, Stmt.feed_cons, hsame]
      cases stmt.exec turns s with
      | done value s' =>
        simp only [Outcome.mapSession, handOver_lift]
        exact ih _ _
      | halted fault s' => exact .inl rfl
      | unfinished => exact .inl rfl
    · have hrun : Stmt.feed turns stopAfter outputs (stmt :: rest) s =
          ⟨outputs, .halted fault s'⟩ := by
        rw [Stmt.feed_cons, hcut]
      rw [hrun]
      refine .inr ⟨fault, s', rfl, hfault, Stmt.prefix_feed _ _ _, fun u hu => ?_⟩
      rw [Stmt.feed_cons] at hu
      cases hs : stmt.exec turns (c.lift s) with
      | done value t =>
        rw [hs] at hu
        have hnext := Stmt.precedes_handOver (c.liftStop stopAfter) outputs t (stmt.output? value)
        exact ((hbefore t (by rw [hs]; rfl)).trans hnext).trans (Stmt.precedes_feed hu)
      | halted fault t =>
        rw [hs] at hu
        cases hu
        exact hbefore u (by rw [hs]; rfl)
      | unfinished =>
        rw [hs] at hu
        cases hu

theorem shortensRun_runWith (c : Curb) (turns : Nat) (stopAfter : Option Nat) (p : Program)
    (s : Session) :
    c.ShortensRun (p.runWith turns stopAfter s)
      (p.runWith turns (c.liftStop stopAfter) (c.lift s)) := by
  have hfeed := c.shortensRun_feed turns stopAfter p.stmts #[]
    (s.emit (.runStarted p.stmts.length))
  simp only [Program.runWith, lift_emit]
  generalize Stmt.feed turns stopAfter #[] p.stmts (s.emit (.runStarted p.stmts.length)) = run
    at hfeed ⊢
  generalize Stmt.feed turns (c.liftStop stopAfter) #[] p.stmts
    (c.lift (s.emit (.runStarted p.stmts.length))) = run' at hfeed ⊢
  obtain ⟨outputs, outcome⟩ := run
  obtain ⟨outputs', outcome'⟩ := run'
  obtain hsame | ⟨fault, s', hcut, hfault, houtputs, hbefore⟩ := hfeed
  · cases hsame
    refine .inl ?_
    cases outcome with
    | done u s' =>
      simp only [Outcome.mapSession, lift_emit, lift_diagnostics]
      rfl
    | halted fault s' => rfl
    | unfinished => rfl
  · cases hcut
    refine .inr ⟨fault, s', rfl, hfault, ?_, ?_⟩
    · cases outcome' <;> exact houtputs
    · intro u hu
      cases outcome' with
      | done a t =>
        cases hu
        exact (hbefore t rfl).trans (.emit t _)
      | halted fault' t =>
        cases hu
        exact hbefore u rfl
      | unfinished => cases hu

end Curb

namespace Program

theorem precedes_runWith {turns : Nat} {stopAfter : Option Nat} {p : Program} {s t : Session}
    (h : (p.runWith turns stopAfter s).outcome.session? = some t) : s.Precedes t := by
  have hstart : s.Precedes (s.emit (.runStarted p.stmts.length)) := .emit s _
  simp only [runWith] at h
  cases hfeed : (Stmt.feed turns stopAfter #[] p.stmts
      (s.emit (.runStarted p.stmts.length))).outcome with
  | done a u =>
    rw [hfeed] at h
    cases h
    have hrun := Stmt.precedes_feed (by rw [hfeed]; rfl)
    exact (hstart.trans hrun).trans (.emit u _)
  | halted fault u =>
    simp only [hfeed] at h
    exact hstart.trans (Stmt.precedes_feed (by rw [hfeed]; exact h))
  | unfinished =>
    simp only [hfeed] at h
    cases h

/-- A run that ends, and not for lack of levels, ends in the same way with more of them: with the
same outputs, and with a session that differs in the limit only. One that ends for lack of levels
has handed over, announced and recorded the first part of what it would with more. -/
theorem run_with_more_levels (p : Program) (stopAfter : Option Nat) (s : Session) (levels : Nat) :
    (∀ run, p.Ends stopAfter s run →
      (∀ depth max t, run.outcome ≠ .halted (.nestingTooDeep depth max) t) →
      p.Ends stopAfter (s.deepen levels) (run.mapSession (·.deepen levels))) ∧
    (∀ run run' depth max t t', p.Ends stopAfter s run →
      run.outcome = .halted (.nestingTooDeep depth max) t →
      p.Ends stopAfter (s.deepen levels) run' → run'.outcome.session? = some t' →
      run.outputs.toList <+: run'.outputs.toList ∧ s.Precedes t ∧ t.Precedes t') := by
  constructor
  · intro run hrun hroom
    obtain ⟨hend, turns, rfl⟩ := hrun
    obtain hsame | ⟨fault, t, hcut, ⟨depth, max, rfl⟩, -⟩ :=
      (Curb.levels levels).shortensRun_runWith turns stopAfter p s
    · refine ⟨?_, turns, hsame⟩
      simp only [Run.mapSession]
      cases hout : (p.runWith turns stopAfter s).outcome with
      | unfinished => exact absurd hout hend
      | _ => simp [Outcome.mapSession]
    · exact absurd hcut (hroom depth max t)
  · intro run run' depth max t t' hrun hdeep hrun' ht'
    obtain ⟨turns, rfl, rfl⟩ := hrun.together hrun'
    have hstart : s.Precedes t := precedes_runWith (by rw [hdeep]; rfl)
    obtain hsame | ⟨fault, u, hcut, -, houtputs, hbefore⟩ :=
      (Curb.levels levels).shortensRun_runWith turns stopAfter p s
    · have hsame : p.runWith turns stopAfter (s.deepen levels) =
          (p.runWith turns stopAfter s).mapSession (·.deepen levels) := hsame
      rw [hsame, Run.mapSession, hdeep] at ht'
      cases ht'
      exact ⟨by rw [hsame]; exact List.prefix_rfl, hstart, List.prefix_rfl, List.prefix_rfl⟩
    · rw [hdeep] at hcut
      cases hcut
      exact ⟨houtputs, hstart, hbefore t' ht'⟩

/-- `int x; x; y + 1; x = 7; (((x)));`, where the last statement takes five levels and all others no
more than three. -/
def growingDeeper : Program :=
  ⟨[.declare (some .int) [⟨"x", ⟨1, 5⟩⟩] ⟨1, 1⟩,
    .expr (.var "x" ⟨2, 1⟩),
    .expr (.binary .add (.var "y" ⟨3, 1⟩) (.literal ⟨.int, "1"⟩ ⟨3, 5⟩) ⟨3, 3⟩),
    .assign ⟨"x", ⟨4, 1⟩⟩ (.literal ⟨.int, "7"⟩ ⟨4, 5⟩),
    .expr (.paren (.paren (.paren (.var "x" ⟨5, 4⟩) ⟨5, 3⟩) ⟨5, 2⟩) ⟨5, 1⟩)]⟩

def threeLevels : Session := { settings := { maxDepth := 3 } }

/-- Three levels cut the run short before its last output, five let it come to its end, and eight
make no difference any more. -/
theorem run_with_more_levels_growingDeeper :
    ∃ cut whole t t', growingDeeper.Ends none threeLevels cut ∧
      cut.outcome = .halted (.nestingTooDeep 4 3) t ∧
      growingDeeper.Ends none (threeLevels.deepen 2) whole ∧ whole.outcome.session? = some t' ∧
      cut.outputs.size = 2 ∧ whole.outputs.size = 3 ∧
      cut.outputs.toList <+: whole.outputs.toList ∧ t.Precedes t' ∧
      growingDeeper.Ends none (threeLevels.deepen 5) (whole.mapSession (·.deepen 3)) := by
  have hcut : ∃ t, (growingDeeper.runWith 1 none threeLevels).outcome =
      .halted (.nestingTooDeep 4 3) t := by
    have h : (growingDeeper.runWith 1 none threeLevels).outcome =
        .halted (.nestingTooDeep 4 3)
          ((growingDeeper.runWith 1 none threeLevels).outcome.session?.getD {}) := by
      decide +kernel
    exact ⟨_, h⟩
  have hwhole :
      ∃ t', (growingDeeper.runWith 1 none (threeLevels.deepen 2)).outcome = .done () t' := by
    have h : (growingDeeper.runWith 1 none (threeLevels.deepen 2)).outcome = .done ()
        ((growingDeeper.runWith 1 none (threeLevels.deepen 2)).outcome.session?.getD {}) := by
      decide +kernel
    exact ⟨_, h⟩
  obtain ⟨t, hcut⟩ := hcut
  obtain ⟨t', hwhole⟩ := hwhole
  have hends : growingDeeper.Ends none threeLevels (growingDeeper.runWith 1 none threeLevels) :=
    ⟨by simp [hcut], 1, rfl⟩
  have hends' : growingDeeper.Ends none (threeLevels.deepen 2)
      (growingDeeper.runWith 1 none (threeLevels.deepen 2)) :=
    ⟨by simp [hwhole], 1, rfl⟩
  have hend : (growingDeeper.runWith 1 none (threeLevels.deepen 2)).outcome.session? = some t' := by
    rw [hwhole]
    rfl
  obtain ⟨houtputs, -, hprecedes⟩ :=
    (run_with_more_levels growingDeeper none threeLevels 2).2 _ _ 4 3 t t' hends hcut hends' hend
  have hmore := (run_with_more_levels growingDeeper none (threeLevels.deepen 2) 3).1 _ hends'
    (by simp [hwhole])
  exact ⟨_, _, t, t', hends, hcut, hends', hend, by decide +kernel, by decide +kernel, houtputs,
    hprecedes, hmore⟩

end Program

end TolerantScript
