import TolerantScript.Proofs.Course
import TolerantScript.Proofs.Deeper
import TolerantScript.Proofs.Truncation

/-!
Execution without tracing. A session that traces, with the starts of statements taken out of its
events, is the session that does not trace: every step of execution goes with that, so the run that
does not trace is the run that does, step by step, less the starts.
-/

namespace TolerantScript

open Machine

variable {α β : Type}

/-- The events without the starts of statements, the first `past` of them as they are. -/
def withoutStarts (past : Nat) (events : Array Event) : Array Event :=
  (events.toList.take past ++ (events.toList.drop past).filter fun e => !e.isTrace).toArray

theorem withoutStarts_push {past : Nat} {events : Array Event} (h : past ≤ events.size)
    (e : Event) :
    withoutStarts past (events.push e) =
      if e.isTrace then withoutStarts past events else (withoutStarts past events).push e := by
  have hlength : past ≤ events.toList.length := by simpa using h
  rw [withoutStarts, Array.toList_push, List.take_append_of_le_length hlength,
    List.drop_append_of_le_length hlength, List.filter_append]
  cases he : e.isTrace <;> simp [withoutStarts, he]

theorem le_size_withoutStarts {past : Nat} {events : Array Event} (h : past ≤ events.size) :
    past ≤ (withoutStarts past events).size := by
  simp [withoutStarts]
  omega

theorem withoutStarts_size (events : Array Event) : withoutStarts events.size events = events := by
  rw [withoutStarts, ← Array.length_toList, List.take_length, List.drop_length, List.filter_nil,
    List.append_nil]

namespace Session

def withTrace (trace : Bool) (s : Session) : Session :=
  { s with settings := { s.settings with trace } }

def untraced (past : Nat) (s : Session) : Session :=
  { s.withTrace false with events := withoutStarts past s.events }

theorem untraced_withTrace (s : Session) :
    (s.withTrace true).untraced s.events.size = s.withTrace false := by
  simp only [untraced, withTrace, withoutStarts_size]

/-- The session has traced since event number `past`, and no event after it raises the flag. -/
structure Traces (past : Nat) (s : Session) : Prop where
  trace : s.settings.trace = true
  past_le : past ≤ s.events.size
  flag : s.interrupted = true ∨ ∀ n, s.stopAt = some n → n ≤ past

namespace Traces

variable {past : Nat} {s : Session}

theorem steady (h : s.Traces past) : s.Steady :=
  h.flag.imp_right fun hpast n hn => Nat.le_trans (hpast n hn) h.past_le

theorem steady_untraced (h : s.Traces past) : (s.untraced past).Steady :=
  h.flag.imp_right fun hpast n hn => Nat.le_trans (hpast n hn) (le_size_withoutStarts h.past_le)

theorem emit (h : s.Traces past) (e : Event) : (s.emit e).Traces past where
  trace := h.trace
  past_le := by
    have hsize : (s.emit e).events.size = s.events.size + 1 := Array.size_push e
    have := h.past_le
    omega
  flag := by
    rw [h.steady.interrupted_emit e]
    exact h.flag

theorem setStore (h : s.Traces past) (store : Store) : { s with store }.Traces past :=
  ⟨h.trace, h.past_le, h.flag⟩

theorem record (h : s.Traces past) (d : Diagnostic) : (s.record d).Traces past :=
  have hemit := h.emit (.recorded d)
  ⟨hemit.trace, hemit.past_le, hemit.flag⟩

theorem interrupt (h : s.Traces past) : s.interrupt.Traces past := ⟨h.trace, h.past_le, .inl rfl⟩

theorem untraced_emit (h : s.Traces past) (e : Event) :
    (s.emit e).untraced past =
      if e.isTrace then s.untraced past else (s.untraced past).emit e := by
  have hflag := h.steady.interrupted_emit e
  have hflag' := h.steady_untraced.interrupted_emit e
  have hevents := withoutStarts_push h.past_le e
  simp only [Session.emit, untraced, withTrace] at hflag hflag' ⊢
  rw [hflag, hflag', hevents]
  cases e.isTrace <;> rfl

theorem untraced_tell (h : s.Traces past) {e : Event} (he : e.isTrace = false) :
    (s.emit e).untraced past = (s.untraced past).emit e := by
  rw [h.untraced_emit, he, if_neg Bool.false_ne_true]

theorem untraced_record (h : s.Traces past) (d : Diagnostic) :
    (s.record d).untraced past = (s.untraced past).record d := by
  have hemit := h.untraced_tell (e := .recorded d) rfl
  rw [Session.record, Session.record, ← hemit]
  rfl

end Traces

end Session

/-- The second outcome is the first one untraced, which is that of a session that traces. -/
inductive Outcome.Fades (past : Nat) : Outcome α → Outcome α → Prop where
  | done (a : α) {s : Session} : s.Traces past → Fades past (.done a s) (.done a (s.untraced past))
  | halted (fault : Fault) {s : Session} :
    s.Traces past → Fades past (.halted fault s) (.halted fault (s.untraced past))
  | unfinished : Fades past .unfinished .unfinished

variable {past : Nat}

theorem Outcome.Fades.tell {s : Session} (hs : s.Traces past) (a : α) {e : Event}
    (he : e.isTrace = false) :
    Outcome.Fades past (.done a (s.emit e)) (.done a ((s.untraced past).emit e)) := by
  rw [← hs.untraced_tell he]
  exact .done a (hs.emit e)

namespace Action

def Fades (past : Nat) (x : Action α) : Prop :=
  ∀ s, s.Traces past → (x s).Fades past (x (s.untraced past))

theorem Fades.checkInterrupt : Fades past checkInterrupt := by
  intro s hs
  have hflag : (s.untraced past).interrupted = s.interrupted := rfl
  rw [Action.checkInterrupt, Action.checkInterrupt, hflag]
  split
  · exact .halted _ hs
  · exact .done () hs

theorem Fades.announce (kind : Stmt.Kind) (p : Position) : Fades past (announce kind p) := by
  intro s hs
  have htraced : Action.announce kind p s = .done () (s.emit (.started kind p)) := by
    simp only [Action.announce, bind_apply, settings, hs.trace]
    rfl
  have huntraced : Action.announce kind p (s.untraced past) = .done () (s.untraced past) := rfl
  have hhidden : (s.emit (.started kind p)).untraced past = s.untraced past :=
    hs.untraced_emit (.started kind p)
  rw [htraced, huntraced, ← hhidden]
  exact .done () (hs.emit _)

theorem Fades.declare (name : String) (ty : Ty) : Fades past (declare name ty) := by
  intro s hs
  have hstore : (s.untraced past).store = s.store := rfl
  rw [declare_apply, declare_apply, hstore]
  cases s.store.declare name ty with
  | ok extended => exact .tell (hs.setStore extended) _ rfl
  | error fault => exact .done _ hs

theorem Fades.assign (name : String) (value : Value) : Fades past (assign name value) := by
  intro s hs
  have hstore : (s.untraced past).store = s.store := rfl
  rw [assign_apply, assign_apply, hstore]
  cases s.store.assign name value with
  | ok r => exact .tell (hs.setStore r.2) _ rfl
  | error fault => exact .done _ hs

theorem Quiet.fades {x : Action α} (h : x.Quiet) : Fades past x := by
  cases h with
  | halt fault => exact fun s hs => .halted fault hs
  | giveUp => exact fun s hs => .unfinished
  | checkInterrupt => exact .checkInterrupt
  | lookup name => exact fun s hs => .done _ hs
  | operate op l r => exact fun s hs => .done _ hs
  | announce kind p => exact .announce kind p
  | declare name ty => exact .declare name ty
  | assign name value => exact .assign name value
  | whileFinished count => exact fun s hs => .tell hs () rfl
  | doWhileFinished count => exact fun s hs => .tell hs () rfl

end Action

namespace Staged

def Fades (past : Nat) (x : Staged α) : Prop :=
  ∀ s, s.Traces past → (x s).1.Fades past (x (s.untraced past)).1 ∧
    (x (s.untraced past)).2 = (x s).2.map (Session.untraced past)

theorem Fades.bind {x : Staged α} {f : α → Staged β} (hx : Fades past x)
    (hf : ∀ a, Fades past (f a)) : Fades past (x >>= f) := by
  intro s hs
  obtain ⟨hfirst, hearly⟩ := hx s hs
  simp only [Bind.bind]
  generalize x s = run at hfirst hearly ⊢
  generalize x (s.untraced past) = run' at hfirst hearly ⊢
  obtain ⟨outcome, early⟩ := run
  obtain ⟨outcome', early'⟩ := run'
  simp only at hfirst hearly
  subst hearly
  cases hfirst with
  | done a ht =>
    obtain ⟨hnext, hlate⟩ := hf a _ ht
    refine ⟨hnext, ?_⟩
    simp only [hlate, List.map_append]
  | halted fault ht => exact ⟨.halted fault ht, rfl⟩
  | unfinished => exact ⟨.unfinished, rfl⟩

theorem Fades.nested {x : Staged α} (h : Fades past x) : Fades past (nested x) := by
  intro s hs
  have hinner : { s with depth := s.depth + 1 }.Traces past := ⟨hs.trace, hs.past_le, hs.flag⟩
  obtain ⟨hin, hstages⟩ := h _ hinner
  by_cases hdeep : s.settings.maxDepth ≤ s.depth
  · have hdeep' : (s.untraced past).settings.maxDepth ≤ (s.untraced past).depth := hdeep
    simp only [Machine.nested, Action.nested, if_pos hdeep, if_pos hdeep']
    exact ⟨.halted _ hs, rfl⟩
  · have hroom' : ¬(s.untraced past).settings.maxDepth ≤ (s.untraced past).depth := hdeep
    have henter : { s.untraced past with depth := (s.untraced past).depth + 1 } =
        { s with depth := s.depth + 1 }.untraced past := rfl
    have hleave {t : Session} (ht : t.Traces past) : (Action.leave t).Traces past :=
      ⟨ht.trace, ht.past_le, ht.flag⟩
    simp only [Machine.nested, Action.nested, if_neg hdeep, if_neg hroom', henter, hstages]
    generalize (x { s with depth := s.depth + 1 }).1 = o at hin ⊢
    generalize (x ({ s with depth := s.depth + 1 }.untraced past)).1 = o' at hin ⊢
    cases hin with
    | done a ht =>
      refine ⟨.done a (hleave ht), ?_⟩
      simp only [Outcome.session?, Option.toList_some, List.map_cons, List.map_append, List.map_nil]
      rfl
    | halted fault ht =>
      refine ⟨.halted fault (hleave ht), ?_⟩
      simp only [Outcome.session?, Option.toList_some, List.map_cons, List.map_append, List.map_nil]
      rfl
    | unfinished =>
      refine ⟨.unfinished, ?_⟩
      simp only [Outcome.session?, Option.toList_none, List.map_cons, List.map_append, List.map_nil]

theorem Fades.perform {x : Action α} (h : x.Fades past) : Fades past (perform x) := by
  intro s hs
  have hx := h s hs
  refine ⟨hx, ?_⟩
  simp only [Machine.perform]
  generalize x s = o at hx ⊢
  generalize x (s.untraced past) = o' at hx ⊢
  cases hx <;> rfl

theorem Fades.report (p : Position) (fault : Fault) : Fades past (report p fault) := by
  intro s hs
  have hrecord := hs.untraced_record ⟨p, fault⟩
  simp only [Machine.report, ← hrecord]
  exact ⟨.done () (hs.record _), rfl⟩

def fading (past : Nat) : Simulation Staged Staged where
  Rel x _ := Fades past x
  pure a := fun _ hs => ⟨.done a hs, rfl⟩
  bind := Fades.bind
  nested := Fades.nested
  quiet h := Fades.perform h.fades
  report p fault := Fades.report p fault

theorem fades_exec (turns : Nat) (stmt : Stmt) : Fades past (stmt.execIn Staged turns) :=
  (fading past).exec turns stmt

end Staged

/-! Runs. -/

namespace Stmt

theorem handOver_untraced (stopAfter : Option Nat) (outputs : Array Value) (s : Session)
    (value : Option Value) :
    handOver stopAfter outputs (s.untraced past) value =
      ((handOver stopAfter outputs s value).1,
        (handOver stopAfter outputs s value).2.untraced past) := by
  cases value with
  | none => rfl
  | some v =>
    simp only [handOver]
    split <;> rfl

theorem traces_handOver {s : Session} (h : s.Traces past) (stopAfter : Option Nat)
    (outputs : Array Value) (value : Option Value) :
    (handOver stopAfter outputs s value).2.Traces past := by
  obtain hsame | hflag := session_handOver stopAfter outputs s value
  · rw [hsame]
    exact h
  · rw [hflag]
    exact h.interrupt

theorem feed_untraced (turns : Nat) (stopAfter : Option Nat) (stmts : List Stmt)
    (outputs : Array Value) {s : Session} (hs : s.Traces past) :
    (feed turns stopAfter outputs stmts (s.untraced past)).outputs =
        (feed turns stopAfter outputs stmts s).outputs ∧
      (feed turns stopAfter outputs stmts s).outcome.Fades past
        (feed turns stopAfter outputs stmts (s.untraced past)).outcome ∧
      stages turns stopAfter outputs stmts (s.untraced past) =
        (stages turns stopAfter outputs stmts s).map (Session.untraced past) := by
  induction stmts generalizing outputs s with
  | nil => exact ⟨rfl, .done () hs, rfl⟩
  | cons stmt rest ih =>
    obtain ⟨hfirst, hearly⟩ := Staged.fades_exec turns stmt s hs
    rw [feed_cons, feed_cons, stages, stages, ← (Staged.exec_follows turns stmt s).1,
      ← (Staged.exec_follows turns stmt (s.untraced past)).1]
    generalize stmt.execIn Staged turns s = run at hfirst hearly ⊢
    generalize stmt.execIn Staged turns (s.untraced past) = run' at hfirst hearly ⊢
    obtain ⟨outcome, early⟩ := run
    obtain ⟨outcome', early'⟩ := run'
    simp only at hfirst hearly
    subst hearly
    cases hfirst with
    | @done value t ht =>
      have hnext := traces_handOver ht stopAfter outputs (stmt.output? value)
      obtain ⟨houtputs, houtcome, hlate⟩ :=
        ih (handOver stopAfter outputs t (stmt.output? value)).1 hnext
      simp only [handOver_untraced]
      refine ⟨houtputs, houtcome, ?_⟩
      rw [hlate, List.map_append, List.map_cons]
    | halted fault ht => exact ⟨rfl, .halted fault ht, rfl⟩
    | unfinished => exact ⟨rfl, .unfinished, rfl⟩

end Stmt

namespace Program

/-- The run that does not trace is the run that does, untraced, at its end and all the way. -/
theorem runWith_untraced (turns : Nat) (stopAfter : Option Nat) (p : Program) {s : Session}
    (hs : s.Traces past) :
    p.runWith turns stopAfter (s.untraced past) =
        (p.runWith turns stopAfter s).mapSession (Session.untraced past) ∧
      p.stages turns stopAfter (s.untraced past) =
        (p.stages turns stopAfter s).map (Session.untraced past) := by
  have hstart := hs.untraced_tell (e := .runStarted p.stmts.length) rfl
  obtain ⟨houtputs, houtcome, hstages⟩ := Stmt.feed_untraced turns stopAfter p.stmts #[]
    (hs.emit (.runStarted p.stmts.length))
  rw [hstart] at houtputs houtcome hstages
  simp only [stages, runWith, hstages]
  generalize Stmt.feed turns stopAfter #[] p.stmts (s.emit (.runStarted p.stmts.length)) = run
    at houtputs houtcome ⊢
  generalize Stmt.feed turns stopAfter #[] p.stmts
    ((s.untraced past).emit (.runStarted p.stmts.length)) = run' at houtputs houtcome ⊢
  obtain ⟨outputs, outcome⟩ := run
  obtain ⟨outputs', outcome'⟩ := run'
  simp only at houtputs houtcome
  subst houtputs
  cases houtcome with
  | @done _ t ht =>
    have hfinish := ht.untraced_tell (e := .runFinished t.diagnostics.size) rfl
    simp only [Run.mapSession, Outcome.mapSession, List.map_cons, List.map_append, List.map_nil,
      hstart, hfinish]
    exact ⟨rfl, rfl⟩
  | halted fault ht => exact ⟨rfl, by simp only [List.append_nil, List.map_cons, hstart]⟩
  | unfinished => exact ⟨rfl, by simp only [List.append_nil, List.map_cons, hstart]⟩

theorem run_untraced (turns : Nat) (p : Program) {s : Session} (hs : s.Traces past) :
    p.run turns (s.untraced past) = (p.run turns s).mapSession (Session.untraced past) := by
  simp only [run, (runWith_untraced turns none p hs).1, Run.mapSession]
  cases (p.runWith turns none s).outcome <;> rfl

end Program

end TolerantScript
