import TolerantScript.Proofs.Feed
import TolerantScript.Proofs.Simulation

/-!
A strict run gives up at the first fault that a tolerant run records and goes on from. Up to that
fault the two are the same run; without one they are the same altogether.
-/

namespace TolerantScript

open Machine

variable {α β : Type}

namespace Outcome

def map (f : α → β) : Outcome α → Outcome β
  | .done a s => .done (f a) s
  | .halted fault s => .halted fault s
  | .unfinished => .unfinished

end Outcome

/-- Execution that stops at a reported fault and gives it back with its position. -/
abbrev Strict : Type → Type := ExceptT Diagnostic Action

instance : Machine Strict where
  perform x := ExceptT.lift x
  report position fault := throw ⟨position, fault⟩
  nested x := ExceptT.mk (Action.nested x.run)

structure Moment where
  diagnostic : Diagnostic
  store : Store
  deriving DecidableEq

/-- Execution that takes note of every diagnostic at the moment it is recorded. -/
def Traced (α : Type) : Type := Session → Outcome α × List Moment

instance : Machine Traced where
  pure a := fun s => (.done a s, [])
  bind x f := fun s =>
    match x s with
    | (.done a s', early) => ((f a s').1, early ++ (f a s').2)
    | (.halted fault s', early) => (.halted fault s', early)
    | (.unfinished, early) => (.unfinished, early)
  perform x := fun s => (x s, [])
  report position fault := fun s =>
    (.done () (s.record ⟨position, fault⟩), [⟨⟨position, fault⟩, s.store⟩])
  nested x := fun s =>
    (Action.nested (fun s => (x s).1) s,
      if s.settings.maxDepth ≤ s.depth then [] else (x { s with depth := s.depth + 1 }).2)

/-! Quiet actions leave the diagnostics alone. -/

theorem Action.Quiet.diagnostics {x : Action α} (h : x.Quiet) (s s' : Session)
    (hs : (x s).session? = some s') : s'.diagnostics = s.diagnostics := by
  obtain rfl | ⟨store, e, rfl⟩ := h.session_cases hs
  · rfl
  · rfl

/-! Tracing changes nothing, and misses no diagnostic. -/

namespace Traced

def Watches (x : Traced α) (y : Action α) : Prop :=
  ∀ s, (x s).1 = y s ∧ ∀ s', (y s).session? = some s' →
    s'.diagnostics.toList = s.diagnostics.toList ++ (x s).2.map (·.diagnostic)

theorem Watches.bind {x : Traced α} {y : Action α} {f : α → Traced β} {g : α → Action β}
    (hx : Watches x y) (hf : ∀ a, Watches (f a) (g a)) : Watches (x >>= f) (y >>= g) := by
  intro s
  obtain ⟨hsame, hnotes⟩ := hx s
  simp only [Action.bind_apply, ← hsame] at hnotes ⊢
  simp only [Bind.bind]
  generalize x s = run at hnotes ⊢
  obtain ⟨outcome, early⟩ := run
  cases outcome with
  | done a s₁ =>
    obtain ⟨hsame', hnotes'⟩ := hf a s₁
    refine ⟨hsame', fun s' hs => ?_⟩
    rw [hnotes' s' hs, hnotes s₁ rfl, List.map_append, List.append_assoc]
  | halted fault s₁ => exact ⟨rfl, hnotes⟩
  | unfinished => exact ⟨rfl, hnotes⟩

theorem Watches.nested {x : Traced α} {y : Action α} (h : Watches x y) :
    Watches (Machine.nested x) (Machine.nested y) := by
  intro s
  have hxy : (fun s => (x s).1) = y := funext fun s => (h s).1
  simp only [Machine.nested, hxy, true_and]
  intro s' hs
  obtain ⟨-, hnotes⟩ := h { s with depth := s.depth + 1 }
  obtain ⟨hdeep, rfl⟩ | ⟨hroom, s₁, hs₁, rfl⟩ := Action.session?_nested hs
  · simp [hdeep]
  · -- leaving a level touches the depth only
    rw [if_neg hroom]
    exact hnotes s₁ hs₁

def watching : Simulation Traced Action where
  Rel := Watches
  pure a := fun s => ⟨rfl, fun s' hs => by
    cases hs
    exact (List.append_nil _).symm⟩
  bind := Watches.bind
  nested := Watches.nested
  quiet hx := fun s => ⟨rfl, fun s' hs => by
    rw [hx.diagnostics s s' hs]
    exact (List.append_nil _).symm⟩
  report p fault := fun s => ⟨rfl, fun s' hs => by
    cases hs
    exact Session.toList_diagnostics_record s ⟨p, fault⟩⟩

end Traced

/-! The strict execution is the traced one up to its first note. -/

namespace Strict

theorem bind_run (x : Strict α) (f : α → Strict β) (s : Session) :
    (x >>= f).run s =
      match x.run s with
      | .done (.ok a) s' => (f a).run s'
      | .done (.error d) s' => .done (.error d) s'
      | .halted fault s' => .halted fault s'
      | .unfinished => .unfinished := by
  simp only [ExceptT.run_bind, Action.bind_apply]
  cases x.run s with
  | done r s' => cases r <;> rfl
  | halted fault s' => rfl
  | unfinished => rfl

/-- Where the traced execution notes nothing the strict one is the same; else it stops at the first
note, with the variables as they are then. -/
def Stops (x : Strict α) (y : Traced α) : Prop :=
  ∀ s, match (y s).2 with
    | [] => x.run s = (y s).1.map .ok
    | first :: _ => ∃ s', x.run s = .done (.error first.diagnostic) s' ∧ s'.store = first.store

theorem Stops.bind {x : Strict α} {y : Traced α} {f : α → Strict β} {g : α → Traced β}
    (hx : Stops x y) (hf : ∀ a, Stops (f a) (g a)) : Stops (x >>= f) (y >>= g) := by
  intro s
  have hstop := hx s
  rw [bind_run]
  simp only [Bind.bind]
  generalize y s = run at hstop ⊢
  obtain ⟨outcome, early⟩ := run
  cases early with
  | nil =>
    simp only at hstop
    rw [hstop]
    cases outcome with
    | done a s₁ => exact hf a s₁
    | halted fault s₁ => rfl
    | unfinished => rfl
  | cons first rest =>
    obtain ⟨s₁, hrun, hstore⟩ := hstop
    rw [hrun]
    cases outcome <;> exact ⟨s₁, rfl, hstore⟩

theorem Stops.nested {x : Strict α} {y : Traced α} (h : Stops x y) :
    Stops (Machine.nested x) (Machine.nested y) := by
  intro s
  simp only [Machine.nested, ExceptT.run_mk, Action.nested]
  by_cases hdeep : s.settings.maxDepth ≤ s.depth
  · simp only [hdeep, if_true]
    rfl
  · simp only [hdeep, if_false]
    have hstop := h { s with depth := s.depth + 1 }
    generalize y { s with depth := s.depth + 1 } = run at hstop ⊢
    obtain ⟨outcome, early⟩ := run
    cases early with
    | nil =>
      simp only at hstop ⊢
      rw [hstop]
      cases outcome <;> rfl
    | cons first rest =>
      obtain ⟨s₁, hrun, hstore⟩ := hstop
      simp only [hrun]
      exact ⟨_, rfl, hstore⟩

def stopping : Simulation Strict Traced where
  Rel := Stops
  pure _ := fun _ => rfl
  bind := Stops.bind
  nested := Stops.nested
  quiet {_ x} _ := fun s => by
    show (ExceptT.lift x).run s = (x s).map .ok
    simp only [ExceptT.run_lift, Functor.map]
    cases x s <;> rfl
  report _ _ := fun s => ⟨s, rfl, rfl⟩

end Strict

/-! Whole runs, strict and traced. -/

namespace Stmt

def feedStrict (turns : Nat) (stopAfter : Option Nat) (outputs : Array Value) :
    List Stmt → Session → Array Value × Outcome (Except Diagnostic Unit)
  | [], s => (outputs, .done (.ok ()) s)
  | stmt :: rest, s =>
    match (stmt.execIn Strict turns).run s with
    | .done (.ok value) s' =>
      let next := handOver stopAfter outputs s' (stmt.output? value)
      feedStrict turns stopAfter next.1 rest next.2
    | .done (.error d) s' => (outputs, .done (.error d) s')
    | .halted fault s' => (outputs, .halted fault s')
    | .unfinished => (outputs, .unfinished)

def feedTraced (turns : Nat) (stopAfter : Option Nat) (outputs : Array Value) :
    List Stmt → Session → Run × List Moment
  | [], s => (⟨outputs, .done () s⟩, [])
  | stmt :: rest, s =>
    match stmt.execIn Traced turns s with
    | (.done value s', early) =>
      let next := handOver stopAfter outputs s' (stmt.output? value)
      let late := feedTraced turns stopAfter next.1 rest next.2
      (late.1, early ++ late.2)
    | (.halted fault s', early) => (⟨outputs, .halted fault s'⟩, early)
    | (.unfinished, early) => (⟨outputs, .unfinished⟩, early)

end Stmt

namespace Program

def runStrict (turns : Nat) (stopAfter : Option Nat) (p : Program) (s : Session) :
    Array Value × Outcome (Except Diagnostic Unit) :=
  let run := Stmt.feedStrict turns stopAfter #[] p.stmts (s.emit (.runStarted p.stmts.length))
  match run.2 with
  | .done (.ok _) s' => (run.1, .done (.ok ()) (s'.emit (.runFinished s'.diagnostics.size)))
  | _ => run

def runTraced (turns : Nat) (stopAfter : Option Nat) (p : Program) (s : Session) :
    Run × List Moment :=
  let (run, moments) :=
    Stmt.feedTraced turns stopAfter #[] p.stmts (s.emit (.runStarted p.stmts.length))
  match run.outcome with
  | .done _ s' => (⟨run.outputs, .done () (s'.emit (.runFinished s'.diagnostics.size))⟩, moments)
  | _ => (run, moments)

end Program

namespace Stmt

theorem diagnostics_handOver (stopAfter : Option Nat) (outputs : Array Value) (s : Session)
    (value : Option Value) :
    (handOver stopAfter outputs s value).2.diagnostics = s.diagnostics := by
  obtain h | h := session_handOver stopAfter outputs s value <;> rw [h]
  rfl

theorem feedTraced_watches (turns : Nat) (stopAfter : Option Nat) (stmts : List Stmt)
    (outputs : Array Value) (s : Session) :
    (feedTraced turns stopAfter outputs stmts s).1 = feed turns stopAfter outputs stmts s ∧
      ∀ s', (feed turns stopAfter outputs stmts s).outcome.session? = some s' →
        s'.diagnostics.toList = s.diagnostics.toList ++
          (feedTraced turns stopAfter outputs stmts s).2.map (·.diagnostic) := by
  induction stmts generalizing outputs s with
  | nil =>
    refine ⟨rfl, fun s' hs => ?_⟩
    cases hs
    exact (List.append_nil _).symm
  | cons stmt rest ih =>
    obtain ⟨hsame, hnotes⟩ := Traced.watching.exec turns stmt s
    rw [execIn_action] at hsame hnotes
    rw [feed_cons, feedTraced, ← hsame]
    rw [← hsame] at hnotes
    generalize stmt.execIn Traced turns s = run at hnotes ⊢
    obtain ⟨outcome, early⟩ := run
    cases outcome with
    | done value s₁ =>
      obtain ⟨hrest, hlate⟩ := ih (handOver stopAfter outputs s₁ (stmt.output? value)).1
        (handOver stopAfter outputs s₁ (stmt.output? value)).2
      refine ⟨hrest, fun s' hs => ?_⟩
      rw [hlate s' hs, diagnostics_handOver, hnotes s₁ rfl, List.map_append, List.append_assoc]
    | halted fault s₁ => exact ⟨rfl, hnotes⟩
    | unfinished => exact ⟨rfl, hnotes⟩

theorem prefix_feedTraced (turns : Nat) (stopAfter : Option Nat) (stmts : List Stmt)
    (outputs : Array Value) (s : Session) :
    outputs.toList <+: (feedTraced turns stopAfter outputs stmts s).1.outputs.toList := by
  induction stmts generalizing outputs s with
  | nil => exact List.prefix_rfl
  | cons stmt rest ih =>
    rw [feedTraced]
    obtain ⟨outcome, early⟩ := stmt.execIn Traced turns s
    cases outcome with
    | done value s₁ =>
      exact (prefix_handOver stopAfter outputs s₁ (stmt.output? value)).trans (ih _ _)
    | halted fault s₁ => exact List.prefix_rfl
    | unfinished => exact List.prefix_rfl

theorem feedStrict_stops (turns : Nat) (stopAfter : Option Nat) (stmts : List Stmt)
    (outputs : Array Value) (s : Session) :
    match (feedTraced turns stopAfter outputs stmts s).2 with
    | [] => feedStrict turns stopAfter outputs stmts s =
        ((feedTraced turns stopAfter outputs stmts s).1.outputs,
          (feedTraced turns stopAfter outputs stmts s).1.outcome.map .ok)
    | first :: _ =>
      (feedStrict turns stopAfter outputs stmts s).1.toList <+:
          (feedTraced turns stopAfter outputs stmts s).1.outputs.toList ∧
        ∃ s', (feedStrict turns stopAfter outputs stmts s).2 = .done (.error first.diagnostic) s' ∧
          s'.store = first.store := by
  induction stmts generalizing outputs s with
  | nil => rfl
  | cons stmt rest ih =>
    have hstop := Strict.stopping.exec turns stmt s
    have houts := prefix_feedTraced turns stopAfter (stmt :: rest) outputs s
    rw [feedTraced] at houts ⊢
    rw [feedStrict]
    generalize stmt.execIn Traced turns s = run at hstop houts ⊢
    obtain ⟨outcome, early⟩ := run
    cases early with
    | nil =>
      -- the statement is executed alike, and the rest decides
      rw [show (stmt.execIn Strict turns).run s = outcome.map .ok from hstop]
      cases outcome with
      | done value s₁ => exact ih _ _
      | halted fault s₁ => rfl
      | unfinished => rfl
    | cons first later =>
      obtain ⟨s₁, hrun, hstore⟩ := hstop
      rw [hrun]
      cases outcome <;> exact ⟨houts, s₁, rfl, hstore⟩

end Stmt

namespace Program

theorem runTraced_watches (turns : Nat) (stopAfter : Option Nat) (p : Program) (s : Session) :
    (p.runTraced turns stopAfter s).1 = p.runWith turns stopAfter s ∧
      ∀ s', (p.runWith turns stopAfter s).outcome.session? = some s' →
        s'.diagnostics.toList = s.diagnostics.toList ++
          (p.runTraced turns stopAfter s).2.map (·.diagnostic) := by
  obtain ⟨hsame, hnotes⟩ := Stmt.feedTraced_watches turns stopAfter p.stmts #[]
    (s.emit (.runStarted p.stmts.length))
  simp only [runTraced, runWith]
  rw [← hsame] at hnotes ⊢
  generalize Stmt.feedTraced turns stopAfter #[] p.stmts
    (s.emit (.runStarted p.stmts.length)) = run at hnotes ⊢
  obtain ⟨⟨outputs, outcome⟩, moments⟩ := run
  cases outcome with
  | done _ s₁ =>
    refine ⟨rfl, fun s' hs => ?_⟩
    cases hs
    exact hnotes s₁ rfl
  | halted fault s₁ => exact ⟨rfl, hnotes⟩
  | unfinished => exact ⟨rfl, hnotes⟩

theorem runStrict_stops (turns : Nat) (stopAfter : Option Nat) (p : Program) (s : Session) :
    match (p.runTraced turns stopAfter s).2 with
    | [] => p.runStrict turns stopAfter s =
        ((p.runTraced turns stopAfter s).1.outputs,
          (p.runTraced turns stopAfter s).1.outcome.map .ok)
    | first :: _ =>
      (p.runStrict turns stopAfter s).1.toList <+:
          (p.runTraced turns stopAfter s).1.outputs.toList ∧
        ∃ s', (p.runStrict turns stopAfter s).2 = .done (.error first.diagnostic) s' ∧
          s'.store = first.store := by
  have hstop := Stmt.feedStrict_stops turns stopAfter p.stmts #[]
    (s.emit (.runStarted p.stmts.length))
  simp only [runTraced, runStrict]
  generalize Stmt.feedTraced turns stopAfter #[] p.stmts
    (s.emit (.runStarted p.stmts.length)) = traced at hstop ⊢
  generalize Stmt.feedStrict turns stopAfter #[] p.stmts
    (s.emit (.runStarted p.stmts.length)) = strict at hstop ⊢
  obtain ⟨⟨outputs, outcome⟩, moments⟩ := traced
  obtain ⟨before, ending⟩ := strict
  cases moments with
  | nil =>
    cases hstop
    cases outcome <;> rfl
  | cons first later =>
    obtain ⟨houts, s', hfailed, hstore⟩ := hstop
    simp only at hfailed
    subst hfailed
    cases outcome <;> exact ⟨houts, s', rfl, hstore⟩

/-- A run that ends is its own strict run if it records nothing. Else the strict run ends with the
first diagnostic that the run records, after a part of the outputs, and leaves the variables as they
are in the run at that moment. -/
theorem strict_until_first_fault (turns : Nat) (stopAfter : Option Nat) (p : Program)
    (s s' : Session) (h : (p.runWith turns stopAfter s).outcome.session? = some s') :
    ∃ moments, p.runTraced turns stopAfter s = (p.runWith turns stopAfter s, moments) ∧
      s'.diagnostics.toList = s.diagnostics.toList ++ moments.map (·.diagnostic) ∧
      match moments with
      | [] => p.runStrict turns stopAfter s =
          ((p.runWith turns stopAfter s).outputs, (p.runWith turns stopAfter s).outcome.map .ok)
      | first :: _ =>
        (p.runStrict turns stopAfter s).1.toList <+:
            (p.runWith turns stopAfter s).outputs.toList ∧
          ∃ m, (p.runStrict turns stopAfter s).2 = .done (.error first.diagnostic) m ∧
            m.store = first.store := by
  obtain ⟨hsame, hnotes⟩ := p.runTraced_watches turns stopAfter s
  have hstop := p.runStrict_stops turns stopAfter s
  rw [hsame] at hstop
  exact ⟨(p.runTraced turns stopAfter s).2, Prod.ext hsame rfl, hnotes s' h, hstop⟩

/-- Counts to three, and on the way, when it is at two, divides by zero for a variable that is not
declared. -/
def dividesOnTheWay : Program where
  stmts :=
    [.declare (some .int) [⟨"x", ⟨1, 4⟩⟩] ⟨1, 0⟩,
      .doWhile
        (.block
          [.assign ⟨"x", ⟨2, 2⟩⟩
            (.binary .add (.var "x" ⟨2, 6⟩) (.literal ⟨.int, "1"⟩ ⟨2, 10⟩) ⟨2, 8⟩),
            .branch (.binary .eq (.var "x" ⟨3, 6⟩) (.literal ⟨.int, "2"⟩ ⟨3, 11⟩) ⟨3, 8⟩)
              (.assign ⟨"y", ⟨4, 4⟩⟩
                (.binary .div (.literal ⟨.int, "1"⟩ ⟨4, 8⟩) (.literal ⟨.int, "0"⟩ ⟨4, 12⟩) ⟨4, 10⟩))
              none ⟨3, 2⟩]
          ⟨1, 10⟩)
        (.binary .lt (.var "x" ⟨5, 9⟩) (.literal ⟨.int, "3"⟩ ⟨5, 13⟩) ⟨5, 11⟩) ⟨1, 7⟩,
      .expr (.var "x" ⟨6, 0⟩)]

theorem strict_until_first_fault_dividesOnTheWay :
    ∃ s', (dividesOnTheWay.runWith 3 none {}).outcome.session? = some s' ∧
      s'.diagnostics.toList =
        [⟨⟨4, 10⟩, .divisionByZero⟩, ⟨⟨4, 4⟩, .undeclaredVariable "y"⟩] ∧
      ∃ m, (dividesOnTheWay.runStrict 3 none {}).2 =
          .done (.error ⟨⟨4, 10⟩, .divisionByZero⟩) m ∧
        m.store = ⟨[⟨"x", .int, .int 2⟩]⟩ := by
  obtain ⟨s', hs⟩ : ∃ s', (dividesOnTheWay.runWith 3 none {}).outcome.session? = some s' :=
    Option.isSome_iff_exists.mp (by decide +kernel)
  obtain ⟨moments, htraced, hdiagnostics, hstrict⟩ :=
    strict_until_first_fault 3 none dividesOnTheWay {} s' hs
  have hmoments : moments =
      [⟨⟨⟨4, 10⟩, .divisionByZero⟩, ⟨[⟨"x", .int, .int 2⟩]⟩⟩,
        ⟨⟨⟨4, 4⟩, .undeclaredVariable "y"⟩, ⟨[⟨"x", .int, .int 2⟩]⟩⟩] := by
    have hnotes : moments = (dividesOnTheWay.runTraced 3 none {}).2 := by rw [htraced]
    rw [hnotes]
    decide +kernel
  subst hmoments
  exact ⟨s', hs, hdiagnostics, hstrict.2⟩

end Program

end TolerantScript
