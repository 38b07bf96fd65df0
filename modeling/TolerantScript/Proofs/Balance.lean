import TolerantScript.Proofs.Call
import TolerantScript.Proofs.Course
import TolerantScript.Proofs.StaticFault

/-!
The count of levels is balanced. However a call ends, it has left just the levels that it entered,
and on the way the count was never below where it started, nor above what the settings allow. So no
call takes levels away from those after it.
-/

namespace TolerantScript

open Machine

variable {α β : Type}

/-- Execution that comes to nothing where a level is left and none has been entered. -/
def Checked (α : Type) : Type := Session → Option (Outcome α)

namespace Checked

def leave? (s : Session) : Option Session := if s.depth = 0 then none else some (Action.leave s)

instance : Machine Checked where
  pure a := fun s => some (.done a s)
  bind x f := fun s =>
    match x s with
    | some (.done a t) => f a t
    | some (.halted fault t) => some (.halted fault t)
    | some .unfinished => some .unfinished
    | none => none
  perform x := fun s => some (x s)
  report p fault := fun s => some (.done () (s.record ⟨p, fault⟩))
  nested x := fun s =>
    if s.settings.maxDepth ≤ s.depth then
      some (.halted (.nestingTooDeep (s.depth + 1) s.settings.maxDepth) s)
    else
      match x { s with depth := s.depth + 1 } with
      | some (.done a t) => (leave? t).map (.done a)
      | some (.halted fault t) => (leave? t).map (.halted fault)
      | some .unfinished => some .unfinished
      | none => none

theorem leave?_of_depth {s : Session} {d : Nat} (h : s.depth = d + 1) :
    leave? s = some (Action.leave s) := by
  rw [leave?, if_neg (by omega)]

end Checked

structure Session.Level (s t : Session) : Prop where
  settings : t.settings = s.settings
  depth : t.depth = s.depth

structure Session.Within (start s : Session) : Prop where
  settings : s.settings = start.settings
  above : start.depth ≤ s.depth
  below : s.depth ≤ max start.depth start.settings.maxDepth

namespace Session

variable {s t u : Session}

theorem Level.refl (s : Session) : s.Level s := ⟨rfl, rfl⟩

theorem Level.trans (h : s.Level t) (h' : t.Level u) : s.Level u :=
  ⟨h'.settings.trans h.settings, h'.depth.trans h.depth⟩

theorem Level.within (h : s.Level t) : s.Within t :=
  ⟨h.settings, Nat.le_of_eq h.depth.symm, h.depth ▸ Nat.le_max_left _ _⟩

theorem Level.trans_within (h : s.Level t) (h' : t.Within u) : s.Within u := by
  obtain ⟨hsettings, habove, hbelow⟩ := h'
  rw [h.settings, h.depth] at hbelow
  exact ⟨hsettings.trans h.settings, h.depth ▸ habove, hbelow⟩

theorem Within.of_enter (hroom : ¬s.settings.maxDepth ≤ s.depth)
    (h : { s with depth := s.depth + 1 }.Within t) : s.Within t := by
  obtain ⟨hsettings, habove, hbelow⟩ := h
  simp only at hsettings habove hbelow
  exact ⟨hsettings, by omega, by omega⟩

end Session

/-! One execution that checks and one that lists its stages. -/

/-- Both come to the same, at the level they started from, and stay within bounds on the way. -/
def Balanced (x : Checked α) (y : Staged α) : Prop :=
  ∀ s, x s = some (y s).1 ∧ (∀ t, (y s).1.session? = some t → s.Level t) ∧ ∀ t ∈ (y s).2, s.Within t

namespace Balanced

theorem pure (a : α) : Balanced (pure a) (pure a) := by
  intro s
  refine ⟨rfl, fun t ht => ?_, fun t ht => by cases ht⟩
  cases ht
  exact .refl s

theorem bind {x : Checked α} {y : Staged α} {f : α → Checked β} {g : α → Staged β}
    (hx : Balanced x y) (hf : ∀ a, Balanced (f a) (g a)) : Balanced (x >>= f) (y >>= g) := by
  intro s
  obtain ⟨hsame, hend, hstages⟩ := hx s
  simp only [Bind.bind, hsame]
  generalize y s = run at hend hstages ⊢
  obtain ⟨outcome, early⟩ := run
  cases outcome with
  | done a u =>
    have hlevel : s.Level u := hend u rfl
    obtain ⟨hsame', hend', hstages'⟩ := hf a u
    refine ⟨hsame', fun t ht => hlevel.trans (hend' t ht), fun t ht => ?_⟩
    obtain ht | ht := List.mem_append.mp ht
    · exact hstages t ht
    · exact hlevel.trans_within (hstages' t ht)
  | halted fault u => exact ⟨rfl, hend, hstages⟩
  | unfinished => exact ⟨rfl, hend, hstages⟩

theorem nested {x : Checked α} {y : Staged α} (hx : Balanced x y) :
    Balanced (nested x) (nested y) := by
  intro s
  simp only [Machine.nested, Action.nested]
  by_cases hdeep : s.settings.maxDepth ≤ s.depth
  · simp only [if_pos hdeep]
    refine ⟨trivial, fun t ht => ?_, fun t ht => by cases ht⟩
    cases ht
    exact .refl s
  · simp only [if_neg hdeep]
    obtain ⟨hsame, hend, hstages⟩ := hx { s with depth := s.depth + 1 }
    rw [hsame]
    generalize y { s with depth := s.depth + 1 } = run at hend hstages ⊢
    obtain ⟨outcome, stages⟩ := run
    -- What was executed inside ended where it started, so there is a level to be left.
    have hleave (u : Session) (hu : outcome.session? = some u) :
        Checked.leave? u = some (Action.leave u) ∧ s.Level (Action.leave u) := by
      obtain ⟨hsettings, hdepth⟩ := hend u hu
      refine ⟨Checked.leave?_of_depth hdepth, hsettings, ?_⟩
      rw [Action.leave, hdepth]
      rfl
    have hall : ∀ t ∈ { s with depth := s.depth + 1 } ::
        (stages ++ outcome.session?.toList.map Action.leave), s.Within t := by
      intro t ht
      rw [List.mem_cons, List.mem_append, List.mem_map] at ht
      obtain rfl | ht | ⟨u, hu, rfl⟩ := ht
      · exact .of_enter hdeep (Session.Level.refl _).within
      · exact .of_enter hdeep (hstages t ht)
      · exact (hleave u (Option.mem_toList.mp hu)).2.within
    cases outcome with
    | done a u =>
      obtain ⟨hleft, hback⟩ := hleave u rfl
      refine ⟨by simp only [hleft, Option.map_some], fun t ht => ?_, hall⟩
      cases ht
      exact hback
    | halted fault u =>
      obtain ⟨hleft, hback⟩ := hleave u rfl
      refine ⟨by simp only [hleft, Option.map_some], fun t ht => ?_, hall⟩
      cases ht
      exact hback
    | unfinished =>
      refine ⟨rfl, fun t ht => ?_, hall⟩
      cases ht

theorem quiet {x : Action α} (h : x.Quiet) : Balanced (perform x) (perform x) := by
  intro s
  have hend (t : Session) (ht : (x s).session? = some t) : s.Level t := by
    obtain rfl | ⟨store, e, rfl⟩ := h.session_cases ht
    · exact ⟨rfl, rfl⟩
    · exact ⟨rfl, rfl⟩
  exact ⟨rfl, hend, fun t ht => (hend t (Option.mem_toList.mp ht)).within⟩

theorem report (p : Position) (fault : Fault) : Balanced (report p fault) (report p fault) := by
  intro s
  have hlevel : s.Level (s.record ⟨p, fault⟩) := ⟨rfl, rfl⟩
  refine ⟨rfl, fun t ht => ?_, fun t ht => ?_⟩
  · cases ht
    exact hlevel
  · rw [List.mem_singleton.mp ht]
    exact hlevel.within

end Balanced

def balancing : Simulation Checked Staged where
  Rel := Balanced
  pure := Balanced.pure
  bind := Balanced.bind
  nested := Balanced.nested
  quiet := Balanced.quiet
  report := Balanced.report

/-! What is said of a call. -/

/-- How the count of levels goes in a call that starts with `s` and comes to `outcome`; with the
outcome it comes to where no level may be left that was not entered, and the sessions on the way. -/
structure Balances (s : Session) (outcome : Outcome α) (checked : Option (Outcome α))
    (stages : List Session) : Prop where
  unsaturated : checked = some outcome
  settled (t : Session) : outcome.session? = some t → s.Level t
  course : ∃ last, Passes s stages last ∧ ∀ t, outcome.session? = some t → t = last
  during : ∀ t ∈ stages, s.Within t

theorem Balanced.balances {x : Checked α} {y : Staged α} {z : Action α} (h : Balanced x y)
    (hfollows : y.Follows z) (s : Session) : Balances s (z s) (x s) (y s).2 := by
  obtain ⟨hchecked, hend, hstages⟩ := h s
  obtain ⟨hsame, hcourse⟩ := hfollows s
  rw [hsame] at hchecked hend
  exact ⟨hchecked, hend, hcourse, hstages⟩

theorem Expr.balances_eval (e : Expr) (s : Session) :
    Balances s (e.eval s) (e.evalIn Checked s) (e.evalIn Staged s).2 := by
  have hfollows := Staged.following.evaluation.eval e
  rw [evalIn_action] at hfollows
  exact Balanced.balances (balancing.evaluation.eval e) hfollows s

namespace Stmt

theorem balances_exec (turns : Nat) (stmt : Stmt) (s : Session) :
    Balances s (stmt.exec turns s) (stmt.execIn Checked turns s) (stmt.execIn Staged turns s).2 :=
  Balanced.balances (balancing.exec turns stmt) (Staged.exec_follows turns stmt) s

theorem balances_execAll (turns : Nat) (last : Option Value) (stmts : List Stmt) (s : Session) :
    Balances s (execAll turns last stmts s) (execAllIn Checked turns last stmts s)
      (execAllIn Staged turns last stmts s).2 := by
  have hfollows := Staged.following.composition.execAll turns stmts last
  rw [execAllIn_action] at hfollows
  exact Balanced.balances (balancing.composition.execAll turns stmts last) hfollows s

def feedChecked (turns : Nat) (stopAfter : Option Nat) (outputs : Array Value) :
    List Stmt → Session → Option Run
  | [], s => some ⟨outputs, .done () s⟩
  | stmt :: rest, s =>
    match stmt.execIn Checked turns s with
    | some (.done value t) =>
      let next := handOver stopAfter outputs t (stmt.output? value)
      feedChecked turns stopAfter next.1 rest next.2
    | some (.halted fault t) => some ⟨outputs, .halted fault t⟩
    | some .unfinished => some ⟨outputs, .unfinished⟩
    | none => none

theorem feedChecked_eq (turns : Nat) (stopAfter : Option Nat) (outputs : Array Value)
    (stmts : List Stmt) (s : Session) :
    feedChecked turns stopAfter outputs stmts s = some (feed turns stopAfter outputs stmts s) := by
  induction stmts generalizing outputs s with
  | nil => rfl
  | cons stmt rest ih =>
    rw [feedChecked, feed_cons, (balances_exec turns stmt s).unsaturated]
    cases stmt.exec turns s with
    | done value t => exact ih _ _
    | halted fault t => rfl
    | unfinished => rfl

theorem level_handOver (stopAfter : Option Nat) (outputs : Array Value) (s : Session)
    (value : Option Value) : s.Level (handOver stopAfter outputs s value).2 := by
  obtain h | h := session_handOver stopAfter outputs s value <;> rw [h]
  · exact .refl s
  · exact ⟨rfl, rfl⟩

theorem level_feed (turns : Nat) (stopAfter : Option Nat) (outputs : Array Value)
    (stmts : List Stmt) (s : Session) :
    (∀ t, (feed turns stopAfter outputs stmts s).outcome.session? = some t → s.Level t) ∧
      ∀ t ∈ stages turns stopAfter outputs stmts s, s.Within t := by
  induction stmts generalizing outputs s with
  | nil =>
    refine ⟨fun t ht => ?_, fun t ht => by cases ht⟩
    cases ht
    exact .refl s
  | cons stmt rest ih =>
    have hfirst := balances_exec turns stmt s
    rw [feed_cons, stages]
    rw [← (Staged.exec_follows turns stmt s).1] at hfirst ⊢
    generalize stmt.execIn Staged turns s = run at hfirst ⊢
    obtain ⟨outcome, early⟩ := run
    cases outcome with
    | done value u =>
      have hlevel := (hfirst.settled u rfl).trans
        (level_handOver stopAfter outputs u (stmt.output? value))
      obtain ⟨hend, hlate⟩ := ih (handOver stopAfter outputs u (stmt.output? value)).1
        (handOver stopAfter outputs u (stmt.output? value)).2
      refine ⟨fun t ht => hlevel.trans (hend t ht), fun t ht => ?_⟩
      rw [List.mem_append, List.mem_cons] at ht
      obtain ht | rfl | ht := ht
      · exact hfirst.during t ht
      · exact hlevel.within
      · exact hlevel.trans_within (hlate t ht)
    | halted fault u => exact ⟨hfirst.settled, hfirst.during⟩
    | unfinished => exact ⟨hfirst.settled, hfirst.during⟩

end Stmt

namespace Program

def runChecked (turns : Nat) (stopAfter : Option Nat) (p : Program) (s : Session) : Option Run := do
  let run ← Stmt.feedChecked turns stopAfter #[] p.stmts (s.emit (.runStarted p.stmts.length))
  match run.outcome with
  | .done _ t => some { run with outcome := .done () (t.emit (.runFinished t.diagnostics.size)) }
  | _ => some run

theorem runChecked_eq (turns : Nat) (stopAfter : Option Nat) (p : Program) (s : Session) :
    p.runChecked turns stopAfter s = some (p.runWith turns stopAfter s) := by
  simp only [runChecked, runWith, Stmt.feedChecked_eq, Option.bind_eq_bind, Option.bind_some]
  generalize Stmt.feed turns stopAfter #[] p.stmts (s.emit (.runStarted p.stmts.length)) = run
  obtain ⟨outputs, outcome⟩ := run
  cases outcome <;> rfl

theorem level_runWith {turns : Nat} {stopAfter : Option Nat} {p : Program} {s t : Session}
    (h : (p.runWith turns stopAfter s).outcome.session? = some t) : s.Level t := by
  have hstart : s.Level (s.emit (.runStarted p.stmts.length)) := ⟨rfl, rfl⟩
  have hfeed := (Stmt.level_feed turns stopAfter #[] p.stmts
    (s.emit (.runStarted p.stmts.length))).1
  simp only [runWith] at h
  generalize Stmt.feed turns stopAfter #[] p.stmts (s.emit (.runStarted p.stmts.length)) = run
    at hfeed h
  obtain ⟨outputs, outcome⟩ := run
  cases outcome with
  | done u v =>
    cases h
    exact hstart.trans ((hfeed v rfl).trans ⟨rfl, rfl⟩)
  | halted fault v => exact hstart.trans (hfeed t h)
  | unfinished => cases h

theorem balances_runWith (turns : Nat) (stopAfter : Option Nat) (p : Program) (s : Session) :
    Balances s (p.runWith turns stopAfter s).outcome
      ((p.runChecked turns stopAfter s).map (·.outcome)) (p.stages turns stopAfter s) where
  unsaturated := by rw [runChecked_eq, Option.map_some]
  settled _ := level_runWith
  course := passes_stages turns stopAfter p s
  during := by
    have hstart : s.Level (s.emit (.runStarted p.stmts.length)) := ⟨rfl, rfl⟩
    intro t ht
    simp only [stages, List.mem_cons, List.mem_append] at ht
    obtain rfl | ht | ht := ht
    · exact hstart.within
    · exact hstart.trans_within ((Stmt.level_feed turns stopAfter #[] p.stmts _).2 t ht)
    · split at ht
      case h_1 outputs u v hrun =>
        rw [List.mem_singleton.mp ht]
        exact (level_runWith (by rw [hrun]; rfl)).within
      case h_2 => cases ht

end Program

/-! Calls one after the other. -/

theorem Call.level_of_leads {c : Call} {s t : Session} (h : c.Leads s t) : s.Level t := by
  obtain ⟨turns, h⟩ := h
  have hstart (stopAt : Option Nat) : s.Level { s with stopAt } := ⟨rfl, rfl⟩
  cases c with
  | run p stopAt =>
    have h : (p.run turns { s with stopAt }).session? = some t := h
    rw [Program.session?_run] at h
    exact (hstart stopAt).trans (Program.level_runWith h)
  | runWith p stopAfter stopAt => exact (hstart stopAt).trans (Program.level_runWith h)
  | eval e stopAt => exact (hstart stopAt).trans ((e.balances_eval _).settled t h)
  | exec stmt stopAt => exact (hstart stopAt).trans ((stmt.balances_exec turns _).settled t h)
  | execAll stmts stopAt =>
    exact (hstart stopAt).trans ((Stmt.balances_execAll turns none stmts _).settled t h)
  | takeDiagnostics | interrupt | resetInterrupt =>
    cases h
    exact ⟨rfl, rfl⟩

theorem Session.level_of_serves {s t : Session} {calls : List Call} (h : s.Serves calls t) :
    s.Level t := by
  induction h with
  | nil s => exact .refl s
  | cons hfirst _ ih => exact (Call.level_of_leads hfirst).trans ih

/-- Evaluations, executions of statements and of lists of them, and runs, from any session and
whatever they end with, are balanced. After any calls, however they ended, a new session is at the
outermost level, and all levels of its settings are left. -/
theorem depth_is_balanced :
    (∀ (e : Expr) (s : Session),
      Balances s (e.eval s) (e.evalIn Checked s) (e.evalIn Staged s).2) ∧
    (∀ (turns : Nat) (stmt : Stmt) (s : Session),
      Balances s (stmt.exec turns s) (stmt.execIn Checked turns s)
        (stmt.execIn Staged turns s).2) ∧
    (∀ (turns : Nat) (last : Option Value) (stmts : List Stmt) (s : Session),
      Balances s (Stmt.execAll turns last stmts s) (Stmt.execAllIn Checked turns last stmts s)
        (Stmt.execAllIn Staged turns last stmts s).2) ∧
    (∀ (turns : Nat) (stopAfter : Option Nat) (p : Program) (s : Session),
      Balances s (p.runWith turns stopAfter s).outcome
        ((p.runChecked turns stopAfter s).map (·.outcome)) (p.stages turns stopAfter s)) ∧
    ∀ (settings : Settings) (stopAt : Option Nat) (calls : List Call) (t : Session),
      Session.Serves { settings, stopAt } calls t →
        t.depth = 0 ∧ t.levelsLeft = settings.maxDepth := by
  refine ⟨Expr.balances_eval, Stmt.balances_exec, Stmt.balances_execAll, Program.balances_runWith,
    ?_⟩
  intro settings stopAt calls t h
  obtain ⟨hsettings, hdepth⟩ := Session.level_of_serves h
  refine ⟨hdepth, ?_⟩
  rw [Session.levelsLeft, hsettings, hdepth]
  rfl

def bracketed : Nat → Expr
  | 0 => .literal ⟨.int, "1"⟩ ⟨1, 1⟩
  | n + 1 => .paren (bracketed n) ⟨1, 1⟩

/-- An evaluation and a statement that are nested too deep for three levels, a run that meets a
declaration without a type, and one that is asked to stop after its first output. -/
def failingCalls : List Call :=
  [.eval (bracketed 3), .exec (.block [.expr (bracketed 1)] ⟨1, 1⟩),
    .run ⟨[.block [.declare none [] ⟨2, 1⟩] ⟨1, 1⟩]⟩,
    .runWith ⟨[.expr (bracketed 0), .expr (bracketed 0)]⟩ (some 1), .resetInterrupt]

theorem depth_is_balanced_failingCalls :
    (bracketed 3).eval { settings := { maxDepth := 3 } } =
        .halted (.nestingTooDeep 4 3) { settings := { maxDepth := 3 } } ∧
    ∃ t, Session.Serves { settings := { maxDepth := 3 } } failingCalls t ∧
      t.depth = 0 ∧ t.levelsLeft = 3 ∧ (bracketed 2).eval t = .done (.int 1) t := by
  refine ⟨by decide +kernel, ?_⟩
  have hserve : (Session.serve 1 { settings := { maxDepth := 3 } } failingCalls).map
      (fun t => decide ((bracketed 2).eval t = .done (.int 1) t)) = some true := by
    decide +kernel
  obtain ⟨t, ht, hlast⟩ := Option.map_eq_some_iff.mp hserve
  obtain ⟨-, -, -, -, hcalls⟩ := depth_is_balanced
  have hserves := Session.serves_of_serve ht
  obtain ⟨hdepth, hlevels⟩ := hcalls { maxDepth := 3 } none failingCalls t hserves
  exact ⟨t, hserves, hdepth, hlevels, of_decide_eq_true hlast⟩

end TolerantScript
