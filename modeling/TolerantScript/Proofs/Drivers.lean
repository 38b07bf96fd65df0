import TolerantScript.Proofs.Deeper
import TolerantScript.Proofs.Feed

/-!
The ways to have a list of statements executed: as a program that hands its outputs over or collects
them, as two programs one after the other, each statement by itself, or as a block. They come to the
same variables, diagnostics and fatal fault, and what is handed over are the values of the
statements that are expressions.
-/

namespace TolerantScript

namespace Stmt

/-- Each statement by a call of its own, up to the first that fails: the statements before it with
what they gave, and how the last call ended. -/
def execEach (turns : Nat) : List Stmt → Session → List (Stmt × Option Value) × Outcome Unit
  | [], s => ([], .done () s)
  | stmt :: rest, s =>
    match stmt.exec turns s with
    | .done value t => ((stmt, value) :: (execEach turns rest t).1, (execEach turns rest t).2)
    | .halted fault t => ([], .halted fault t)
    | .unfinished => ([], .unfinished)

theorem execEach_append (turns : Nat) (stmts more : List Stmt) (s : Session) :
    execEach turns (stmts ++ more) s =
      match (execEach turns stmts s).2 with
      | .done _ t =>
        ((execEach turns stmts s).1 ++ (execEach turns more t).1, (execEach turns more t).2)
      | _ => execEach turns stmts s := by
  induction stmts generalizing s with
  | nil => rfl
  | cons stmt rest ih =>
    rw [List.cons_append, execEach, execEach]
    cases stmt.exec turns s with
    | done value t =>
      simp only [ih t]
      generalize execEach turns rest t = each
      obtain ⟨given, last⟩ := each
      cases last <;> rfl
    | halted fault t => rfl
    | unfinished => rfl

theorem ending_execAll (turns : Nat) (last : Option Value) (stmts : List Stmt) (s : Session) :
    (execAll turns last stmts s).ending = (execEach turns stmts s).2.ending := by
  induction stmts generalizing last s with
  | nil =>
    rw [execAll, execEach]
    rfl
  | cons stmt rest ih =>
    rw [execAll, execEach, Action.bind_apply]
    cases stmt.exec turns s with
    | done value t => exact ih value t
    | halted fault t => rfl
    | unfinished => rfl

def handed (given : List (Stmt × Option Value)) : List Value :=
  given.filterMap fun g => g.1.output? g.2

theorem output?_eq (stmt : Stmt) (value : Option Value) :
    stmt.output? value = if stmt.isExpr then value else none := by
  cases stmt <;> rfl

theorem map_some_handed (turns : Nat) (stmts : List Stmt) (s : Session) :
    (handed (execEach turns stmts s).1).map some =
      ((execEach turns stmts s).1.filter (·.1.isExpr)).map (·.2) := by
  induction stmts generalizing s with
  | nil => rfl
  | cons stmt rest ih =>
    rw [execEach]
    cases hs : stmt.exec turns s with
    | done value t =>
      have hvalue := isSome_output? hs
      have hrest := ih t
      rw [handed] at hrest ⊢
      rw [output?_eq] at hvalue
      by_cases hexpr : stmt.isExpr = true
      · rw [if_pos hexpr, hexpr] at hvalue
        obtain ⟨v, rfl⟩ := Option.isSome_iff_exists.mp hvalue
        have houtput : stmt.output? (some v) = some v := by rw [output?_eq, if_pos hexpr]
        simp [houtput, hexpr, hrest]
      · have houtput : stmt.output? value = none := by rw [output?_eq, if_neg hexpr]
        simp [houtput, hexpr, hrest]
    | halted fault t => rfl
    | unfinished => rfl

theorem handOver_none (outputs : Array Value) (s : Session) (value : Option Value) :
    (handOver none outputs s value).1.toList = outputs.toList ++ value.toList ∧
      (handOver none outputs s value).2 = s := by
  cases value <;> simp [handOver]

variable {flag : Bool} {s t : Session}

theorem feed_deeper (h : s.Deeper 0 flag t) (turns : Nat) (outputs : Array Value)
    (stmts : List Stmt) :
    (feed turns none outputs stmts s).outputs.toList =
        outputs.toList ++ handed (execEach turns stmts t).1 ∧
      (feed turns none outputs stmts s).outcome.Deeper 0 flag t.depth Eq
        (execEach turns stmts t).2 := by
  induction stmts generalizing s t outputs with
  | nil => exact ⟨(List.append_nil _).symm, .done rfl h rfl⟩
  | cons stmt rest ih =>
    have hsinks : Action.Sinks False 0 flag Eq (stmt.exec turns) (stmt.exec turns) :=
      exec_sinks (by omega) turns stmt
    have hfirst : (stmt.exec turns s).Deeper 0 flag t.depth Eq (stmt.exec turns t) :=
      (hsinks s t h).resolve_right fun hcut => hcut.1
    rw [feed_cons, execEach]
    generalize stmt.exec turns s = o at hfirst ⊢
    generalize stmt.exec turns t = o' at hfirst ⊢
    cases hfirst with
    | @done s' t' value _ hvalue h' hd =>
      cases hvalue
      obtain ⟨houtputs, hsession⟩ := handOver_none outputs s' (stmt.output? value)
      obtain ⟨hlater, hend⟩ := ih h' (handOver none outputs s' (stmt.output? value)).1
      rw [hd] at hend
      simp only [hsession]
      refine ⟨?_, hend⟩
      rw [hlater, houtputs, List.append_assoc]
      cases hvalue : stmt.output? value <;> simp [handed, hvalue]
    | halted fault h' hd => exact ⟨(List.append_nil _).symm, .halted fault h' hd⟩
    | unfinished => exact ⟨(List.append_nil _).symm, .unfinished⟩

end Stmt

def Run.result (run : Run) : List Value × Option (Option Fault × Store × Array Diagnostic) :=
  (run.outputs.toList, run.outcome.ending)

def Run.andThen (run : Run) (next : Session → Run) : Run :=
  match run.outcome with
  | .done _ t => ⟨run.outputs ++ (next t).outputs, (next t).outcome⟩
  | _ => run

namespace Program

variable {flag : Bool} {s t : Session}

theorem runWith_deeper (h : s.Deeper 0 flag t) (turns : Nat) (stmts : List Stmt) :
    (runWith turns none ⟨stmts⟩ s).outputs.toList = Stmt.handed (Stmt.execEach turns stmts t).1 ∧
      (runWith turns none ⟨stmts⟩ s).outcome.Deeper 0 flag t.depth Eq
        (Stmt.execEach turns stmts t).2 := by
  have hfeed := Stmt.feed_deeper (h.emit_left (.runStarted stmts.length)) turns #[] stmts
  rw [List.nil_append] at hfeed
  simp only [runWith]
  generalize Stmt.feed turns none #[] stmts (s.emit (.runStarted stmts.length)) = run at hfeed ⊢
  generalize Stmt.execEach turns stmts t = each at hfeed ⊢
  obtain ⟨outputs, outcome⟩ := run
  obtain ⟨given, last⟩ := each
  obtain ⟨houtputs, hend⟩ := hfeed
  cases hend with
  | done _ h' hd => exact ⟨houtputs, .done rfl (h'.emit_left _) hd⟩
  | halted fault h' hd => exact ⟨houtputs, .halted fault h' hd⟩
  | unfinished => exact ⟨houtputs, .unfinished⟩

theorem result_runWith (h : s.Deeper 0 flag t) (turns : Nat) (stmts : List Stmt) :
    (runWith turns none ⟨stmts⟩ s).result =
      (Stmt.handed (Stmt.execEach turns stmts t).1, (Stmt.execEach turns stmts t).2.ending) := by
  obtain ⟨houtputs, hend⟩ := runWith_deeper h turns stmts
  rw [Run.result, houtputs, hend.ending_eq]

theorem result_andThen (h : s.Steady) (turns : Nat) (stmts more : List Stmt) :
    ((runWith turns none ⟨stmts⟩ s).andThen (runWith turns none ⟨more⟩)).result =
      (Stmt.handed (Stmt.execEach turns (stmts ++ more) s).1,
        (Stmt.execEach turns (stmts ++ more) s).2.ending) := by
  obtain ⟨houtputs, hend⟩ := runWith_deeper (.refl h) turns stmts
  rw [Stmt.execEach_append]
  generalize runWith turns none ⟨stmts⟩ s = run at houtputs hend ⊢
  obtain ⟨outputs, outcome⟩ := run
  generalize Stmt.execEach turns stmts s = each at houtputs hend ⊢
  obtain ⟨given, last⟩ := each
  cases hend with
  | done _ h' hd =>
    have hmore := result_runWith h' turns more
    simp only [Run.result, Prod.mk.injEq] at hmore houtputs
    simp only [Run.andThen, Run.result, Array.toList_append, hmore, houtputs, Stmt.handed,
      List.filterMap_append]
  | halted fault h' hd =>
    simp only [Run.andThen, Run.result, Outcome.ending, h'.store, h'.diagnostics]
    rw [houtputs]
  | unfinished =>
    simp only [Run.andThen, Run.result, Outcome.ending]
    rw [houtputs]

theorem ending_run (turns : Nat) (p : Program) (s : Session) :
    (p.run turns s).ending = (p.runWith turns none s).outcome.ending := by
  simp only [run]
  cases (p.runWith turns none s).outcome <;> rfl

theorem run_eq_done_iff {turns : Nat} {p : Program} {s t : Session} {report : Report} :
    p.run turns s = .done report t ↔ (p.runWith turns none s).outcome = .done () t ∧
      report = ⟨(p.runWith turns none s).outputs, t.diagnostics⟩ := by
  simp only [run]
  cases (p.runWith turns none s).outcome with
  | done u s' =>
    simp only [Outcome.done.injEq]
    constructor
    · rintro ⟨rfl, rfl⟩
      exact ⟨⟨trivial, rfl⟩, rfl⟩
    · rintro ⟨⟨-, rfl⟩, rfl⟩
      exact ⟨rfl, rfl⟩
  | halted fault s' => simp
  | unfinished => simp

/-- As long as the flag stays as it is, a program comes to the same in one run and in two, the
second of which starts if the first was not halted. Its statements come to the same variables,
diagnostics and fatal fault when they are executed one by one up to the first that fails, or as a
block. What a run hands over are the values of those that are expressions, in order, and a run that
collects its outputs gives just these, with all diagnostics held when it ends. -/
theorem drivers_agree (turns : Nat) {s : Session} (h : s.Steady) (stmts more : List Stmt) :
    (runWith turns none ⟨stmts ++ more⟩ s).result =
      ((runWith turns none ⟨stmts⟩ s).andThen (runWith turns none ⟨more⟩)).result ∧
    (Stmt.execEach turns stmts s).2.ending = (runWith turns none ⟨stmts⟩ s).outcome.ending ∧
    (Stmt.execAll turns none stmts s).ending = (runWith turns none ⟨stmts⟩ s).outcome.ending ∧
    (runWith turns none ⟨stmts⟩ s).outputs.toList.map some =
      ((Stmt.execEach turns stmts s).1.filter (·.1.isExpr)).map (·.2) ∧
    (run turns ⟨stmts⟩ s).ending = (runWith turns none ⟨stmts⟩ s).outcome.ending ∧
    ∀ report t, run turns ⟨stmts⟩ s = .done report t ↔
      (runWith turns none ⟨stmts⟩ s).outcome = .done () t ∧
        report = ⟨(runWith turns none ⟨stmts⟩ s).outputs, t.diagnostics⟩ := by
  obtain ⟨houtputs, hend⟩ := runWith_deeper (.refl h) turns stmts
  refine ⟨?_, hend.ending_eq.symm, ?_, ?_, ending_run turns ⟨stmts⟩ s,
    fun report t => run_eq_done_iff⟩
  · rw [result_runWith (.refl h), result_andThen h]
  · rw [Stmt.ending_execAll, hend.ending_eq]
  · rw [houtputs, Stmt.map_some_handed]

/-- `int x; x; { x; } x = 5;` -/
def readThenSet : List Stmt :=
  [.declare (some .int) [⟨"x", ⟨1, 5⟩⟩] ⟨1, 1⟩, .expr (.var "x" ⟨2, 1⟩),
    .block [.expr (.var "x" ⟨3, 3⟩)] ⟨3, 1⟩, .assign ⟨"x", ⟨4, 1⟩⟩ (.literal ⟨.int, "5"⟩ ⟨4, 5⟩)]

/-- `x; y;`, a declaration without a type, and `x;` again. -/
def cutByDeclaration : List Stmt :=
  [.expr (.var "x" ⟨5, 1⟩), .expr (.var "y" ⟨6, 1⟩), .declare none [⟨"z", ⟨7, 1⟩⟩] ⟨7, 1⟩,
    .expr (.var "x" ⟨8, 1⟩)]

/-- A session that has let the event pass at which it was asked to stop. -/
def pastItsStop : Session :=
  { events := #[.runStarted 0, .runFinished 0], stopAt := some 1, settings := { trace := true } }

theorem drivers_agree_cutByDeclaration :
    pastItsStop.Steady ∧
    (runWith 1 none ⟨readThenSet ++ cutByDeclaration⟩ pastItsStop).result =
      ((runWith 1 none ⟨readThenSet⟩ pastItsStop).andThen
        (runWith 1 none ⟨cutByDeclaration⟩)).result ∧
    (runWith 1 none ⟨readThenSet ++ cutByDeclaration⟩ pastItsStop).result =
      ([.int 0, .int 5, .int 0], some (some (.missingType ⟨7, 1⟩), ⟨[⟨"x", .int, .int 5⟩]⟩,
        #[⟨⟨6, 1⟩, .undeclaredVariable "y"⟩])) ∧
    (Stmt.execAll 1 none readThenSet pastItsStop).ending =
      (runWith 1 none ⟨readThenSet⟩ pastItsStop).outcome.ending := by
  have hsteady : pastItsStop.Steady := by
    refine .inr fun n hn => ?_
    cases hn
    decide
  obtain ⟨hpieces, -, hblock, -⟩ := drivers_agree 1 hsteady readThenSet cutByDeclaration
  exact ⟨hsteady, hpieces, by decide +kernel, hblock⟩

end Program

end TolerantScript
