import TolerantScript.Execution.Stmt

/-!
Whole programs. A run executes the statements in order and hands over the value of every expression
statement among them; a fatal fault ends it.
-/

namespace TolerantScript

structure Run where
  outputs : Array Value
  outcome : Outcome Unit

/-- More turns than a loop can take before it is stopped from outside. -/
def ampleTurns : Nat := Nat.pow 2 60

namespace Stmt

def output? : Stmt → Option Value → Option Value
  | .expr _, value => value
  | _, _ => none

/-- Runs the statements after `outputs` were handed over. Handing over output number `stopAfter`,
counted from one, raises the flag. -/
def feed (turns : Nat) (stopAfter : Option Nat) (outputs : Array Value) :
    List Stmt → Session → Run
  | [], s => ⟨outputs, .done () s⟩
  | stmt :: rest, s =>
    match stmt.exec turns s with
    | .done value s' =>
      match stmt.output? value with
      | some v =>
        let s' := if stopAfter = some (outputs.size + 1) then s'.interrupt else s'
        feed turns stopAfter (outputs.push v) rest s'
      | none => feed turns stopAfter outputs rest s'
    | .halted fault s' => ⟨outputs, .halted fault s'⟩
    | .unfinished => ⟨outputs, .unfinished⟩

end Stmt

structure Report where
  outputs : Array Value
  diagnostics : Array Diagnostic

namespace Report

def isSuccess (r : Report) : Bool := r.diagnostics.isEmpty

def summary (r : Report) : String :=
  if r.isSuccess then "Program executed successfully."
  else "Type errors found:\n" ++ Diagnostic.listText r.diagnostics.toList

end Report

namespace Program

def runWith (turns : Nat) (stopAfter : Option Nat) (p : Program) (s : Session) : Run :=
  let run := Stmt.feed turns stopAfter #[] p.stmts (s.emit (.runStarted p.stmts.length))
  match run.outcome with
  | .done _ s' => { run with outcome := .done () (s'.emit (.runFinished s'.diagnostics.size)) }
  | _ => run

def run (turns : Nat) (p : Program) : Action Report := fun s =>
  let run := p.runWith turns none s
  match run.outcome with
  | .done _ s' => .done ⟨run.outputs, s'.diagnostics⟩ s'
  | .halted fault s' => .halted fault s'
  | .unfinished => .unfinished

end Program

end TolerantScript
