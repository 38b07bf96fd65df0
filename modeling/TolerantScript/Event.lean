import TolerantScript.Diagnostic
import TolerantScript.Tree.Stmt

/-! What a session announces while it works. -/

namespace TolerantScript

inductive Event where
  | runStarted (statements : Nat)
  | runFinished (diagnostics : Nat)
  /-- A statement starts; announced only by a session that traces. -/
  | started (kind : Stmt.Kind) (position : Position)
  | declared (name : String) (ty : Ty)
  | assigned (name : String) (value : Value)
  | recorded (diagnostic : Diagnostic)
  | whileFinished (iterations : Nat)
  | doWhileFinished (iterations : Nat)
  deriving DecidableEq

namespace Event

/-- Whether only a tracing session announces the event. -/
def isTrace : Event → Bool
  | .started .. => true
  | _ => false

def message : Event → String
  | .runStarted _ => "run started"
  | .runFinished _ => "run finished"
  | .started .. => "exec"
  | .declared .. => "variable declared"
  | .assigned .. => "assigned"
  | .recorded _ => "diagnostic recorded"
  | .whileFinished _ => "while loop finished"
  | .doWhileFinished _ => "do-while loop finished"

end Event

end TolerantScript
