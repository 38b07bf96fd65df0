import TolerantScript.Proofs.Feed
import TolerantScript.Proofs.Node
import TolerantScript.Proofs.Task

/-!
The calls that a session serves, one after the other. A property that all tasks keep, and that does
not hang on requests to stop, outlasts every call, whatever it ends with; where the diagnostics are
taken away, it must not hang on them either.
-/

namespace TolerantScript

/-- A call that executes something may be asked to stop at an event of its own. -/
inductive Call where
  | run (p : Program) (stopAt : Option Nat := none)
  | runWith (p : Program) (stopAfter : Option Nat) (stopAt : Option Nat := none)
  | eval (e : Expr) (stopAt : Option Nat := none)
  | exec (stmt : Stmt) (stopAt : Option Nat := none)
  | execAll (stmts : List Stmt) (stopAt : Option Nat := none)
  | takeDiagnostics
  | interrupt
  | resetInterrupt

namespace Call

/-- The session that the call leaves, if each loop in it does with the turns it is allowed. -/
def session? (turns : Nat) (s : Session) : Call → Option Session
  | .run p stopAt => (p.run turns { s with stopAt }).session?
  | .runWith p stopAfter stopAt => (p.runWith turns stopAfter { s with stopAt }).outcome.session?
  | .eval e stopAt => (e.eval { s with stopAt }).session?
  | .exec stmt stopAt => (stmt.exec turns { s with stopAt }).session?
  | .execAll stmts stopAt => (Stmt.execAll turns none stmts { s with stopAt }).session?
  | .takeDiagnostics => some s.clearDiagnostics
  | .interrupt => some s.interrupt
  | .resetInterrupt => some s.resetInterrupt

def Leads (c : Call) (s t : Session) : Prop := ∃ turns, c.session? turns s = some t

section

variable {R : Regime}

theorem inv_of_leads (htask : ∀ (task : Task) d, task.Keeps R (fun _ => True) d)
    (hflag : ∀ s interrupted stopAt, R.Inv s → R.Inv { s with interrupted, stopAt }) {c : Call}
    (hclear : c = .takeDiagnostics → ∀ s, R.Inv s → R.Inv s.clearDiagnostics) {s t : Session}
    (h : c.Leads s t) (hs : R.Inv s) : R.Inv t := by
  obtain ⟨turns, h⟩ := h
  have hexec (stmt : Stmt) : R.Keeps s.depth (stmt.exec turns) fun _ => True :=
    (Stmt.exec_keeps R (fun _ => True) turns stmt s.depth fun k task _ => htask task k).weaken
      fun _ _ => trivial
  have hstart (stopAt : Option Nat) : R.Inv { s with stopAt } := hflag s s.interrupted stopAt hs
  have hraise (s : Session) (hs : R.Inv s) : R.Inv s.interrupt := hflag s true s.stopAt hs
  cases c with
  | run p stopAt =>
    have h : (p.run turns { s with stopAt }).session? = some t := h
    rw [Program.session?_run] at h
    exact Program.inv_of_runWith (s := { s with stopAt }) (fun stmt _ => hexec stmt) hraise
      (hstart stopAt) h
  | runWith p stopAfter stopAt =>
    exact Program.inv_of_runWith (s := { s with stopAt }) (fun stmt _ => hexec stmt) hraise
      (hstart stopAt) h
  | eval e stopAt =>
    have heval : R.Keeps s.depth e.eval fun _ => True := htask (.give e) s.depth
    exact ((heval { s with stopAt } rfl (hstart stopAt)).session h).2
  | exec stmt stopAt => exact ((hexec stmt { s with stopAt } rfl (hstart stopAt)).session h).2
  | execAll stmts stopAt =>
    have hall := Stmt.execAll_keeps R (fun _ => True) turns stmts none s.depth (fun _ _ => trivial)
      fun k task _ => htask task k
    exact ((hall { s with stopAt } rfl (hstart stopAt)).session h).2
  | takeDiagnostics =>
    cases h
    exact hclear rfl s hs
  | interrupt =>
    cases h
    exact hraise s hs
  | resetInterrupt =>
    cases h
    exact hflag s false s.stopAt hs

end

end Call

inductive Session.Serves : Session → List Call → Session → Prop where
  | nil (s : Session) : Serves s [] s
  | cons {s t u : Session} {c : Call} {calls : List Call} :
    c.Leads s t → Serves t calls u → Serves s (c :: calls) u

namespace Session

def serve (turns : Nat) (s : Session) : List Call → Option Session
  | [] => some s
  | c :: calls => do (← c.session? turns s).serve turns calls

theorem serves_of_serve {turns : Nat} {s t : Session} {calls : List Call}
    (h : s.serve turns calls = some t) : s.Serves calls t := by
  induction calls generalizing s with
  | nil =>
    cases h
    exact .nil t
  | cons c calls ih =>
    obtain ⟨u, hu, h⟩ := Option.bind_eq_some_iff.mp h
    exact .cons ⟨turns, hu⟩ (ih h)

end Session

end TolerantScript
