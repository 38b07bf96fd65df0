import TolerantScript.Proofs.Accord

/-!
The tasks of a statement: what it, and the statements inside it, do themselves. Executions go
together, or one keeps to a regime, if each single task does.
-/

namespace TolerantScript

inductive Task where
  /-- A statement of whatever kind starts. -/
  | start
  | give (e : Expr)
  | test (e : Expr)
  | assign (target : Ident) (e : Expr)
  | declare (ty : Option Ty) (names : List Ident) (position : Position)
  deriving DecidableEq

namespace Stmt

mutual

/-- The tasks of a statement that starts at depth `d`, each with the depth it is done at, in the
order of the text. -/
def tasks (d : Nat) : Stmt → List (Nat × Task)
  | .expr e => [(d, .start), (d + 1, .give e)]
  | .declare ty names p => [(d, .start), (d + 1, .declare ty names p)]
  | .assign target e => [(d, .start), (d + 1, .assign target e)]
  | .block stmts _ => (d, .start) :: tasksAll (d + 1) stmts
  | .branch cond yes no _ =>
    (d, .start) :: (d + 1, .test cond) :: (tasks (d + 1) yes ++ tasksElse (d + 1) no)
  | .whileDo cond body _ => (d, .start) :: (d + 1, .test cond) :: tasks (d + 1) body
  | .doWhile body cond _ => (d, .start) :: (tasks (d + 1) body ++ [(d + 1, .test cond)])
  | .empty _ => [(d, .start)]

def tasksAll (d : Nat) : List Stmt → List (Nat × Task)
  | [] => []
  | stmt :: rest => tasks d stmt ++ tasksAll d rest

def tasksElse (d : Nat) : Option Stmt → List (Nat × Task)
  | none => []
  | some stmt => tasks d stmt

end

mutual

theorem map_snd_tasks : (stmt : Stmt) → (d d' : Nat) →
    (stmt.tasks d).map (·.2) = (stmt.tasks d').map (·.2)
  | .expr _, _, _ | .declare .., _, _ | .assign .., _, _ | .empty _, _, _ => rfl
  | .block stmts _, d, d' => by
    simp only [tasks, List.map_cons, map_snd_tasksAll stmts (d + 1) (d' + 1)]
  | .branch cond yes no _, d, d' => by
    simp only [tasks, List.map_cons, List.map_append, map_snd_tasks yes (d + 1) (d' + 1),
      map_snd_tasksElse no (d + 1) (d' + 1)]
  | .whileDo cond body _, d, d' => by
    simp only [tasks, List.map_cons, map_snd_tasks body (d + 1) (d' + 1)]
  | .doWhile body cond _, d, d' => by
    simp only [tasks, List.map_cons, List.map_append, map_snd_tasks body (d + 1) (d' + 1),
      List.map_nil]

theorem map_snd_tasksAll : (stmts : List Stmt) → (d d' : Nat) →
    (tasksAll d stmts).map (·.2) = (tasksAll d' stmts).map (·.2)
  | [], _, _ => rfl
  | stmt :: rest, d, d' => by
    simp only [tasksAll, List.map_append, map_snd_tasks stmt d d', map_snd_tasksAll rest d d']

theorem map_snd_tasksElse : (no : Option Stmt) → (d d' : Nat) →
    (tasksElse d no).map (·.2) = (tasksElse d' no).map (·.2)
  | none, _, _ => rfl
  | some stmt, d, d' => by simp only [tasksElse, map_snd_tasks stmt d d']

end

theorem mem_tasksAll {stmt : Stmt} {stmts : List Stmt} (hstmt : stmt ∈ stmts) {d : Nat}
    {x : Nat × Task} (hx : x ∈ stmt.tasks d) : x ∈ tasksAll d stmts := by
  induction stmts with
  | nil => cases hstmt
  | cons first rest ih =>
    rw [tasksAll, List.mem_append]
    cases hstmt with
    | head => exact .inl hx
    | tail _ hrest => exact .inr (ih hrest)

def work (stmt : Stmt) : List Task := (stmt.tasks 0).map (·.2)

theorem mem_work {stmt : Stmt} {d k : Nat} {task : Task} (h : (k, task) ∈ stmt.tasks d) :
    task ∈ stmt.work := by
  rw [work, map_snd_tasks stmt 0 d]
  exact List.mem_map_of_mem h

end Stmt

def Program.work (p : Program) : List Task := (Stmt.tasksAll 0 p.stmts).map (·.2)

/-! Executions side by side. -/

section

open Machine

variable {m n : Type → Type} [Machine m] [Machine n]

/-- What two executions do of the task, at depth `d`, goes together, and a value that they give has
`Q`. -/
def Task.Agrees (A : Accord m n) (Q : Value → Prop) (d : Nat) : Task → Prop
  | .start => A.Stops ∧ A.Enters d
  | .give e => A.Rel d (e.evalIn m) (e.evalIn n) Q
  | .test e => A.Rel d (e.testIn m) (e.testIn n) fun _ => True
  | .assign target e =>
    A.Rel d (do assignTo target (← e.evalIn m)) (do assignTo target (← e.evalIn n))
      fun o => ∀ v, o = some v → Q v
  | .declare (some ty) names _ => A.Rel d (declareAll ty names) (declareAll ty names) fun _ => True
  | .declare none _ p =>
    A.Rel d (perform (Action.halt (.missingType p)) : m (Option Value))
      (perform (Action.halt (.missingType p))) fun _ => False

namespace Stmt

variable (A : Accord m n) (Q : Value → Prop)

mutual

theorem exec_agrees (turns : Nat) : (stmt : Stmt) → (d : Nat) →
    (∀ k task, (k, task) ∈ stmt.tasks d → task.Agrees A Q k) →
    A.Rel d (stmt.execIn m turns) (stmt.execIn n turns) fun o => ∀ v, o = some v → Q v
  | .expr e, d, h => by
    simp only [tasks, List.mem_cons, List.not_mem_nil, or_false] at h
    rw [execIn, execIn]
    refine Accord.begin (h d .start (.inl rfl)) ?_
    refine A.bind (h (d + 1) (.give e) (.inr rfl)) fun v hv => A.pure ?_
    intro w hw
    cases hw
    exact hv
  | .declare none names p, d, h => by
    simp only [tasks, List.mem_cons, List.not_mem_nil, or_false] at h
    rw [execIn, execIn]
    have hhalt := h (d + 1) (.declare none names p) (.inr rfl)
    exact Accord.begin (h d .start (.inl rfl)) (A.weaken hhalt fun _ => False.elim)
  | .declare (some ty) names p, d, h => by
    simp only [tasks, List.mem_cons, List.not_mem_nil, or_false] at h
    rw [execIn, execIn]
    refine Accord.begin (h d .start (.inl rfl)) ?_
    exact A.bind (h (d + 1) (.declare (some ty) names p) (.inr rfl)) fun _ _ => A.pure (by simp)
  | .assign target e, d, h => by
    simp only [tasks, List.mem_cons, List.not_mem_nil, or_false] at h
    rw [execIn, execIn]
    exact Accord.begin (h d .start (.inl rfl)) (h (d + 1) (.assign target e) (.inr rfl))
  | .block stmts _, d, h => by
    simp only [tasks, List.mem_cons] at h
    rw [execIn, execIn]
    exact Accord.begin (h d .start (.inl rfl))
      (execAll_agrees turns stmts none (d + 1) (by simp) fun k t hk => h k t (.inr hk))
  | .branch cond yes no _, d, h => by
    simp only [tasks, List.mem_cons, List.mem_append] at h
    rw [execIn, execIn]
    refine Accord.begin (h d .start (.inl rfl)) ?_
    refine A.bind (h (d + 1) (.test cond) (.inr (.inl rfl))) fun b _ => ?_
    cases b with
    | true => exact exec_agrees turns yes (d + 1) fun k t hk => h k t (.inr (.inr (.inl hk)))
    | false => exact execElse_agrees turns no (d + 1) fun k t hk => h k t (.inr (.inr (.inr hk)))
  | .whileDo cond body _, d, h => by
    simp only [tasks, List.mem_cons] at h
    rw [execIn, execIn]
    -- Every turn has the same tasks at the same depth, so one turn speaks for all.
    have hbody := exec_agrees turns body (d + 1) fun k t hk => h k t (.inr (.inr hk))
    have hloop := Accord.whileLoop (h d .start (.inl rfl)).1
      (h (d + 1) (.test cond) (.inr (.inl rfl))) (A.weaken hbody fun _ _ => trivial) turns 0
    exact Accord.begin (h d .start (.inl rfl)) (A.weaken hloop (by simp))
  | .doWhile body cond _, d, h => by
    simp only [tasks, List.mem_cons, List.mem_append, List.not_mem_nil, or_false] at h
    rw [execIn, execIn]
    have hbody := exec_agrees turns body (d + 1) fun k t hk => h k t (.inr (.inl hk))
    have hloop := Accord.doWhileLoop (h d .start (.inl rfl)).1
      (h (d + 1) (.test cond) (.inr (.inr rfl))) (A.weaken hbody fun _ _ => trivial) turns 0
    exact Accord.begin (h d .start (.inl rfl)) (A.weaken hloop (by simp))
  | .empty _, d, h => by
    simp only [tasks, List.mem_cons, List.not_mem_nil, or_false] at h
    rw [execIn, execIn]
    exact Accord.begin (h d .start rfl) (A.pure (by simp))

theorem execAll_agrees (turns : Nat) : (stmts : List Stmt) → (last : Option Value) → (d : Nat) →
    (∀ v, last = some v → Q v) →
    (∀ k task, (k, task) ∈ tasksAll d stmts → task.Agrees A Q k) →
    A.Rel d (execAllIn m turns last stmts) (execAllIn n turns last stmts)
      fun o => ∀ v, o = some v → Q v
  | [], last, d, hlast, _ => by
    rw [execAllIn, execAllIn]
    exact A.pure hlast
  | stmt :: rest, last, d, _, h => by
    simp only [tasksAll, List.mem_append] at h
    rw [execAllIn, execAllIn]
    refine A.bind (exec_agrees turns stmt d fun k t hk => h k t (.inl hk)) fun value hv => ?_
    exact execAll_agrees turns rest value d hv fun k t hk => h k t (.inr hk)

theorem execElse_agrees (turns : Nat) : (no : Option Stmt) → (d : Nat) →
    (∀ k task, (k, task) ∈ tasksElse d no → task.Agrees A Q k) →
    A.Rel d (execElseIn m turns no) (execElseIn n turns no) fun o => ∀ v, o = some v → Q v
  | none, d, _ => by
    rw [execElseIn, execElseIn]
    exact A.pure (by simp)
  | some stmt, d, h => by
    simp only [tasksElse] at h
    rw [execElseIn, execElseIn]
    exact exec_agrees turns stmt d h

end

end Stmt

end

/-! One execution under a regime. -/

def Task.Keeps (R : Regime) (Q : Value → Prop) (d : Nat) : Task → Prop
  | .start => R.Stops ∧ R.Enters d
  | .give e => R.Keeps d e.eval Q
  | .test e => R.Keeps d e.test fun _ => True
  | .assign target e =>
    R.Keeps d (do Action.assignTo target (← e.eval)) fun o => ∀ v, o = some v → Q v
  | .declare (some ty) names _ => R.Keeps d (Action.declareAll ty names) fun _ => True
  | .declare none _ p => ∀ s, R.Inv s → R.Fatal (.missingType p) s

section

open Regime

variable (R : Regime) (Q : Value → Prop)

theorem Task.Keeps.agrees {R : Regime} {Q : Value → Prop} {task : Task} {d : Nat}
    (h : task.Keeps R Q d) : task.Agrees R.accord Q d := by
  cases task with
  | start => exact ⟨fun _ => Keeps.checkInterrupt h.1, Keeps.nested h.2⟩
  | give e =>
    simp only [Agrees, Expr.evalIn_action]
    exact h
  | test e =>
    simp only [Agrees, Expr.testIn_action]
    exact h
  | assign target e =>
    simp only [Agrees, Expr.evalIn_action, Machine.assignTo_action]
    exact h
  | declare ty names p =>
    cases ty with
    | none => exact Keeps.halt h
    | some ty =>
      simp only [Agrees, Machine.declareAll_action]
      exact h

theorem Stmt.exec_keeps (turns : Nat) (stmt : Stmt) (d : Nat)
    (h : ∀ k task, (k, task) ∈ stmt.tasks d → task.Keeps R Q k) :
    R.Keeps d (stmt.exec turns) fun o => ∀ v, o = some v → Q v := by
  have hexec := exec_agrees R.accord Q turns stmt d fun k task hk => (h k task hk).agrees
  rw [execIn_action] at hexec
  exact hexec

theorem Stmt.execAll_keeps (turns : Nat) (stmts : List Stmt) (last : Option Value) (d : Nat)
    (hlast : ∀ v, last = some v → Q v)
    (h : ∀ k task, (k, task) ∈ tasksAll d stmts → task.Keeps R Q k) :
    R.Keeps d (execAll turns last stmts) fun o => ∀ v, o = some v → Q v := by
  have hexec := execAll_agrees R.accord Q turns stmts last d hlast fun k task hk =>
    (h k task hk).agrees
  rw [execAllIn_action] at hexec
  exact hexec

end

end TolerantScript
