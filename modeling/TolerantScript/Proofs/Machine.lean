import TolerantScript.Proofs.Regime

/-!
Execution in any monad that performs the quiet actions of a session, can be told of a fault and can
go one level further in. What a reported fault leads to is left to the monad, so that executions
which treat faults differently are one and the same executor.
-/

namespace TolerantScript

namespace Action

def lookup (name : String) : Action (Except Fault Value) := do
  return (← store).get name

def operate (op : BinaryOp) (l r : Value) : Action (Except Fault Value) := do
  return op.apply (← settings).maxStringLen l r

def announce (kind : Stmt.Kind) (position : Position) : Action Unit := do
  if (← settings).trace then emit (.started kind position)

def declare (name : String) (ty : Ty) : Action (Except Fault Unit) := do
  match (← store).declare name ty with
  | .ok extended =>
    setStore extended
    emit (.declared name ty)
    return .ok ()
  | .error fault => return .error fault

def assign (name : String) (value : Value) : Action (Except Fault Value) := do
  match (← store).assign name value with
  | .ok (stored, changed) =>
    setStore changed
    emit (.assigned name stored)
    return .ok stored
  | .error fault => return .error fault

theorem declare_apply (name : String) (ty : Ty) (s : Session) :
    declare name ty s =
      match s.store.declare name ty with
      | .ok extended => .done (.ok ()) ({ s with store := extended }.emit (.declared name ty))
      | .error fault => .done (.error fault) s := by
  simp only [declare, bind_apply, store]
  cases s.store.declare name ty <;> rfl

theorem assign_apply (name : String) (value : Value) (s : Session) :
    assign name value s =
      match s.store.assign name value with
      | .ok (stored, changed) =>
        .done (.ok stored) ({ s with store := changed }.emit (.assigned name stored))
      | .error fault => .done (.error fault) s := by
  simp only [assign, bind_apply, store]
  cases s.store.assign name value <;> rfl

/-- The actions on a session that execution is made of. None of them reports. -/
inductive Quiet : {α : Type} → Action α → Prop where
  | halt {α : Type} (fault : Fault) : Quiet (halt fault : Action α)
  | giveUp {α : Type} : Quiet (giveUp : Action α)
  | checkInterrupt : Quiet checkInterrupt
  | lookup (name : String) : Quiet (lookup name)
  | operate (op : BinaryOp) (l r : Value) : Quiet (operate op l r)
  | announce (kind : Stmt.Kind) (position : Position) : Quiet (announce kind position)
  | declare (name : String) (ty : Ty) : Quiet (declare name ty)
  | assign (name : String) (value : Value) : Quiet (assign name value)
  | whileFinished (count : Nat) : Quiet (emit (.whileFinished count))
  | doWhileFinished (count : Nat) : Quiet (emit (.doWhileFinished count))

/-- A quiet action that ends has done nothing, or has announced an event and perhaps changed the
variables with it. -/
theorem Quiet.session_cases {α : Type} {x : Action α} (h : x.Quiet) {s t : Session}
    (hend : (x s).session? = some t) : t = s ∨ ∃ store e, t = { s with store }.emit e := by
  cases h with
  | halt fault => exact .inl (Option.some.inj hend).symm
  | giveUp => cases hend
  | checkInterrupt =>
    simp only [Action.checkInterrupt] at hend
    split at hend <;> exact .inl (Option.some.inj hend).symm
  | lookup name => exact .inl (Option.some.inj hend).symm
  | operate op l r => exact .inl (Option.some.inj hend).symm
  | announce kind p =>
    simp only [Action.announce, bind_apply, settings] at hend
    split at hend
    · exact .inr ⟨s.store, _, (Option.some.inj hend).symm⟩
    · exact .inl (Option.some.inj hend).symm
  | declare name ty =>
    rw [declare_apply] at hend
    split at hend
    · exact .inr ⟨_, _, (Option.some.inj hend).symm⟩
    · exact .inl (Option.some.inj hend).symm
  | assign name value =>
    rw [assign_apply] at hend
    split at hend
    · exact .inr ⟨_, _, (Option.some.inj hend).symm⟩
    · exact .inl (Option.some.inj hend).symm
  | whileFinished count => exact .inr ⟨s.store, _, (Option.some.inj hend).symm⟩
  | doWhileFinished count => exact .inr ⟨s.store, _, (Option.some.inj hend).symm⟩

end Action

class Machine (m : Type → Type) extends Monad m where
  perform {α : Type} (x : Action α) : m α
  report (position : Position) (fault : Fault) : m Unit
  nested {α : Type} (x : m α) : m α

namespace Machine

instance : Machine Action where
  perform x := x
  report := Action.report
  nested := Action.nested

variable {m : Type → Type} [Machine m]

def recover (position : Position) (fallback : Value) : Except Fault Value → m Value
  | .ok v => pure v
  | .error fault => if fault.isFatal then perform (Action.halt fault) else do
    report position fault
    return fallback

def truthOf (position : Position) (x : m Value) : m Bool := do
  match (← x).truth with
  | .ok b => return b
  | .error fault =>
    report position fault
    return false

def begin (kind : Stmt.Kind) (position : Position) (work : m (Option Value)) :
    m (Option Value) := do
  perform Action.checkInterrupt
  nested do
    perform (Action.announce kind position)
    work

def whileLoop (test : m Bool) (body : m (Option Value)) :
    (turns count : Nat) → m (Option Value)
  | 0, _ => perform Action.giveUp
  | turns + 1, count => do
    perform Action.checkInterrupt
    if ← test then
      let _ ← body
      whileLoop test body turns (count + 1)
    else
      perform (Action.emit (.whileFinished count))
      return none

def doWhileLoop (test : m Bool) (body : m (Option Value)) :
    (turns count : Nat) → m (Option Value)
  | 0, _ => perform Action.giveUp
  | turns + 1, count => do
    perform Action.checkInterrupt
    let _ ← body
    if ← test then
      doWhileLoop test body turns (count + 1)
    else
      perform (Action.emit (.doWhileFinished (count + 1)))
      return none

def declareAll (ty : Ty) : List Ident → m Unit
  | [] => return
  | x :: rest => do
    match ← perform (Action.declare x.name ty) with
    | .ok () => pure ()
    | .error fault => report x.position fault
    declareAll ty rest

def assignTo (target : Ident) (value : Value) : m (Option Value) := do
  match ← perform (Action.assign target.name value) with
  | .ok stored => return some stored
  | .error fault =>
    report target.position fault
    return none

end Machine

open Machine

def Expr.evalIn (m : Type → Type) [Machine m] : Expr → m Value
  | .literal l p => nested (recover p (.initial l.ty) l.value)
  | .var name p => nested do
    recover p (.initial .int) (← perform (Action.lookup name))
  | .binary op l r p => nested do
    match op with
    | .and =>
      if ← truthOf p (l.evalIn m) then return .bool (← truthOf p (r.evalIn m))
      else return .bool false
    | .or =>
      if ← truthOf p (l.evalIn m) then return .bool true
      else return .bool (← truthOf p (r.evalIn m))
    | op =>
      let a ← l.evalIn m
      let b ← r.evalIn m
      recover p (op.fallback a b) (← perform (Action.operate op a b))
  | .unary op e p => nested do
    let a ← e.evalIn m
    recover p (op.fallback a) (op.apply a)
  | .paren e _ => nested (e.evalIn m)

def Expr.testIn (m : Type → Type) [Machine m] (e : Expr) : m Bool :=
  truthOf e.position (e.evalIn m)

mutual

def Stmt.execIn (m : Type → Type) [Machine m] (turns : Nat) (stmt : Stmt) : m (Option Value) :=
  begin stmt.kind stmt.position <|
    match stmt with
    | .expr e => do return some (← e.evalIn m)
    | .declare none _ p => perform (Action.halt (.missingType p))
    | .declare (some ty) names _ => do
      declareAll ty names
      return none
    | .assign target e => do assignTo target (← e.evalIn m)
    | .block stmts _ => Stmt.execAllIn m turns none stmts
    | .branch cond yes no _ => do
      if ← cond.testIn m then yes.execIn m turns else Stmt.execElseIn m turns no
    | .whileDo cond body _ => whileLoop (cond.testIn m) (body.execIn m turns) turns 0
    | .doWhile body cond _ => doWhileLoop (cond.testIn m) (body.execIn m turns) turns 0
    | .empty _ => return none

def Stmt.execAllIn (m : Type → Type) [Machine m] (turns : Nat) (last : Option Value) :
    List Stmt → m (Option Value)
  | [] => return last
  | stmt :: rest => do
    let value ← stmt.execIn m turns
    Stmt.execAllIn m turns value rest

def Stmt.execElseIn (m : Type → Type) [Machine m] (turns : Nat) : Option Stmt → m (Option Value)
  | none => return none
  | some stmt => stmt.execIn m turns

end

/-! The sessions' own actions are such a monad, and in it the executor is that of the library. -/

namespace Machine

theorem recover_action (p : Position) (fallback : Value) (r : Except Fault Value) :
    (recover p fallback r : Action Value) = Action.recover p fallback r := by
  cases r <;> rfl

theorem begin_action (kind : Stmt.Kind) (p : Position) (work : Action (Option Value)) :
    begin kind p work = Action.begin kind p work := by
  have hwork : (do perform (Action.announce kind p); work : Action (Option Value)) =
      (do if (← Action.settings).trace then Action.emit (.started kind p)
          work) := by
    funext s
    simp only [perform, Action.announce, Action.bind_apply, Action.settings]
    cases s.settings.trace <;> rfl
  simp only [begin, Action.begin, hwork]
  rfl

theorem whileLoop_action (test : Action Bool) (body : Action (Option Value))
    (turns count : Nat) :
    whileLoop test body turns count = Action.whileLoop test body turns count := by
  induction turns generalizing count with
  | zero => rfl
  | succ turns ih =>
    simp only [whileLoop, Action.whileLoop, ih]
    rfl

theorem doWhileLoop_action (test : Action Bool) (body : Action (Option Value))
    (turns count : Nat) :
    doWhileLoop test body turns count = Action.doWhileLoop test body turns count := by
  induction turns generalizing count with
  | zero => rfl
  | succ turns ih =>
    simp only [doWhileLoop, Action.doWhileLoop, ih]
    rfl

theorem declareAll_action (ty : Ty) (names : List Ident) :
    (declareAll ty names : Action Unit) = Action.declareAll ty names := by
  induction names with
  | nil => rfl
  | cons x rest ih =>
    funext s
    simp only [declareAll, Action.declareAll, ih, perform, Action.declare, Action.bind_apply,
      Action.store]
    cases s.store.declare x.name ty <;> rfl

theorem assignTo_action (target : Ident) (value : Value) :
    (assignTo target value : Action (Option Value)) = Action.assignTo target value := by
  funext s
  simp only [assignTo, Action.assignTo, perform, Action.assign, Action.bind_apply, Action.store]
  cases s.store.assign target.name value <;> rfl

end Machine

theorem Expr.evalIn_action (e : Expr) : e.evalIn Action = e.eval := by
  induction e with
  | literal l p =>
    simp only [evalIn, eval, recover_action]
    rfl
  | var name p => rfl
  | binary op l r p ihl ihr =>
    simp only [evalIn, eval, ihl, ihr, recover_action]
    cases op <;> rfl
  | unary op e p ih =>
    simp only [evalIn, eval, ih, recover_action]
    rfl
  | paren e p ih =>
    simp only [evalIn, eval, ih]
    rfl

theorem Expr.testIn_action (e : Expr) : e.testIn Action = e.test := by
  rw [testIn, evalIn_action]
  rfl

mutual

theorem Stmt.execIn_action (turns : Nat) : (stmt : Stmt) →
    stmt.execIn Action turns = stmt.exec turns
  | .expr e => by
    simp only [Stmt.execIn, Stmt.exec, begin_action, Expr.evalIn_action]
  | .declare none _ _ => by
    simp only [Stmt.execIn, Stmt.exec, begin_action]
    rfl
  | .empty _ => by
    simp only [Stmt.execIn, Stmt.exec, begin_action]
  | .declare (some ty) names _ => by
    simp only [Stmt.execIn, Stmt.exec, begin_action, declareAll_action]
  | .assign target e => by
    simp only [Stmt.execIn, Stmt.exec, begin_action, Expr.evalIn_action, assignTo_action]
  | .block stmts _ => by
    simp only [Stmt.execIn, Stmt.exec, begin_action, Stmt.execAllIn_action turns stmts]
  | .branch cond yes no _ => by
    simp only [Stmt.execIn, Stmt.exec, begin_action, Expr.testIn_action,
      Stmt.execIn_action turns yes, Stmt.execElseIn_action turns no]
  | .whileDo cond body _ => by
    simp only [Stmt.execIn, Stmt.exec, begin_action, Expr.testIn_action,
      Stmt.execIn_action turns body, whileLoop_action]
  | .doWhile body cond _ => by
    simp only [Stmt.execIn, Stmt.exec, begin_action, Expr.testIn_action,
      Stmt.execIn_action turns body, doWhileLoop_action]

theorem Stmt.execAllIn_action (turns : Nat) : (stmts : List Stmt) → (last : Option Value) →
    Stmt.execAllIn Action turns last stmts = Stmt.execAll turns last stmts
  | [], last => by
    simp only [Stmt.execAllIn, Stmt.execAll]
  | stmt :: rest, last => by
    simp only [Stmt.execAllIn, Stmt.execAll, Stmt.execIn_action turns stmt,
      Stmt.execAllIn_action turns rest]

theorem Stmt.execElseIn_action (turns : Nat) : (no : Option Stmt) →
    Stmt.execElseIn Action turns no = Stmt.execElse turns no
  | none => by
    simp only [Stmt.execElseIn, Stmt.execElse]
  | some stmt => by
    simp only [Stmt.execElseIn, Stmt.execElse, Stmt.execIn_action turns stmt]

end

end TolerantScript
