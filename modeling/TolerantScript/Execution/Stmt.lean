import TolerantScript.Execution.Expr

/-!
Execution of statements.

Every statement first sees whether the session was asked to stop, then enters a level of nesting. An
expression and a successful assignment give a value, a sequence gives that of its last statement, a
loop or a declaration gives none.

A loop may take as many turns as its condition asks for, so execution carries a number of turns that
each single loop is allowed; a loop that needs more is left unfinished.
-/

namespace TolerantScript

open TolerantScript.Action

namespace Action

/-- What every statement does before its own work. -/
def begin (kind : Stmt.Kind) (position : Position) (work : Action (Option Value)) :
    Action (Option Value) := do
  checkInterrupt
  nested do
    if (← settings).trace then emit (.started kind position)
    work

/-- Tests, then works, as long as the test holds; `count` turns were taken before. -/
def whileLoop (test : Action Bool) (body : Action (Option Value)) :
    (turns count : Nat) → Action (Option Value)
  | 0, _ => giveUp
  | turns + 1, count => do
    checkInterrupt
    if ← test then
      let _ ← body
      whileLoop test body turns (count + 1)
    else
      emit (.whileFinished count)
      return none

def doWhileLoop (test : Action Bool) (body : Action (Option Value)) :
    (turns count : Nat) → Action (Option Value)
  | 0, _ => giveUp
  | turns + 1, count => do
    checkInterrupt
    let _ ← body
    if ← test then
      doWhileLoop test body turns (count + 1)
    else
      emit (.doWhileFinished (count + 1))
      return none

def declareAll (ty : Ty) : List Ident → Action Unit
  | [] => return
  | x :: rest => do
    match (← store).declare x.name ty with
    | .ok extended =>
      setStore extended
      emit (.declared x.name ty)
    | .error fault => report x.position fault
    declareAll ty rest

def assignTo (target : Ident) (value : Value) : Action (Option Value) := do
  match (← store).assign target.name value with
  | .ok (stored, changed) =>
    setStore changed
    emit (.assigned target.name stored)
    return some stored
  | .error fault =>
    report target.position fault
    return none

end Action

mutual

def Stmt.exec (turns : Nat) (stmt : Stmt) : Action (Option Value) :=
  begin stmt.kind stmt.position <|
    match stmt with
    | .expr e => do return some (← e.eval)
    | .declare none _ p => halt (.missingType p)
    | .declare (some ty) names _ => do
      declareAll ty names
      return none
    | .assign target e => do assignTo target (← e.eval)
    | .block stmts _ => Stmt.execAll turns none stmts
    | .branch cond yes no _ => do
      if ← cond.test then yes.exec turns else Stmt.execElse turns no
    | .whileDo cond body _ => whileLoop cond.test (body.exec turns) turns 0
    | .doWhile body cond _ => doWhileLoop cond.test (body.exec turns) turns 0
    | .empty _ => return none

def Stmt.execAll (turns : Nat) (last : Option Value) : List Stmt → Action (Option Value)
  | [] => return last
  | stmt :: rest => do
    let value ← stmt.exec turns
    Stmt.execAll turns value rest

def Stmt.execElse (turns : Nat) : Option Stmt → Action (Option Value)
  | none => return none
  | some stmt => stmt.exec turns

end

end TolerantScript
