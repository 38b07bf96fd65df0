import TolerantScript.Proofs.Machine

/-!
Relations between two ways of executing. One that survives the steps of execution holds between the
two executions of every tree, however its loops and branches go.
-/

namespace TolerantScript

open Machine

variable {m n : Type → Type} [Machine m] [Machine n]

/-! Expressions. -/

/-- A relation that survives the steps of evaluation. -/
structure Evaluation (m n : Type → Type) [Machine m] [Machine n] where
  Rel {α : Type} : m α → n α → Prop
  pure {α : Type} (a : α) : Rel (pure a) (pure a)
  bind {α β : Type} {x : m α} {y : n α} {f : α → m β} {g : α → n β} :
    Rel x y → (∀ a, Rel (f a) (g a)) → Rel (x >>= f) (y >>= g)
  nested {α : Type} {x : m α} {y : n α} : Rel x y → Rel (nested x) (nested y)
  halt {α : Type} (fault : Fault) :
    Rel (perform (Action.halt fault) : m α) (perform (Action.halt fault))
  lookup (name : String) : Rel (perform (Action.lookup name)) (perform (Action.lookup name))
  operate (op : BinaryOp) (l r : Value) :
    Rel (perform (Action.operate op l r)) (perform (Action.operate op l r))
  report (position : Position) (fault : Fault) :
    Rel (report position fault) (report position fault)

namespace Evaluation

variable (R : Evaluation m n)

theorem recover (p : Position) (fallback : Value) (r : Except Fault Value) :
    R.Rel (Machine.recover p fallback r) (Machine.recover p fallback r) := by
  cases r with
  | ok v => exact R.pure v
  | error fault =>
    simp only [Machine.recover]
    cases fault.isFatal with
    | true => exact R.halt fault
    | false => exact R.bind (R.report p fault) fun _ => R.pure fallback

theorem truthOf (p : Position) {x : m Value} {y : n Value} (h : R.Rel x y) :
    R.Rel (Machine.truthOf p x) (Machine.truthOf p y) := by
  refine R.bind h fun v => ?_
  cases v with
  | string s => exact R.bind (R.report p _) fun _ => R.pure false
  | int k => exact R.pure _
  | float x => exact R.pure _
  | bool b => exact R.pure _

theorem binary {l l' r r' : Expr} (hl : R.Rel (l.evalIn m) (l'.evalIn n))
    (hr : R.Rel (r.evalIn m) (r'.evalIn n)) (op : BinaryOp) (p : Position) :
    R.Rel ((Expr.binary op l r p).evalIn m) ((Expr.binary op l' r' p).evalIn n) := by
  refine R.nested ?_
  -- the two logical operators may leave their right operand out, all others evaluate both
  cases op with
  | and =>
    refine R.bind (R.truthOf p hl) fun b => ?_
    cases b with
    | true => exact R.bind (R.truthOf p hr) fun c => R.pure (Value.bool c)
    | false => exact R.pure (Value.bool false)
  | or =>
    refine R.bind (R.truthOf p hl) fun b => ?_
    cases b with
    | true => exact R.pure (Value.bool true)
    | false => exact R.bind (R.truthOf p hr) fun c => R.pure (Value.bool c)
  | _ =>
    exact R.bind hl fun a => R.bind hr fun b =>
      R.bind (R.operate _ a b) fun v => R.recover p _ v

theorem unary {e e' : Expr} (h : R.Rel (e.evalIn m) (e'.evalIn n)) (op : UnaryOp) (p : Position) :
    R.Rel ((Expr.unary op e p).evalIn m) ((Expr.unary op e' p).evalIn n) :=
  R.nested (R.bind h fun _ => R.recover p _ _)

theorem eval (e : Expr) : R.Rel (e.evalIn m) (e.evalIn n) := by
  induction e with
  | literal l p => exact R.nested (R.recover p _ _)
  | var name p => exact R.nested (R.bind (R.lookup name) fun r => R.recover p _ r)
  | binary op l r p ihl ihr => exact R.binary ihl ihr op p
  | unary op e p ih => exact R.unary ih op p
  | paren e p ih => exact R.nested ih

theorem test (e : Expr) : R.Rel (e.testIn m) (e.testIn n) := R.truthOf e.position (R.eval e)

end Evaluation

/-! Statements. -/

def Stmt.Kind.isSimple : Stmt.Kind → Bool
  | .expr | .declare | .assign | .empty => true
  | .block | .branch | .whileDo | .doWhile => false

/-- A relation that holds of statements with none inside, and survives the ways of putting
statements together. -/
structure Composition (m n : Type → Type) [Machine m] [Machine n] where
  Rel {α : Type} : m α → n α → Prop
  pure {α : Type} (a : α) : Rel (pure a) (pure a)
  bind {α β : Type} {x : m α} {y : n α} {f : α → m β} {g : α → n β} :
    Rel x y → (∀ a, Rel (f a) (g a)) → Rel (x >>= f) (y >>= g)
  giveUp {α : Type} : Rel (perform Action.giveUp : m α) (perform Action.giveUp)
  checkInterrupt : Rel (perform Action.checkInterrupt) (perform Action.checkInterrupt)
  whileFinished (count : Nat) :
    Rel (perform (Action.emit (.whileFinished count)))
      (perform (Action.emit (.whileFinished count)))
  doWhileFinished (count : Nat) :
    Rel (perform (Action.emit (.doWhileFinished count)))
      (perform (Action.emit (.doWhileFinished count)))
  test (e : Expr) : Rel (e.testIn m) (e.testIn n)
  simple (turns : Nat) (stmt : Stmt) :
    stmt.kind.isSimple = true → Rel (stmt.execIn m turns) (stmt.execIn n turns)
  compound (kind : Stmt.Kind) (p : Position) {x : m (Option Value)} {y : n (Option Value)} :
    kind.isSimple = false → Rel x y → Rel (begin kind p x) (begin kind p y)

namespace Composition

variable (R : Composition m n)

theorem whileLoop {test : m Bool} {test' : n Bool} {body : m (Option Value)}
    {body' : n (Option Value)} (ht : R.Rel test test') (hb : R.Rel body body')
    (turns count : Nat) :
    R.Rel (Machine.whileLoop test body turns count)
      (Machine.whileLoop test' body' turns count) := by
  induction turns generalizing count with
  | zero => exact R.giveUp
  | succ turns ih =>
    refine R.bind R.checkInterrupt fun _ => R.bind ht fun b => ?_
    cases b with
    | true => exact R.bind hb fun _ => ih (count + 1)
    | false => exact R.bind (R.whileFinished count) fun _ => R.pure none

theorem doWhileLoop {test : m Bool} {test' : n Bool} {body : m (Option Value)}
    {body' : n (Option Value)} (ht : R.Rel test test') (hb : R.Rel body body')
    (turns count : Nat) :
    R.Rel (Machine.doWhileLoop test body turns count)
      (Machine.doWhileLoop test' body' turns count) := by
  induction turns generalizing count with
  | zero => exact R.giveUp
  | succ turns ih =>
    refine R.bind R.checkInterrupt fun _ => R.bind hb fun _ => R.bind ht fun b => ?_
    cases b with
    | true => exact ih (count + 1)
    | false => exact R.bind (R.doWhileFinished (count + 1)) fun _ => R.pure none

mutual

theorem exec (turns : Nat) : (stmt : Stmt) → R.Rel (stmt.execIn m turns) (stmt.execIn n turns)
  | .expr e => R.simple turns (.expr e) rfl
  | .declare ty names p => R.simple turns (.declare ty names p) rfl
  | .assign target e => R.simple turns (.assign target e) rfl
  | .empty p => R.simple turns (.empty p) rfl
  | .block stmts _ => by
    simp only [Stmt.execIn]
    exact R.compound _ _ rfl (execAll turns stmts none)
  | .branch cond yes no _ => by
    simp only [Stmt.execIn]
    refine R.compound _ _ rfl (R.bind (R.test cond) fun b => ?_)
    cases b with
    | true => exact exec turns yes
    | false => exact execElse turns no
  | .whileDo cond body _ => by
    simp only [Stmt.execIn]
    exact R.compound _ _ rfl (R.whileLoop (R.test cond) (exec turns body) turns 0)
  | .doWhile body cond _ => by
    simp only [Stmt.execIn]
    exact R.compound _ _ rfl (R.doWhileLoop (R.test cond) (exec turns body) turns 0)

theorem execAll (turns : Nat) : (stmts : List Stmt) → (last : Option Value) →
    R.Rel (Stmt.execAllIn m turns last stmts) (Stmt.execAllIn n turns last stmts)
  | [], last => by
    simp only [Stmt.execAllIn]
    exact R.pure last
  | stmt :: rest, last => by
    simp only [Stmt.execAllIn]
    exact R.bind (exec turns stmt) fun value => execAll turns rest value

theorem execElse (turns : Nat) : (no : Option Stmt) →
    R.Rel (Stmt.execElseIn m turns no) (Stmt.execElseIn n turns no)
  | none => by
    simp only [Stmt.execElseIn]
    exact R.pure none
  | some stmt => by
    simp only [Stmt.execElseIn]
    exact exec turns stmt

end

end Composition

/-- A relation that survives all steps of execution, each for itself. -/
structure Simulation (m n : Type → Type) [Machine m] [Machine n] where
  Rel {α : Type} : m α → n α → Prop
  pure {α : Type} (a : α) : Rel (pure a) (pure a)
  bind {α β : Type} {x : m α} {y : n α} {f : α → m β} {g : α → n β} :
    Rel x y → (∀ a, Rel (f a) (g a)) → Rel (x >>= f) (y >>= g)
  nested {α : Type} {x : m α} {y : n α} : Rel x y → Rel (nested x) (nested y)
  quiet {α : Type} {x : Action α} : x.Quiet → Rel (perform x) (perform x)
  report (position : Position) (fault : Fault) :
    Rel (report position fault) (report position fault)

namespace Simulation

variable (R : Simulation m n)

def evaluation : Evaluation m n where
  Rel := R.Rel
  pure := R.pure
  bind := R.bind
  nested := R.nested
  halt fault := R.quiet (.halt fault)
  lookup name := R.quiet (.lookup name)
  operate op l r := R.quiet (.operate op l r)
  report := R.report

theorem begin (kind : Stmt.Kind) (p : Position) {x : m (Option Value)} {y : n (Option Value)}
    (h : R.Rel x y) : R.Rel (Machine.begin kind p x) (Machine.begin kind p y) :=
  R.bind (R.quiet .checkInterrupt) fun _ =>
    R.nested (R.bind (R.quiet (.announce kind p)) fun _ => h)

theorem declareAll (ty : Ty) (names : List Ident) :
    R.Rel (Machine.declareAll ty names) (Machine.declareAll ty names) := by
  induction names with
  | nil => exact R.pure ()
  | cons x rest ih =>
    refine R.bind (R.quiet (.declare x.name ty)) fun r => ?_
    cases r with
    | ok u => exact ih
    | error fault => exact R.bind (R.report x.position fault) fun _ => ih

theorem assignTo (target : Ident) (value : Value) :
    R.Rel (Machine.assignTo target value) (Machine.assignTo target value) := by
  refine R.bind (R.quiet (.assign target.name value)) fun r => ?_
  cases r with
  | ok stored => exact R.pure (some stored)
  | error fault => exact R.bind (R.report target.position fault) fun _ => R.pure none

theorem simple (turns : Nat) (stmt : Stmt) (h : stmt.kind.isSimple = true) :
    R.Rel (stmt.execIn m turns) (stmt.execIn n turns) := by
  cases stmt with
  | expr e =>
    simp only [Stmt.execIn]
    exact R.begin _ _ (R.bind (R.evaluation.eval e) fun v => R.pure (some v))
  | declare ty names p =>
    cases ty with
    | none =>
      simp only [Stmt.execIn]
      exact R.begin _ _ (R.quiet (.halt (.missingType p)))
    | some ty =>
      simp only [Stmt.execIn]
      exact R.begin _ _ (R.bind (R.declareAll ty names) fun _ => R.pure none)
  | assign target e =>
    simp only [Stmt.execIn]
    exact R.begin _ _ (R.bind (R.evaluation.eval e) fun v => R.assignTo target v)
  | empty p =>
    simp only [Stmt.execIn]
    exact R.begin _ _ (R.pure none)
  | _ => cases h

def composition : Composition m n where
  Rel := R.Rel
  pure := R.pure
  bind := R.bind
  giveUp := R.quiet .giveUp
  checkInterrupt := R.quiet .checkInterrupt
  whileFinished count := R.quiet (.whileFinished count)
  doWhileFinished count := R.quiet (.doWhileFinished count)
  test := R.evaluation.test
  simple := R.simple
  compound kind p _ _ _ h := R.begin kind p h

theorem exec (turns : Nat) (stmt : Stmt) : R.Rel (stmt.execIn m turns) (stmt.execIn n turns) :=
  R.composition.exec turns stmt

end Simulation

end TolerantScript
