import TolerantScript.Proofs.Feed
import TolerantScript.Proofs.StaticKind
import TolerantScript.Proofs.Task

/-!
Where diagnostics come from. Whatever a run appends to the diagnostics stands at a node of its
program that can have such a fault, and no fault that ends runs is ever among them.
-/

namespace TolerantScript

/-! What conversions, operators and literals can fail with. -/

namespace Value

theorem fault_of_ofInt {n : Int} {fault : Fault} (h : ofInt n = .error fault) :
    fault = .integerOverflow := by
  unfold ofInt at h
  split at h
  · cases h
  · cases h
    rfl

theorem fault_of_truth {v : Value} {fault : Fault} (h : v.truth = .error fault) :
    fault = .conversion .string .bool none := by
  cases v with
  | string s =>
    cases h
    rfl
  | _ => cases h

theorem fault_of_convert {v : Value} {target : Ty} {name : Option String} {fault : Fault}
    (h : v.convert target name = .error fault) : fault = .conversion v.ty target name := by
  cases v <;> cases target <;> cases h <;> rfl

end Value

theorem Store.fault_of_assign {s : Store} {name : String} {value : Value} {fault : Fault}
    (h : s.assign name value = .error fault) :
    fault = .undeclaredVariable name ∨ ∃ ty, fault = .conversion value.ty ty (some name) := by
  unfold assign at h
  cases hx : s.find? name with
  | none =>
    rw [hx] at h
    cases h
    exact .inl rfl
  | some x =>
    simp only [hx] at h
    cases hc : value.convert x.ty (some name) with
    | ok stored =>
      rw [hc] at h
      cases h
    | error other =>
      rw [hc] at h
      cases h
      exact .inr ⟨x.ty, Value.fault_of_convert hc⟩

theorem Store.fault_of_get {s : Store} {name : String} {fault : Fault}
    (h : s.get name = .error fault) : fault = .undeclaredVariable name := by
  unfold get at h
  split at h
  · cases h
  · cases h
    rfl

theorem Literal.ty_of_fault {l : Literal} {fault : Fault} (h : l.value = .error fault) :
    l.ty ≠ .string := by
  obtain ⟨ty, text⟩ := l
  cases ty with
  | string => cases h
  | _ =>
    intro hty
    cases hty

namespace BinaryOp

/-- The faults that an operator can have; strings are limited to so many bytes. -/
inductive Raises (limit : Nat) : BinaryOp → Fault → Prop where
  | badOperands {op : BinaryOp} (h : op.isLogical = false) (l r : String) :
    Raises limit op (.badOperands op.symbol l r)
  | badType {op : BinaryOp} (h : op ∈ [.mul, .mod]) (message : String) :
    Raises limit op (.badType message)
  | divisionByZero : Raises limit .div .divisionByZero
  | moduloByZero : Raises limit .mod .moduloByZero
  | integerOverflow {op : BinaryOp} (h : op ∈ [.add, .sub, .mul, .div, .mod]) :
    Raises limit op .integerOverflow
  | stringTooLong {op : BinaryOp} (h : op ∈ [.add, .mul, .concat]) :
    Raises limit op (.stringTooLong limit)
  | conversion {op : BinaryOp} (h : op.isLogical = true) :
    Raises limit op (.conversion .string .bool none)

variable {limit : Nat} {op : BinaryOp} {fault : Fault} {l r : Value}

theorem Raises.refuse (h : op.isLogical = false) (l r : Value) : Raises limit op (op.refuse l r) :=
  .badOperands h _ _

theorem fault_of_join {s t : String} (h : join limit s t = .error fault) :
    fault = .stringTooLong limit := by
  rw [join, checkLength_wordLength?] at h
  split at h
  · cases h
  · cases h
    rfl

theorem fault_of_multiply {s : String} {count : Int32} (h : multiply limit s count = .error fault) :
    fault = .stringTooLong limit ∨ ∃ message, fault = .badType message := by
  rw [multiply, checkLength_wordLength?] at h
  split at h
  · cases h
    exact .inr ⟨_, rfl⟩
  · split at h
    · cases h
    · cases h
      exact .inl rfl

theorem fault_of_arithmetic {exact : Int → Int → Int} {rounded : Single → Single → Single}
    (h : arithmetic op exact rounded l r = .error fault) :
    fault = .integerOverflow ∨ fault = op.refuse l r := by
  unfold arithmetic at h
  split at h
  · exact .inl (Value.fault_of_ofInt h)
  · split at h
    · cases h
    · cases h
      exact .inr rfl

theorem raises_of_arithmetic (hop : op ∈ [.add, .sub, .mul, .div, .mod])
    {exact : Int → Int → Int} {rounded : Single → Single → Single}
    (h : arithmetic op exact rounded l r = .error fault) : op.Raises limit fault := by
  have hlogical : op.isLogical = false := by
    cases op with
    | and | or => simp at hop
    | _ => rfl
  obtain rfl | rfl := fault_of_arithmetic h
  · exact .integerOverflow hop
  · exact .refuse hlogical l r

theorem raises_of_add (h : apply limit .add l r = .error fault) : Raises limit .add fault := by
  by_cases hstrings : l.ty = .string ∧ r.ty = .string
  · cases l <;> cases r <;> cases hstrings.1 <;> cases hstrings.2
    rw [fault_of_join h]
    exact .stringTooLong (by decide)
  · rw [apply_add_numbers limit hstrings] at h
    exact raises_of_arithmetic (by decide) h

theorem raises_of_mul (h : apply limit .mul l r = .error fault) : Raises limit .mul fault := by
  by_cases hrepeat : l.ty = .string ∧ r.ty = .int ∨ l.ty = .int ∧ r.ty = .string
  · have hfault : fault = .stringTooLong limit ∨ ∃ message, fault = .badType message := by
      obtain ⟨hl, hr⟩ | ⟨hl, hr⟩ := hrepeat <;> cases l <;> cases hl <;> cases r <;> cases hr <;>
        exact fault_of_multiply h
    obtain rfl | ⟨message, rfl⟩ := hfault
    · exact .stringTooLong (by decide)
    · exact .badType (by decide) message
  · rw [apply_mul_numbers limit hrepeat] at h
    exact raises_of_arithmetic (by decide) h

theorem raises_of_divide (h : divide l r = .error fault) : Raises limit .div fault := by
  unfold divide at h
  split at h
  · cases h
    exact .divisionByZero
  · exact raises_of_arithmetic (by decide) h

theorem raises_of_remainder (h : remainder l r = .error fault) : Raises limit .mod fault := by
  unfold remainder at h
  split at h
  case h_1 a b =>
    split at h
    · cases h
      exact .moduloByZero
    · -- the quotient may overflow before the remainder does
      cases hq : Value.ofInt (a.toInt.tdiv b.toInt) with
      | ok v =>
        rw [hq] at h
        rw [Value.fault_of_ofInt h]
        exact .integerOverflow (by decide)
      | error other =>
        rw [hq] at h
        cases h
        rw [Value.fault_of_ofInt hq]
        exact .integerOverflow (by decide)
  all_goals cases h
  · exact .badType (by decide) _
  · exact .badType (by decide) _
  · exact .refuse rfl l r

theorem raises_of_equality (hop : op.isLogical = false) {negate : Bool}
    (h : equality op negate l r = .error fault) : op.Raises limit fault := by
  unfold equality at h
  split at h
  · cases h
  · cases h
    exact .refuse hop l r

theorem raises_of_relation (hop : op.isLogical = false) {holds : Ordering → Bool}
    (h : relation op holds l r = .error fault) : op.Raises limit fault := by
  unfold relation at h
  split at h
  · cases h
  · cases h
    exact .refuse hop l r

theorem raises_of_concat (h : apply limit .concat l r = .error fault) :
    Raises limit .concat fault := by
  simp only [apply] at h
  split at h
  · rw [fault_of_join h]
    exact .stringTooLong (by decide)
  · cases h
    exact .refuse rfl l r

theorem raises_of_apply (hop : op.isLogical = false) (h : op.apply limit l r = .error fault) :
    op.Raises limit fault := by
  cases op with
  | add => exact raises_of_add h
  | sub => exact raises_of_arithmetic (by decide) h
  | mul => exact raises_of_mul h
  | div => exact raises_of_divide h
  | mod => exact raises_of_remainder h
  | concat => exact raises_of_concat h
  | eq | ne => exact raises_of_equality rfl h
  | lt | gt | le | ge => exact raises_of_relation rfl h
  | and | or => cases hop

end BinaryOp

namespace UnaryOp

inductive Raises : UnaryOp → Fault → Prop where
  | integerOverflow : Raises .neg .integerOverflow
  | badOperand (operand : String) : Raises .neg (.badOperand (symbol .neg) operand)
  | conversion : Raises .not (.conversion .string .bool none)

theorem raises_of_apply {op : UnaryOp} {v : Value} {fault : Fault} (h : op.apply v = .error fault) :
    op.Raises fault := by
  cases op with
  | neg =>
    cases v with
    | int n =>
      rw [Value.fault_of_ofInt h]
      exact .integerOverflow
    | float x => cases h
    | bool b =>
      cases h
      exact .badOperand _
    | string s =>
      cases h
      exact .badOperand _
  | not =>
    cases ht : v.truth with
    | ok b =>
      simp only [apply, ht] at h
      cases h
    | error other =>
      simp only [apply, ht] at h
      cases h
      rw [Value.fault_of_truth ht]
      exact .conversion

end UnaryOp

/-! What nodes and tasks can fail with. -/

inductive Expr.Raises (limit : Nat) : Expr → Fault → Prop where
  | literal {l : Literal} (h : l.ty ≠ .string) (p : Position) :
    Raises limit (.literal l p) (.badLiteral l.ty l.text)
  | var (name : String) (p : Position) : Raises limit (.var name p) (.undeclaredVariable name)
  | binary {op : BinaryOp} {fault : Fault} (h : op.Raises limit fault) (l r : Expr) (p : Position) :
    Raises limit (.binary op l r p) fault
  | unary {op : UnaryOp} {fault : Fault} (h : op.Raises fault) (e : Expr) (p : Position) :
    Raises limit (.unary op e p) fault

def Task.parts : Task → List Expr
  | .give e | .test e | .assign _ e => e.parts
  | .start | .declare .. => []

/-- What a task may add to the diagnostics. -/
inductive Task.Raises (limit : Nat) : Task → Diagnostic → Prop where
  | node {task : Task} {n : Expr} {fault : Fault} (hn : n ∈ task.parts)
    (h : n.Raises limit fault) : Raises limit task ⟨n.position, fault⟩
  | duplicate {names : List Ident} {x : Ident} (h : x ∈ names) (ty : Option Ty) (p : Position) :
    Raises limit (.declare ty names p) ⟨x.position, .duplicateDeclaration x.name⟩
  | undeclared (target : Ident) (e : Expr) :
    Raises limit (.assign target e) ⟨target.position, .undeclaredVariable target.name⟩
  | unfitting (target : Ident) (e : Expr) (source ty : Ty) :
    Raises limit (.assign target e) ⟨target.position, .conversion source ty (some target.name)⟩
  | condition (e : Expr) :
    Raises limit (.test e) ⟨e.position, .conversion .string .bool none⟩

theorem Expr.Raises.isFatal {limit : Nat} {n : Expr} {fault : Fault} (h : n.Raises limit fault) :
    fault.isFatal = false := by
  cases h with
  | literal h p => rfl
  | var name p => rfl
  | binary h l r p => cases h <;> rfl
  | unary h e p => cases h <;> rfl

structure Recorded (limit : Nat) (May : Diagnostic → Prop) (old : List Diagnostic) (s : Session) :
    Prop where
  limit_eq : s.settings.maxStringLen = limit
  appended : ∃ appended, s.diagnostics.toList = old ++ appended ∧ ∀ d ∈ appended, May d

def recording (limit : Nat) (May : Diagnostic → Prop) (old : List Diagnostic) : Regime where
  Inv := Recorded limit May old
  Fatal _ _ := True
  inv_enter _ _ h := ⟨h.limit_eq, h.appended⟩
  inv_leave _ h := ⟨h.limit_eq, h.appended⟩
  inv_mark _ _ _ h := ⟨h.limit_eq, h.appended⟩
  fatal_leave _ _ _ := trivial

section

open Regime

variable {limit : Nat} {May : Diagnostic → Prop} {old : List Diagnostic}

theorem recording_records {p : Position} {fault : Fault} (h : May ⟨p, fault⟩) :
    (recording limit May old).Records p fault := by
  intro s hs
  exact ⟨hs.limit_eq, Session.appended_record hs.appended h⟩

theorem Expr.recording_keeps {n : Expr}
    (h : ∀ fault, n.Raises limit fault → May ⟨n.position, fault⟩) (d : Nat) :
    n.Keeps (recording limit May old) (fun _ _ => True) d := by
  have hrecover (fallback : Value) (r : Except Fault Value)
      (hr : ∀ fault, r = .error fault → n.Raises limit fault) :
      (recording limit May old).Keeps d (Action.recover n.position fallback r) fun _ => True := by
    refine Keeps.recover (fun _ _ => trivial) fun fault hf => ?_
    have hraises := hr fault hf
    exact ⟨hraises.isFatal, recording_records (h fault hraises), trivial⟩
  cases n with
  | literal l p =>
    refine hrecover _ _ fun fault hf => ?_
    rw [Literal.fault_of_value hf]
    exact .literal (Literal.ty_of_fault hf) p
  | var name p =>
    intro s
    refine hrecover _ _ (fun fault hf => ?_) s
    rw [Store.fault_of_get hf]
    exact .var name p
  | binary op l r p =>
    cases hop : op.isLogical with
    | true =>
      simp only [Expr.Keeps, hop, if_true]
      refine ⟨fun v _ fault hf => recording_records (h fault ?_), fun _ => trivial⟩
      rw [Value.fault_of_truth hf]
      exact .binary (.conversion hop) l r p
    | false =>
      simp only [Expr.Keeps, hop]
      intro a b _ _ s hd hs
      refine hrecover _ _ (fun fault hf => ?_) s hd hs
      rw [hs.limit_eq] at hf
      exact .binary (BinaryOp.raises_of_apply hop hf) l r p
  | unary op e p =>
    intro a _
    refine hrecover _ _ fun fault hf => ?_
    exact .unary (UnaryOp.raises_of_apply hf) e p
  | paren e p => exact fun _ _ => trivial

theorem Expr.recording_eval {e : Expr}
    (h : ∀ n ∈ e.parts, ∀ fault, n.Raises limit fault → May ⟨n.position, fault⟩) (d : Nat) :
    (recording limit May old).Keeps d e.eval fun _ => True := by
  refine Expr.eval_keeps (Q := fun _ _ => True) e d fun k n hn => ⟨fun _ _ _ _ => trivial, ?_⟩
  exact Expr.recording_keeps (h n (Expr.mem_parts hn)) (k + 1)

theorem Task.recording_keeps {task : Task} (h : ∀ d, task.Raises limit d → May d) (k : Nat) :
    task.Keeps (recording limit May old) (fun _ => True) k := by
  cases task with
  | start => exact ⟨fun _ _ _ => trivial, fun _ _ _ _ => trivial⟩
  | give e => exact Expr.recording_eval (fun n hn fault hf => h _ (.node hn hf)) k
  | test e =>
    have heval : (recording limit May old).Keeps k e.eval fun _ => True :=
      Expr.recording_eval (fun n hn fault hf => h _ (.node hn hf)) k
    refine Keeps.truthOf heval fun v _ fault hf => recording_records (h _ ?_)
    rw [Value.fault_of_truth hf]
    exact .condition e
  | assign target e =>
    have heval : (recording limit May old).Keeps k e.eval fun _ => True :=
      Expr.recording_eval (fun n hn fault hf => h _ (.node hn hf)) k
    refine Keeps.bind heval fun value _ => Keeps.assignTo ?_ ?_
    · exact fun s stored store hs _ => ⟨⟨hs.limit_eq, hs.appended⟩, fun _ _ => trivial⟩
    · intro s fault hs hf
      refine ⟨recording_records (h _ ?_) s hs, fun _ _ => trivial⟩
      obtain rfl | ⟨ty, rfl⟩ := Store.fault_of_assign hf
      · exact .undeclared target e
      · exact .unfitting target e value.ty ty
  | declare ty names p =>
    cases ty with
    | none => exact fun _ _ => trivial
    | some ty =>
      refine Keeps.declareAll (fun x _ s store hs _ => ⟨hs.limit_eq, hs.appended⟩) fun x hx => ?_
      exact recording_records (h _ (.duplicate hx (some ty) p))

end

namespace Program

theorem mem_work {p : Program} {stmt : Stmt} {task : Task} (hstmt : stmt ∈ p.stmts)
    (h : task ∈ stmt.work) : task ∈ p.work := by
  obtain ⟨⟨k, task⟩, hmem, rfl⟩ := List.mem_map.mp h
  exact List.mem_map_of_mem (Stmt.mem_tasksAll hstmt hmem)

def Raises (limit : Nat) (p : Program) (d : Diagnostic) : Prop :=
  ∃ task ∈ p.work, task.Raises limit d

theorem recording_exec {p : Program} {stmt : Stmt} (hstmt : stmt ∈ p.stmts) (turns limit : Nat)
    (old : List Diagnostic) (d : Nat) :
    (recording limit (p.Raises limit) old).Keeps d (stmt.exec turns) fun _ => True := by
  refine (Stmt.exec_keeps _ (fun _ => True) turns stmt d fun k task hk => ?_).weaken
    fun _ _ => trivial
  have htask : task ∈ p.work := mem_work hstmt (Stmt.mem_work hk)
  exact Task.recording_keeps (fun d hd => ⟨task, htask, hd⟩) k

theorem recorded_runWith {turns : Nat} {stopAfter : Option Nat} {p : Program} {s s' : Session}
    (hend : (p.runWith turns stopAfter s).outcome.session? = some s') :
    Recorded s.settings.maxStringLen (p.Raises s.settings.maxStringLen)
      s.diagnostics.toList s' := by
  have hstart : Recorded s.settings.maxStringLen (p.Raises s.settings.maxStringLen)
      s.diagnostics.toList s := ⟨rfl, [], (List.append_nil _).symm, by simp⟩
  exact inv_of_runWith (fun stmt hstmt => recording_exec hstmt turns _ _ s.depth)
    (fun t ht => ⟨ht.limit_eq, ht.appended⟩) hstart hend

/-! The same by kinds of faults. -/

def parts (p : Program) : List Expr := p.work.flatMap Task.parts

def HasBinary (p : Program) (ops : List BinaryOp) (q : Position) : Prop :=
  ∃ op ∈ ops, ∃ l r, Expr.binary op l r q ∈ p.parts

def HasUnary (p : Program) (op : UnaryOp) (q : Position) : Prop :=
  ∃ e, Expr.unary op e q ∈ p.parts

def Assigns (p : Program) (name : String) (q : Position) : Prop :=
  ∃ e, Task.assign ⟨name, q⟩ e ∈ p.work

/-- What the program has at the position of a diagnostic, for each kind of fault. -/
def AccountsFor (p : Program) (limit : Nat) (d : Diagnostic) : Prop :=
  match d.fault with
  | .duplicateDeclaration name =>
    ∃ ty names q, Task.declare ty names q ∈ p.work ∧ ⟨name, d.position⟩ ∈ names
  | .undeclaredVariable name => .var name d.position ∈ p.parts ∨ p.Assigns name d.position
  | .badOperands symbol _ _ =>
    ∃ op, op.symbol = symbol ∧ op ≠ .and ∧ op ≠ .or ∧ p.HasBinary [op] d.position
  | .badType _ => p.HasBinary [.mul, .mod] d.position
  | .divisionByZero => p.HasBinary [.div] d.position
  | .moduloByZero => p.HasBinary [.mod] d.position
  | .integerOverflow =>
    p.HasBinary [.add, .sub, .mul, .div, .mod] d.position ∨ p.HasUnary .neg d.position
  | .stringTooLong max => p.HasBinary [.add, .mul, .concat] d.position ∧ max = limit
  | .badOperand symbol _ => symbol = UnaryOp.neg.symbol ∧ p.HasUnary .neg d.position
  | .badLiteral ty text => ty ≠ .string ∧ .literal ⟨ty, text⟩ d.position ∈ p.parts
  | .conversion _ _ (some name) => p.Assigns name d.position
  | .conversion source target none =>
    source = .string ∧ target = .bool ∧
      (p.HasBinary [.and, .or] d.position ∨ p.HasUnary .not d.position ∨
        ∃ e, Task.test e ∈ p.work ∧ e.position = d.position)
  | .missingType _ | .nestingTooDeep .. | .interrupted => False

theorem accountsFor_of_binary {p : Program} {limit : Nat} {op : BinaryOp} {l r : Expr}
    {q : Position} {fault : Fault} (hmem : .binary op l r q ∈ p.parts) (h : op.Raises limit fault) :
    p.AccountsFor limit ⟨q, fault⟩ := by
  cases h with
  | badOperands hop lt rt =>
    have hand : op ≠ .and ∧ op ≠ .or := by
      constructor <;> (rintro rfl; cases hop)
    exact ⟨op, rfl, hand.1, hand.2, op, List.mem_singleton_self op, l, r, hmem⟩
  | badType hop message => exact ⟨op, hop, l, r, hmem⟩
  | divisionByZero => exact ⟨.div, List.mem_singleton_self _, l, r, hmem⟩
  | moduloByZero => exact ⟨.mod, List.mem_singleton_self _, l, r, hmem⟩
  | integerOverflow hop => exact .inl ⟨op, hop, l, r, hmem⟩
  | stringTooLong hop => exact ⟨⟨op, hop, l, r, hmem⟩, rfl⟩
  | conversion hop =>
    have hlogical : op ∈ [.and, .or] := by
      cases op with
      | and | or => decide
      | _ => cases hop
    exact ⟨rfl, rfl, .inl ⟨op, hlogical, l, r, hmem⟩⟩

theorem accountsFor_of_unary {p : Program} {limit : Nat} {op : UnaryOp} {e : Expr} {q : Position}
    {fault : Fault} (hmem : .unary op e q ∈ p.parts) (h : op.Raises fault) :
    p.AccountsFor limit ⟨q, fault⟩ := by
  cases h with
  | integerOverflow => exact .inr ⟨e, hmem⟩
  | badOperand operand => exact ⟨rfl, e, hmem⟩
  | conversion => exact ⟨rfl, rfl, .inr (.inl ⟨e, hmem⟩)⟩

theorem Raises.accountsFor {p : Program} {limit : Nat} {d : Diagnostic} (h : p.Raises limit d) :
    p.AccountsFor limit d := by
  obtain ⟨task, htask, h⟩ := h
  cases h with
  | node hn hraises =>
    have hmem := List.mem_flatMap.mpr ⟨task, htask, hn⟩
    cases hraises with
    | literal hty q => exact ⟨hty, hmem⟩
    | var name q => exact .inl hmem
    | binary hop l r q => exact accountsFor_of_binary hmem hop
    | unary hop e q => exact accountsFor_of_unary hmem hop
  | duplicate hx ty q => exact ⟨ty, _, q, htask, hx⟩
  | undeclared target e => exact .inr ⟨e, htask⟩
  | unfitting target e source ty => exact ⟨e, htask⟩
  | condition e => exact ⟨rfl, rfl, .inr (.inr ⟨e, htask, rfl⟩)⟩

/-- However a run ends, and whatever session it started in, the program accounts for every
diagnostic that it has appended. -/
theorem accounts_for_diagnostics (turns : Nat) (stopAfter : Option Nat) (p : Program)
    {s s' : Session} (hend : (p.runWith turns stopAfter s).outcome.session? = some s') :
    ∃ appended, s'.diagnostics.toList = s.diagnostics.toList ++ appended ∧
      ∀ d ∈ appended, p.AccountsFor s.settings.maxStringLen d := by
  obtain ⟨appended, hdiag, hall⟩ := (recorded_runWith hend).appended
  exact ⟨appended, hdiag, fun d hd => (hall d hd).accountsFor⟩

/-- A mistake on every line, one of each kind: `int x, x; y; z = 1; 1 + "a"; "a" * -1; 1 / 0; 1 % 0;
2147483647 + 1; "ab" . "cd"; -"a"; 12x; x = "a"; "a" && true; if ("s") ;` -/
def everyMistake : Program :=
  let one : Expr := .literal ⟨.int, "1"⟩ ⟨0, 1⟩
  let text : Expr := .literal ⟨.string, "a"⟩ ⟨0, 2⟩
  let zero : Expr := .literal ⟨.int, "0"⟩ ⟨0, 3⟩
  ⟨[.declare (some .int) [⟨"x", ⟨1, 5⟩⟩, ⟨"x", ⟨1, 8⟩⟩] ⟨1, 1⟩,
    .expr (.var "y" ⟨2, 1⟩),
    .assign ⟨"z", ⟨3, 1⟩⟩ one,
    .expr (.binary .add one text ⟨4, 3⟩),
    .expr (.binary .mul text (.unary .neg one ⟨5, 7⟩) ⟨5, 5⟩),
    .expr (.binary .div one zero ⟨6, 3⟩),
    .expr (.binary .mod one zero ⟨7, 3⟩),
    .expr (.binary .add (.literal ⟨.int, "2147483647"⟩ ⟨8, 1⟩) one ⟨8, 12⟩),
    .expr (.binary .concat (.literal ⟨.string, "ab"⟩ ⟨9, 1⟩)
      (.literal ⟨.string, "cd"⟩ ⟨9, 8⟩) ⟨9, 6⟩),
    .expr (.unary .neg text ⟨10, 1⟩),
    .expr (.literal ⟨.int, "12x"⟩ ⟨11, 1⟩),
    .assign ⟨"x", ⟨12, 1⟩⟩ text,
    .expr (.binary .and text (.literal ⟨.bool, "true"⟩ ⟨13, 8⟩) ⟨13, 5⟩),
    .branch (.literal ⟨.string, "s"⟩ ⟨14, 5⟩) (.empty ⟨14, 10⟩) none ⟨14, 1⟩]⟩

/-- Strings have three bytes at most, so that the two on line 9 cannot be joined. -/
def threeBytes : Session := { settings := { maxStringLen := 3 } }

theorem accounts_for_diagnostics_everyMistake :
    ∃ s', (everyMistake.runWith 1 none threeBytes).outcome.session? = some s' ∧
      s'.diagnostics.toList.map (·.position) =
        [⟨1, 8⟩, ⟨2, 1⟩, ⟨3, 1⟩, ⟨4, 3⟩, ⟨5, 5⟩, ⟨6, 3⟩, ⟨7, 3⟩, ⟨8, 12⟩, ⟨9, 6⟩, ⟨10, 1⟩, ⟨11, 1⟩,
          ⟨12, 1⟩, ⟨13, 5⟩, ⟨14, 5⟩] ∧
      ∀ d ∈ s'.diagnostics.toList, everyMistake.AccountsFor 3 d := by
  have hpositions : (everyMistake.runWith 1 none threeBytes).outcome.session?.map
      (fun s' => s'.diagnostics.toList.map (·.position)) =
        some [⟨1, 8⟩, ⟨2, 1⟩, ⟨3, 1⟩, ⟨4, 3⟩, ⟨5, 5⟩, ⟨6, 3⟩, ⟨7, 3⟩, ⟨8, 12⟩, ⟨9, 6⟩, ⟨10, 1⟩,
          ⟨11, 1⟩, ⟨12, 1⟩, ⟨13, 5⟩, ⟨14, 5⟩] := by
    decide +kernel
  obtain ⟨s', hend, hpositions⟩ := Option.map_eq_some_iff.mp hpositions
  obtain ⟨appended, hdiag, hall⟩ := accounts_for_diagnostics 1 none everyMistake hend
  refine ⟨s', hend, hpositions, ?_⟩
  rw [hdiag]
  exact hall

end Program

end TolerantScript
