import TolerantScript.Proofs.Feed
import TolerantScript.Proofs.Height
import TolerantScript.Proofs.StaticKind

/-!
What can end a run early: a declaration without a type, nesting deeper than allowed, and a request
to stop. Everything else that goes wrong is recorded, and the run goes on.
-/

namespace TolerantScript

/-- The flag was up at the start, or the event that raises it was emitted since. -/
def Session.Raised (start s : Session) : Prop :=
  start.interrupted = true ∨
    ∃ n, start.stopAt = some n ∧ start.events.size < n ∧ n ≤ s.events.size

def Asked (stopAfter : Option Nat) (outputs : Array Value) : Prop :=
  ∃ n, stopAfter = some n ∧ 0 < n ∧ n ≤ outputs.size

theorem Session.raised_emit {start s : Session} (h : start.events.size ≤ s.events.size)
    (e : Event) :
    start.Raised (s.emit e) ↔ start.Raised s ∨ start.stopAt = some (s.events.size + 1) := by
  have hsize : (s.emit e).events.size = s.events.size + 1 := Array.size_push e
  constructor
  · rintro (hflag | ⟨n, hn, hlt, hle⟩)
    · exact .inl (.inl hflag)
    · rw [hsize] at hle
      by_cases hlast : n = s.events.size + 1
      · exact .inr (hlast ▸ hn)
      · exact .inl (.inr ⟨n, hn, hlt, by omega⟩)
  · rintro ((hflag | ⟨n, hn, hlt, hle⟩) | hn)
    · exact .inl hflag
    · exact .inr ⟨n, hn, hlt, by omega⟩
    · exact .inr ⟨s.events.size + 1, hn, by omega, by omega⟩

theorem asked_push (stopAfter : Option Nat) (outputs : Array Value) (v : Value) :
    Asked stopAfter (outputs.push v) ↔
      Asked stopAfter outputs ∨ stopAfter = some (outputs.size + 1) := by
  have hsize : (outputs.push v).size = outputs.size + 1 := Array.size_push v
  constructor
  · rintro ⟨n, hn, hpos, hle⟩
    by_cases hlast : n = outputs.size + 1
    · exact .inr (hlast ▸ hn)
    · exact .inl ⟨n, hn, hpos, by omega⟩
  · rintro (⟨n, hn, hpos, hle⟩ | hn)
    · exact ⟨n, hn, hpos, by omega⟩
    · exact ⟨outputs.size + 1, hn, by omega, by omega⟩

/-- Some way on from `start` the flag is up if there was a reason, and only then. -/
structure Session.Prompted (start : Session) (asked : Prop) (s : Session) : Prop where
  stopAt : s.stopAt = start.stopAt
  events : start.events.size ≤ s.events.size
  interrupted : s.interrupted = true ↔ start.Raised s ∨ asked

namespace Session.Prompted

variable {start s : Session} {asked : Prop}

theorem refl (hasked : ¬asked) : s.Prompted asked s where
  stopAt := rfl
  events := Nat.le_refl _
  interrupted := by
    refine ⟨fun h => .inl (.inl h), ?_⟩
    rintro ((h | ⟨n, -, hlt, hle⟩) | h)
    · exact h
    · omega
    · exact absurd h hasked

theorem setStore (h : start.Prompted asked s) (store : Store) :
    start.Prompted asked { s with store } := ⟨h.stopAt, h.events, h.interrupted⟩

theorem emit (h : start.Prompted asked s) (e : Event) : start.Prompted asked (s.emit e) where
  stopAt := h.stopAt
  events := by
    have hsize : (s.emit e).events.size = s.events.size + 1 := Array.size_push e
    have := h.events
    omega
  interrupted := by
    rw [raised_emit h.events, ← h.stopAt, or_right_comm, ← h.interrupted]
    simp [Session.emit]

theorem handOver {stopAfter : Option Nat} {outputs : Array Value}
    (h : start.Prompted (Asked stopAfter outputs) s) (value : Option Value) :
    start.Prompted (Asked stopAfter (Stmt.handOver stopAfter outputs s value).1)
      (Stmt.handOver stopAfter outputs s value).2 := by
  cases value with
  | none => exact h
  | some v =>
    have hpush := asked_push stopAfter outputs v
    simp only [Stmt.handOver]
    split
    case isTrue hlast =>
      exact ⟨h.stopAt, h.events, iff_of_true rfl (.inr (hpush.mpr (.inr hlast)))⟩
    case isFalse hlast =>
      rw [or_iff_left hlast] at hpush
      exact ⟨h.stopAt, h.events, by rw [hpush]; exact h.interrupted⟩

end Session.Prompted

theorem not_asked_empty (stopAfter : Option Nat) : ¬Asked stopAfter #[] := by
  rintro ⟨n, -, hpos, hle⟩
  rw [Array.size_empty] at hle
  omega

structure Session.Follows (start : Session) (asked : Prop) (s : Session) : Prop extends
    Session.Prompted start asked s where
  settings : s.settings = start.settings
  depth : s.depth ≤ s.settings.maxDepth

theorem Session.Follows.refl {s : Session} (hs : s.depth ≤ s.settings.maxDepth) {asked : Prop}
    (hasked : ¬asked) : s.Follows asked s := ⟨.refl hasked, rfl, hs⟩

theorem Session.Follows.setStore {start s : Session} {asked : Prop} (h : start.Follows asked s)
    (store : Store) : start.Follows asked { s with store } :=
  ⟨h.toPrompted.setStore store, h.settings, h.depth⟩

theorem Session.Follows.emit {start s : Session} {asked : Prop} (h : start.Follows asked s)
    (e : Event) : start.Follows asked (s.emit e) := ⟨h.toPrompted.emit e, h.settings, h.depth⟩

inductive Fault.Structural (work : List Task) (height maxDepth : Nat) : Fault → Prop where
  | missingType (names : List Ident) (p : Position) (h : .declare none names p ∈ work) :
    Structural work height maxDepth (.missingType p)
  | nestingTooDeep (h : maxDepth < height) :
    Structural work height maxDepth (.nestingTooDeep (maxDepth + 1) maxDepth)

/-- Only structural faults halt and, where `stoppable`, a request to stop. -/
def lasting (start : Session) (asked stoppable : Prop) (work : List Task) (height : Nat) :
    Regime where
  Inv := start.Follows asked
  Fatal fault s := fault.Structural work height start.settings.maxDepth ∨
    stoppable ∧ fault = .interrupted ∧ s.interrupted = true
  inv_enter _ hroom h := ⟨⟨h.stopAt, h.events, h.interrupted⟩, h.settings, hroom⟩
  inv_leave _ h :=
    ⟨⟨h.stopAt, h.events, h.interrupted⟩, h.settings, Nat.le_trans (Nat.sub_le _ _) h.depth⟩
  inv_mark _ e _ h := h.emit e
  fatal_leave _ _ h := h

section

open Regime

/-- The faults of nodes never halt, so a regime that outlasts all records outlasts them. -/
theorem Expr.keeps_of_records {R : Regime} (h : ∀ p fault, R.Records p fault) (n : Expr) (d : Nat) :
    n.Keeps R (fun _ _ => True) d := by
  have hrecover (p : Position) (fallback : Value) (r : Except Fault Value)
      (hr : ∀ fault, r = .error fault → fault.isFatal = false) :
      R.Keeps d (Action.recover p fallback r) fun _ => True :=
    Keeps.recover (fun _ _ => trivial) fun fault hf => ⟨hr fault hf, h p fault, trivial⟩
  cases n with
  | literal l p =>
    refine hrecover p _ _ fun fault hf => ?_
    rw [Literal.fault_of_value hf]
    rfl
  | var name p =>
    intro s
    refine hrecover p _ _ (fun fault hf => ?_) s
    unfold Store.get at hf
    split at hf <;> cases hf
    rfl
  | binary op l r p =>
    cases hop : op.isLogical with
    | true =>
      simp only [Expr.Keeps, hop, if_true]
      exact ⟨fun _ _ fault _ => h p fault, fun _ => trivial⟩
    | false =>
      simp only [Expr.Keeps, hop]
      intro a b _ _ s
      refine hrecover p _ _ (fun fault hf => ?_) s
      have happly := BinaryOp.answers_apply s.settings.maxStringLen hop a b
      rw [hf] at happly
      exact happly.isFatal
  | unary op e p =>
    intro a _
    refine hrecover p _ _ fun fault hf => ?_
    have happly := op.answers_apply 0 a
    rw [hf] at happly
    exact happly.isFatal
  | paren e p => exact fun _ _ => trivial

theorem Task.keeps_of_records {R : Regime} (hfatal : ∀ fault s, R.Fatal fault s)
    (hrecords : ∀ p fault, R.Records p fault) {task : Task}
    (hassign : ∀ target e, task = .assign target e → ∀ s value stored store, R.Inv s →
      s.store.assign target.name value = .ok (stored, store) →
      R.Inv ({ s with store }.emit (.assigned target.name stored)))
    (hdeclare : ∀ ty names p, task = .declare (some ty) names p → ∀ x ∈ names, ∀ s store, R.Inv s →
      s.store.declare x.name ty = .ok store → R.Inv ({ s with store }.emit (.declared x.name ty)))
    (d : Nat) : task.Keeps R (fun _ => True) d := by
  have heval (e : Expr) : R.Keeps d e.eval fun _ => True :=
    Expr.eval_keeps (Q := fun _ _ => True) e d fun k n _ =>
      ⟨fun _ _ _ _ => hfatal _ _, Expr.keeps_of_records hrecords n (k + 1)⟩
  cases task with
  | start => exact ⟨fun _ _ _ => hfatal _ _, fun _ _ _ _ => hfatal _ _⟩
  | give e => exact heval e
  | test e => exact Keeps.truthOf (heval e) fun _ _ fault _ => hrecords _ fault
  | assign target e =>
    refine Keeps.bind (heval e) fun value _ => Keeps.assignTo ?_ ?_
    · intro s stored store hs hstored
      exact ⟨hassign target e rfl s value stored store hs hstored, fun _ _ => trivial⟩
    · exact fun s fault hs _ => ⟨hrecords target.position fault s hs, fun _ _ => trivial⟩
  | declare ty names p =>
    cases ty with
    | none => exact fun _ _ => hfatal _ _
    | some ty => exact Keeps.declareAll (hdeclare ty names p rfl) fun _ _ => hrecords _ _

variable {start : Session} {asked stoppable : Prop} {work : List Task} {height : Nat}

theorem lasting_records (p : Position) (fault : Fault) :
    (lasting start asked stoppable work height).Records p fault := by
  intro s hs
  have h := Session.Follows.emit hs (.recorded ⟨p, fault⟩)
  exact ⟨⟨h.stopAt, h.events, h.interrupted⟩, h.settings, h.depth⟩

theorem lasting_enters {k : Nat} (hk : k < height) :
    (lasting start asked stoppable work height).Enters k := by
  intro s hd hs hdeep
  -- No session is deeper than the limit, so here it is reached exactly.
  have hlimit : s.settings.maxDepth = k := by
    have := hs.depth
    omega
  have hstart : start.settings.maxDepth = k := by rw [← hs.settings, hlimit]
  rw [hlimit, ← hstart]
  exact .inl (.nestingTooDeep (by omega))

theorem Expr.lasting_eval {e : Expr} {k : Nat} (h : k + e.height ≤ height) :
    (lasting start asked stoppable work height).Keeps k e.eval fun _ => True := by
  refine Expr.eval_keeps (Q := fun _ _ => True) e k fun j n hn => ⟨lasting_enters ?_, ?_⟩
  · have := Expr.height_of_mem_nodes hn
    have := n.height_pos
    omega
  · exact Expr.keeps_of_records lasting_records n (j + 1)

theorem Task.lasting_keeps (hstop : stoppable) {task : Task} {k : Nat} (hwork : task ∈ work)
    (h : k + task.height ≤ height) :
    task.Keeps (lasting start asked stoppable work height) (fun _ => True) k := by
  cases task with
  | start => exact ⟨fun s _ hflag => .inr ⟨hstop, rfl, hflag⟩, lasting_enters h⟩
  | give e => exact Expr.lasting_eval h
  | test e => exact Keeps.truthOf (Expr.lasting_eval h) fun _ _ fault _ => lasting_records _ fault
  | assign target e =>
    refine Keeps.bind (Expr.lasting_eval h) fun value _ => Keeps.assignTo ?_ ?_
    · intro s stored store hs _
      exact ⟨(hs.setStore store).emit (.assigned target.name stored), fun _ _ => trivial⟩
    · exact fun s fault hs _ => ⟨lasting_records target.position fault s hs, fun _ _ => trivial⟩
  | declare ty names p =>
    cases ty with
    | none => exact fun _ _ => .inl (.missingType names p hwork)
    | some ty =>
      refine Keeps.declareAll (fun x _ s store hs _ => ?_) fun x _ => lasting_records _ _
      exact (hs.setStore store).emit (.declared x.name ty)

theorem cause_of_halted {α : Type} {Q : α → Prop} {d : Nat} {fault : Fault} {s : Session}
    (h : (lasting start asked stoppable work height).Holds d Q (.halted fault s)) :
    fault.Structural work height start.settings.maxDepth ∨
      stoppable ∧ fault = .interrupted ∧ (start.Raised s ∨ asked) := by
  obtain ⟨-, hs, hfault | ⟨hstop, hfault, hflag⟩⟩ := h
  · exact .inl hfault
  · exact .inr ⟨hstop, hfault, hs.interrupted.mp hflag⟩

theorem Stmt.lasting_exec (turns : Nat) (stmt : Stmt) (d : Nat) :
    (lasting start asked True stmt.work (d + stmt.height)).Keeps d (stmt.exec turns)
      fun _ => True := by
  refine (Stmt.exec_keeps _ (fun _ => True) turns stmt d fun k task hk => ?_).weaken
    fun _ _ => trivial
  exact Task.lasting_keeps trivial (Stmt.mem_work hk) (Stmt.height_of_mem_tasks stmt d k task hk)

theorem Program.lasting_exec (turns : Nat) {p : Program} {stmt : Stmt} (hstmt : stmt ∈ p.stmts) :
    (lasting start asked True p.work p.height).Keeps 0 (stmt.exec turns) fun _ => True := by
  refine (Stmt.exec_keeps _ (fun _ => True) turns stmt 0 fun k task hk => ?_).weaken
    fun _ _ => trivial
  have hall := Stmt.mem_tasksAll hstmt hk
  refine Task.lasting_keeps trivial (List.mem_map_of_mem hall) ?_
  have := Stmt.height_of_mem_tasksAll p.stmts 0 k task hall
  rw [Program.height]
  omega

theorem Session.Follows.handOver {start s : Session} {stopAfter : Option Nat}
    {outputs : Array Value} (h : start.Follows (Asked stopAfter outputs) s) (value : Option Value) :
    start.Follows (Asked stopAfter (Stmt.handOver stopAfter outputs s value).1)
      (Stmt.handOver stopAfter outputs s value).2 := by
  have hprompted := h.toPrompted.handOver value
  obtain hsame | hsame := Stmt.session_handOver stopAfter outputs s value <;>
    exact ⟨hprompted, by rw [hsame]; exact h.settings, by rw [hsame]; exact h.depth⟩

theorem Program.lasting_runWith (turns : Nat) (stopAfter : Option Nat) (p : Program) {s : Session}
    (hs : s.depth = 0) :
    (lasting s (Asked stopAfter (p.runWith turns stopAfter s).outputs) True p.work p.height).Holds 0
      (fun _ => True) (p.runWith turns stopAfter s).outcome := by
  exact Program.runWith_keeps
    (R := fun outputs => lasting s (Asked stopAfter outputs) True p.work p.height)
    (fun stmt hstmt outputs => Program.lasting_exec turns hstmt)
    (fun outputs t value ht => Session.Follows.handOver ht value) hs
    (Session.Follows.refl (by omega) (not_asked_empty stopAfter))

end

theorem Expr.fault_of_eval_within {e : Expr} {s s' : Session} {fault : Fault}
    (hs : s.depth ≤ s.settings.maxDepth) (h : e.eval s = .halted fault s') :
    fault = .nestingTooDeep (s.settings.maxDepth + 1) s.settings.maxDepth ∧
      s.settings.maxDepth < s.depth + e.height := by
  have hkeeps : (lasting s False False [] (s.depth + e.height)).Keeps s.depth e.eval
    fun _ => True := lasting_eval (Nat.le_refl _)
  have hend := hkeeps s rfl (Session.Follows.refl hs not_false)
  rw [h] at hend
  obtain hfault | ⟨hstop, -⟩ := cause_of_halted hend
  · cases hfault with
    | missingType names p hmem => cases hmem
    | nestingTooDeep hdeep => exact ⟨rfl, hdeep⟩
  · exact hstop.elim

theorem Expr.fault_of_eval {e : Expr} {s s' : Session} {fault : Fault} (hs : s.depth = 0)
    (h : e.eval s = .halted fault s') :
    fault = .nestingTooDeep (s.settings.maxDepth + 1) s.settings.maxDepth ∧
      s.settings.maxDepth < e.height := by
  obtain ⟨hfault, hdeep⟩ := fault_of_eval_within (by omega) h
  exact ⟨hfault, by omega⟩

theorem Stmt.fault_of_exec {turns : Nat} {stmt : Stmt} {s s' : Session} {fault : Fault}
    (hs : s.depth = 0) (h : stmt.exec turns s = .halted fault s') :
    fault.Structural stmt.work stmt.height s.settings.maxDepth ∨
      fault = .interrupted ∧ s.Raised s' := by
  have hkeeps : (lasting s False True stmt.work (0 + stmt.height)).Keeps 0 (stmt.exec turns)
    fun _ => True := lasting_exec turns stmt 0
  have hend := hkeeps s hs (Session.Follows.refl (by omega) not_false)
  rw [h, Nat.zero_add] at hend
  obtain hfault | ⟨-, hfault, hcause⟩ := cause_of_halted hend
  · exact .inl hfault
  · exact .inr ⟨hfault, hcause.resolve_right not_false⟩

namespace Program

theorem fault_of_runWith {turns : Nat} {stopAfter : Option Nat} {p : Program} {s s' : Session}
    {fault : Fault} (hs : s.depth = 0)
    (h : (p.runWith turns stopAfter s).outcome = .halted fault s') :
    fault.Structural p.work p.height s.settings.maxDepth ∨
      fault = .interrupted ∧
        (s.Raised s' ∨ Asked stopAfter (p.runWith turns stopAfter s).outputs) := by
  have hend := lasting_runWith turns stopAfter p hs
  rw [h] at hend
  obtain hfault | ⟨-, hfault, hcause⟩ := cause_of_halted hend
  · exact .inl hfault
  · exact .inr ⟨hfault, hcause⟩

theorem not_asked_none (outputs : Array Value) : ¬Asked none outputs := by
  rintro ⟨n, hn, -⟩
  cases hn

theorem fault_of_run {turns : Nat} {p : Program} {s s' : Session} {fault : Fault}
    (hs : s.depth = 0) (h : p.run turns s = .halted fault s') :
    fault.Structural p.work p.height s.settings.maxDepth ∨
      fault = .interrupted ∧ s.Raised s' := by
  obtain hfault | ⟨hfault, hcause⟩ := fault_of_runWith hs (run_eq_halted h)
  · exact .inl hfault
  · exact .inr ⟨hfault, hcause.resolve_right (not_asked_none _)⟩

theorem interrupted_iff_of_run {turns : Nat} {p : Program} {s s' : Session} (hs : s.depth = 0)
    (hend : (p.run turns s).session? = some s') : s'.interrupted = true ↔ s.Raised s' := by
  rw [session?_run] at hend
  obtain ⟨-, hs'⟩ := (lasting_runWith turns none p hs).session hend
  rw [hs'.interrupted, or_iff_left (not_asked_none _)]

theorem done_of_run {turns : Nat} {p : Program} {s s' : Session} (hs : s.depth = 0)
    (hend : (p.run turns s).session? = some s')
    (htyped : ∀ names position, .declare none names position ∉ p.work)
    (hheight : p.height ≤ s.settings.maxDepth) (hflag : ¬s.Raised s') :
    ∃ report, p.run turns s = .done report s' := by
  cases hrun : p.run turns s with
  | done report t =>
    rw [hrun] at hend
    cases hend
    exact ⟨report, rfl⟩
  | halted fault t =>
    rw [hrun] at hend
    cases hend
    obtain hfault | ⟨-, hcause⟩ := fault_of_run hs hrun
    · cases hfault with
      | missingType names position hmem => exact absurd hmem (htyped names position)
      | nestingTooDeep hdeep => omega
    · exact absurd hcause hflag
  | unfinished =>
    rw [hrun] at hend
    cases hend

/-- An evaluation, an execution or a run that starts at depth 0 is halted by its structure or by a
request to stop only, and a request leaves the flag up. Whatever else goes wrong in it, a run comes
to its end, with an output for every expression statement. -/
theorem ends_only_by_structure_or_request (turns : Nat) {s : Session} (hs : s.depth = 0) :
    (∀ (e : Expr) fault s', e.eval s = .halted fault s' →
      fault = .nestingTooDeep (s.settings.maxDepth + 1) s.settings.maxDepth ∧
        s.settings.maxDepth < e.height) ∧
    (∀ (stmt : Stmt) fault s', stmt.exec turns s = .halted fault s' →
      fault.Structural stmt.work stmt.height s.settings.maxDepth ∨
        fault = .interrupted ∧ s.Raised s') ∧
    (∀ (p : Program) stopAfter fault s',
      (p.runWith turns stopAfter s).outcome = .halted fault s' →
      fault.Structural p.work p.height s.settings.maxDepth ∨
        fault = .interrupted ∧
          (s.Raised s' ∨ Asked stopAfter (p.runWith turns stopAfter s).outputs)) ∧
    (∀ (p : Program) fault s', p.run turns s = .halted fault s' →
      fault.Structural p.work p.height s.settings.maxDepth ∨
        fault = .interrupted ∧ s.Raised s') ∧
    (∀ (p : Program) s', (p.run turns s).session? = some s' →
      (s'.interrupted = true ↔ s.Raised s') ∧
      ((∀ names position, .declare none names position ∉ p.work) →
        p.height ≤ s.settings.maxDepth → ¬s.Raised s' →
        ∃ report, p.run turns s = .done report s' ∧
          report.outputs.size = p.stmts.countP Stmt.isExpr)) := by
  refine ⟨fun _ _ _ => Expr.fault_of_eval hs, fun _ _ _ => Stmt.fault_of_exec hs,
    fun _ _ _ _ => fault_of_runWith hs, fun _ _ _ => fault_of_run hs, ?_⟩
  intro p s' hend
  refine ⟨interrupted_iff_of_run hs hend, fun htyped hheight hflag => ?_⟩
  obtain ⟨report, hdone⟩ := done_of_run hs hend htyped hheight hflag
  obtain ⟨houtcome, houtputs⟩ := run_eq_done hdone
  exact ⟨report, hdone, by rw [houtputs, size_outputs_runWith houtcome]⟩

/-- `int x; x = 1 / 0; x + "a"; y; { 5; }`: three faults, and two values to hand over. -/
def mistaken : Program :=
  ⟨[.declare (some .int) [⟨"x", ⟨1, 5⟩⟩] ⟨1, 1⟩,
    .assign ⟨"x", ⟨2, 1⟩⟩
      (.binary .div (.literal ⟨.int, "1"⟩ ⟨2, 5⟩) (.literal ⟨.int, "0"⟩ ⟨2, 9⟩) ⟨2, 7⟩),
    .expr (.binary .add (.var "x" ⟨3, 1⟩) (.literal ⟨.string, "a"⟩ ⟨3, 5⟩) ⟨3, 3⟩),
    .expr (.var "y" ⟨4, 1⟩),
    .block [.expr (.literal ⟨.int, "5"⟩ ⟨5, 3⟩)] ⟨5, 1⟩]⟩

def justEnough : Session := { settings := { maxDepth := 3 }, stopAt := some 8 }

theorem ends_only_by_structure_or_request_mistaken :
    justEnough.depth = 0 ∧
    (∀ names position, .declare none names position ∉ mistaken.work) ∧
    mistaken.height ≤ justEnough.settings.maxDepth ∧
    ∃ report s', mistaken.run 1 justEnough = .done report s' ∧ ¬justEnough.Raised s' ∧
      s'.diagnostics.size = 3 ∧ report.outputs.size = 2 := by
  have hsizes : (mistaken.run 1 justEnough).session?.map
      (fun s' => (s'.events.size, s'.diagnostics.size)) = some (7, 3) := by
    decide +kernel
  obtain ⟨s', hend, hsizes⟩ := Option.map_eq_some_iff.mp hsizes
  obtain ⟨hevents, hdiags⟩ := Prod.mk.inj hsizes
  have hflag : ¬justEnough.Raised s' := by
    rintro (hflag | ⟨n, hn, -, hle⟩)
    · cases hflag
    · cases hn
      omega
  have htyped : ∀ names position, .declare none names position ∉ mistaken.work := by
    simp [work, mistaken, Stmt.tasksAll, Stmt.tasks]
  have hheight : mistaken.height ≤ justEnough.settings.maxDepth := by decide
  obtain ⟨report, hdone, houtputs⟩ :=
    ((ends_only_by_structure_or_request 1 (s := justEnough) rfl).2.2.2.2 mistaken s' hend).2 htyped
      hheight hflag
  exact ⟨rfl, htyped, hheight, report, s', hdone, hflag, hdiags, houtputs⟩

end Program

end TolerantScript
