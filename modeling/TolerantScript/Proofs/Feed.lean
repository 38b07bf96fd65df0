import TolerantScript.Proofs.Regime

/-!
Runs of programs, statement by statement. A run keeps to a regime that may change with the values it
has handed over.
-/

namespace TolerantScript

namespace Stmt

def handOver (stopAfter : Option Nat) (outputs : Array Value) (s : Session) :
    Option Value → Array Value × Session
  | some v => (outputs.push v, if stopAfter = some (outputs.size + 1) then s.interrupt else s)
  | none => (outputs, s)

theorem session_handOver (stopAfter : Option Nat) (outputs : Array Value) (s : Session)
    (value : Option Value) :
    (handOver stopAfter outputs s value).2 = s ∨
      (handOver stopAfter outputs s value).2 = s.interrupt := by
  cases value with
  | none => exact .inl rfl
  | some v =>
    simp only [handOver]
    split
    · exact .inr rfl
    · exact .inl rfl

theorem prefix_handOver (stopAfter : Option Nat) (outputs : Array Value) (s : Session)
    (value : Option Value) :
    outputs.toList <+: (handOver stopAfter outputs s value).1.toList := by
  cases value with
  | none => exact List.prefix_rfl
  | some v => simp [handOver]

theorem feed_cons (turns : Nat) (stopAfter : Option Nat) (outputs : Array Value) (stmt : Stmt)
    (rest : List Stmt) (s : Session) :
    feed turns stopAfter outputs (stmt :: rest) s =
      match stmt.exec turns s with
      | .done value s' =>
        let next := handOver stopAfter outputs s' (stmt.output? value)
        feed turns stopAfter next.1 rest next.2
      | .halted fault s' => ⟨outputs, .halted fault s'⟩
      | .unfinished => ⟨outputs, .unfinished⟩ := by
  rw [feed]
  cases stmt.exec turns s with
  | done value s' => cases h : stmt.output? value <;> simp only [handOver, h]
  | halted fault s' => rfl
  | unfinished => rfl

open Regime

variable {R : Array Value → Regime} {d turns : Nat} {stopAfter : Option Nat}

theorem feed_keeps {stmts : List Stmt}
    (hexec : ∀ stmt ∈ stmts, ∀ outputs, (R outputs).Keeps d (stmt.exec turns) fun _ => True)
    (hhand : ∀ outputs s value, (R outputs).Inv s →
      (R (handOver stopAfter outputs s value).1).Inv (handOver stopAfter outputs s value).2)
    {outputs : Array Value} {s : Session} (hd : s.depth = d) (hI : (R outputs).Inv s) :
    (R (feed turns stopAfter outputs stmts s).outputs).Holds d (fun _ => True)
      (feed turns stopAfter outputs stmts s).outcome := by
  induction stmts generalizing outputs s with
  | nil => exact ⟨hd, hI, trivial⟩
  | cons stmt rest ih =>
    have hrest := fun stmt hstmt => hexec stmt (List.mem_cons_of_mem _ hstmt)
    have hfirst := hexec stmt List.mem_cons_self outputs s hd hI
    rw [feed_cons]
    cases hs : stmt.exec turns s with
    | done value s' =>
      rw [hs] at hfirst
      obtain ⟨hd', hI', -⟩ := hfirst
      refine ih hrest ?_ (hhand outputs s' (stmt.output? value) hI')
      obtain h | h := session_handOver stopAfter outputs s' (stmt.output? value) <;> rw [h, ← hd']
      rfl
    | halted fault s' =>
      rw [hs] at hfirst
      exact hfirst
    | unfinished => trivial

end Stmt

theorem Program.runWith_keeps {R : Array Value → Regime} {d turns : Nat} {stopAfter : Option Nat}
    {p : Program}
    (hexec : ∀ stmt ∈ p.stmts, ∀ outputs, (R outputs).Keeps d (stmt.exec turns) fun _ => True)
    (hhand : ∀ outputs s value, (R outputs).Inv s →
      (R (Stmt.handOver stopAfter outputs s value).1).Inv
        (Stmt.handOver stopAfter outputs s value).2)
    {s : Session} (hd : s.depth = d) (hI : (R #[]).Inv s) :
    (R (p.runWith turns stopAfter s).outputs).Holds d (fun _ => True)
      (p.runWith turns stopAfter s).outcome := by
  have hfeed := Stmt.feed_keeps hexec hhand (s := s.emit (.runStarted p.stmts.length)) hd
    ((R #[]).inv_mark s (.runStarted p.stmts.length) rfl hI)
  simp only [runWith]
  generalize Stmt.feed turns stopAfter #[] p.stmts (s.emit (.runStarted p.stmts.length)) = run
    at hfeed ⊢
  obtain ⟨outputs, outcome⟩ := run
  cases outcome with
  | done u s' =>
    obtain ⟨hd', hI', -⟩ := hfeed
    exact ⟨hd', (R outputs).inv_mark s' (.runFinished s'.diagnostics.size) rfl hI', trivial⟩
  | halted fault s' => exact hfeed
  | unfinished => trivial

theorem Program.inv_of_runWith {R : Regime} {turns : Nat} {stopAfter : Option Nat} {p : Program}
    {s s' : Session}
    (hexec : ∀ stmt ∈ p.stmts, R.Keeps s.depth (stmt.exec turns) fun _ => True)
    (hflag : ∀ t, R.Inv t → R.Inv t.interrupt) (hI : R.Inv s)
    (hend : (p.runWith turns stopAfter s).outcome.session? = some s') : R.Inv s' := by
  have hhand : ∀ outputs t value, R.Inv t → R.Inv (Stmt.handOver stopAfter outputs t value).2 := by
    intro outputs t value ht
    obtain h | h := Stmt.session_handOver stopAfter outputs t value <;> rw [h]
    · exact ht
    · exact hflag t ht
  have hrun := runWith_keeps (R := fun _ => R) (fun stmt hstmt _ => hexec stmt hstmt) hhand rfl hI
  exact (hrun.session hend).2

/-! Steps of an execution, read backwards. -/

namespace Action

variable {α β : Type}

theorem bind_eq_done {x : Action α} {f : α → Action β} {s s' : Session} {b : β}
    (h : (x >>= f) s = .done b s') : ∃ a t, x s = .done a t ∧ f a t = .done b s' := by
  rw [bind_apply] at h
  cases hx : x s with
  | done a t =>
    rw [hx] at h
    exact ⟨a, t, rfl, h⟩
  | halted fault t =>
    rw [hx] at h
    cases h
  | unfinished =>
    rw [hx] at h
    cases h

theorem session?_nested {x : Action α} {s t : Session} (h : (nested x s).session? = some t) :
    (s.settings.maxDepth ≤ s.depth ∧ t = s) ∨
      (¬s.settings.maxDepth ≤ s.depth ∧
        ∃ u, (x { s with depth := s.depth + 1 }).session? = some u ∧ t = leave u) := by
  simp only [nested] at h
  by_cases hdeep : s.settings.maxDepth ≤ s.depth
  · rw [if_pos hdeep] at h
    cases h
    exact .inl ⟨hdeep, rfl⟩
  · rw [if_neg hdeep] at h
    refine .inr ⟨hdeep, ?_⟩
    cases hx : x { s with depth := s.depth + 1 } with
    | done a u =>
      rw [hx] at h
      cases h
      exact ⟨u, rfl, rfl⟩
    | halted fault u =>
      rw [hx] at h
      cases h
      exact ⟨u, rfl, rfl⟩
    | unfinished =>
      rw [hx] at h
      cases h

theorem nested_eq_done {x : Action α} {s s' : Session} {a : α} (h : nested x s = .done a s') :
    ∃ t', x { s with depth := s.depth + 1 } = .done a t' := by
  rw [nested] at h
  split at h
  · cases h
  · cases hx : x { s with depth := s.depth + 1 } with
    | done b t =>
      rw [hx] at h
      cases h
      exact ⟨t, rfl⟩
    | halted fault t =>
      rw [hx] at h
      cases h
    | unfinished =>
      rw [hx] at h
      cases h

end Action

/-! How many values a run hands over. -/

namespace Stmt

def isExpr : Stmt → Bool
  | .expr _ => true
  | _ => false

theorem done_of_begin {kind : Kind} {p : Position} {work : Action (Option Value)} {s s' : Session}
    {o : Option Value} (h : Action.begin kind p work s = .done o s') :
    ∃ t t', work t = .done o t' := by
  obtain ⟨_, t, -, h⟩ := Action.bind_eq_done h
  obtain ⟨t', h⟩ := Action.nested_eq_done h
  simp only [Action.bind_apply, Action.settings] at h
  split at h
  · obtain ⟨_, u, -, h⟩ := Action.bind_eq_done h
    exact ⟨u, t', h⟩
  · exact ⟨_, t', h⟩

theorem isSome_output? {turns : Nat} {stmt : Stmt} {s s' : Session} {value : Option Value}
    (h : stmt.exec turns s = .done value s') : (stmt.output? value).isSome = stmt.isExpr := by
  cases stmt with
  | expr e =>
    rw [exec] at h
    obtain ⟨t, t', ht⟩ := done_of_begin h
    obtain ⟨v, u, -, hv⟩ := Action.bind_eq_done ht
    cases hv
    rfl
  | _ => rfl

theorem size_handOver (stopAfter : Option Nat) (outputs : Array Value) (s : Session)
    (value : Option Value) :
    (handOver stopAfter outputs s value).1.size = outputs.size + value.isSome.toNat := by
  cases value <;> simp [handOver]

theorem size_outputs_feed {turns : Nat} {stopAfter : Option Nat} {stmts : List Stmt}
    {outputs : Array Value} {s s' : Session}
    (h : (feed turns stopAfter outputs stmts s).outcome = .done () s') :
    (feed turns stopAfter outputs stmts s).outputs.size = outputs.size + stmts.countP isExpr := by
  induction stmts generalizing outputs s with
  | nil => rfl
  | cons stmt rest ih =>
    rw [feed_cons] at h ⊢
    cases hs : stmt.exec turns s with
    | done value t =>
      simp only [hs] at h ⊢
      rw [ih h, size_handOver, isSome_output? hs, List.countP_cons]
      cases stmt.isExpr with
      | true =>
        simp only [Bool.toNat_true, if_true]
        omega
      | false => simp
    | halted fault t => simp [hs] at h
    | unfinished => simp [hs] at h

end Stmt

namespace Program

theorem size_outputs_runWith {turns : Nat} {stopAfter : Option Nat} {p : Program} {s s' : Session}
    (h : (p.runWith turns stopAfter s).outcome = .done () s') :
    (p.runWith turns stopAfter s).outputs.size = p.stmts.countP Stmt.isExpr := by
  simp only [runWith] at h ⊢
  cases hfeed : (Stmt.feed turns stopAfter #[] p.stmts
      (s.emit (.runStarted p.stmts.length))).outcome with
  | done u t =>
    rw [Stmt.size_outputs_feed hfeed, Array.size_empty, Nat.zero_add]
  | halted fault t =>
    simp only [hfeed] at h
    cases h
  | unfinished =>
    simp only [hfeed] at h
    cases h

theorem session?_run (turns : Nat) (p : Program) (s : Session) :
    (p.run turns s).session? = (p.runWith turns none s).outcome.session? := by
  simp only [run]
  cases (p.runWith turns none s).outcome <;> rfl

theorem run_eq_done {turns : Nat} {p : Program} {s s' : Session} {report : Report}
    (h : p.run turns s = .done report s') :
    (p.runWith turns none s).outcome = .done () s' ∧
      report.outputs = (p.runWith turns none s).outputs := by
  simp only [run] at h
  cases hrun : (p.runWith turns none s).outcome <;> rw [hrun] at h <;> cases h
  exact ⟨rfl, rfl⟩

theorem run_eq_halted {turns : Nat} {p : Program} {s s' : Session} {fault : Fault}
    (h : p.run turns s = .halted fault s') :
    (p.runWith turns none s).outcome = .halted fault s' := by
  simp only [run] at h
  cases hrun : (p.runWith turns none s).outcome <;> rw [hrun] at h <;> cases h
  rfl

end Program

end TolerantScript
