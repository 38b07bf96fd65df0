import TolerantScript.Proofs.Feed
import TolerantScript.Proofs.Node
import TolerantScript.Proofs.Simulation
import TolerantScript.Proofs.Task

/-!
The course of a run: all the sessions that it passes through, one small step after the other,
whether it comes to an end or not. What a regime asks for then holds all the way and not at the end
alone.
-/

namespace TolerantScript

open Machine

variable {α β : Type}

/-- Execution that lists the sessions it comes to. -/
def Staged (α : Type) : Type := Session → Outcome α × List Session

instance : Machine Staged where
  pure a := fun s => (.done a s, [])
  bind x f := fun s =>
    match x s with
    | (.done a s', early) => ((f a s').1, early ++ (f a s').2)
    | (.halted fault s', early) => (.halted fault s', early)
    | (.unfinished, early) => (.unfinished, early)
  perform x := fun s => (x s, (x s).session?.toList)
  report position fault := fun s =>
    (.done () (s.record ⟨position, fault⟩), [s.record ⟨position, fault⟩])
  nested x := fun s =>
    let inner := { s with depth := s.depth + 1 }
    (Action.nested (fun s => (x s).1) s,
      if s.settings.maxDepth ≤ s.depth then []
      else inner :: ((x inner).2 ++ (x inner).1.session?.toList.map Action.leave))

/-! The stages lead from the start to the end. -/

inductive Session.Moves (s : Session) : Session → Prop where
  | stay : Moves s s
  | enter (h : s.depth < s.settings.maxDepth) : Moves s { s with depth := s.depth + 1 }
  | leave : Moves s (Action.leave s)
  /-- An event is announced, perhaps with a change of the variables. -/
  | emit (store : Store) (e : Event) : Moves s ({ s with store }.emit e)
  | record (d : Diagnostic) : Moves s (s.record d)
  | interrupt : Moves s s.interrupt

inductive Passes : Session → List Session → Session → Prop where
  | refl (s : Session) : Passes s [] s
  | step {s t u : Session} {stages : List Session} (h : s.Moves t) (rest : Passes t stages u) :
    Passes s (t :: stages) u

namespace Passes

variable {s t u : Session} {stages late : List Session}

theorem move (h : s.Moves t) : Passes s [t] t := .step h (.refl t)

theorem append (h : Passes s stages t) (h' : Passes t late u) : Passes s (stages ++ late) u := by
  induction h with
  | refl s => exact h'
  | step hmove _ ih => exact .step hmove (ih h')

theorem settings (h : Passes s stages t) : t.settings = s.settings := by
  induction h with
  | refl s => rfl
  | step hmove rest ih =>
    rw [ih]
    cases hmove <;> rfl

theorem unique (h : Passes s stages t) (h' : Passes s stages u) : t = u := by
  induction h with
  | refl s =>
    cases h'
    rfl
  | step hmove rest ih =>
    cases h' with
    | step _ rest' => exact ih rest'

theorem split {early : List Session} (h : Passes s (early ++ late) u) :
    ∃ t, Passes s early t ∧ Passes t late u := by
  induction early generalizing s with
  | nil => exact ⟨s, .refl s, h⟩
  | cons v early ih =>
    cases h with
    | step hmove rest =>
      obtain ⟨t, hearly, hlate⟩ := ih rest
      exact ⟨t, .step hmove hearly, hlate⟩

end Passes

namespace Staged

/-- The execution is that of the action, and its stages lead to where it ends. -/
def Follows (x : Staged α) (y : Action α) : Prop :=
  ∀ s, (x s).1 = y s ∧ ∃ t, Passes s (x s).2 t ∧ ∀ u, (y s).session? = some u → u = t

theorem Follows.bind {x : Staged α} {y : Action α} {f : α → Staged β} {g : α → Action β}
    (hx : Follows x y) (hf : ∀ a, Follows (f a) (g a)) : Follows (x >>= f) (y >>= g) := by
  intro s
  obtain ⟨hsame, t, hstages, hend⟩ := hx s
  simp only [Bind.bind]
  rw [← hsame] at hend ⊢
  generalize x s = run at hstages hend ⊢
  obtain ⟨outcome, early⟩ := run
  cases outcome with
  | done a s' =>
    obtain ⟨hsame', u, hlate, hend'⟩ := hf a s'
    rw [← hend s' rfl] at hstages
    exact ⟨hsame', u, hstages.append hlate, hend'⟩
  | halted fault s' => exact ⟨rfl, t, hstages, hend⟩
  | unfinished => exact ⟨rfl, t, hstages, hend⟩

theorem Follows.nested {x : Staged α} {y : Action α} (hx : Follows x y) :
    Follows (nested x) (nested y) := by
  have hfirst : (fun s => (x s).1) = y := funext fun s => (hx s).1
  intro s
  simp only [Machine.nested, hfirst]
  refine ⟨trivial, ?_⟩
  by_cases hdeep : s.settings.maxDepth ≤ s.depth
  · refine ⟨s, ?_, fun u hu => ?_⟩
    · rw [if_pos hdeep]
      exact .refl s
    · obtain ⟨-, rfl⟩ | ⟨hroom, -⟩ := Action.session?_nested hu
      · rfl
      · exact absurd hdeep hroom
  · obtain ⟨hsame, t, hstages, hend⟩ := hx { s with depth := s.depth + 1 }
    have henter : s.Moves { s with depth := s.depth + 1 } := .enter (by omega)
    rw [if_neg hdeep, hsame]
    cases ho : (y { s with depth := s.depth + 1 }).session? with
    | none =>
      refine ⟨t, .step henter (by simpa using hstages), fun u hu => ?_⟩
      obtain ⟨hdeep', -⟩ | ⟨-, v, hv, -⟩ := Action.session?_nested hu
      · exact absurd hdeep' hdeep
      · rw [ho] at hv
        cases hv
    | some v =>
      have hv : v = t := hend v ho
      refine ⟨Action.leave t, .step henter (hstages.append (hv ▸ .move .leave)), fun u hu => ?_⟩
      obtain ⟨hdeep', -⟩ | ⟨-, w, hw, rfl⟩ := Action.session?_nested hu
      · exact absurd hdeep' hdeep
      · rw [hend w hw]

theorem Follows.quiet {x : Action α} (h : x.Quiet) : Follows (perform x) x := by
  intro s
  refine ⟨rfl, ?_⟩
  simp only [perform]
  cases ho : (x s).session? with
  | none => exact ⟨s, .refl s, fun u hu => by cases hu⟩
  | some t =>
    have hmove : s.Moves t := by
      obtain rfl | ⟨store, e, rfl⟩ := h.session_cases ho
      · exact .stay
      · exact .emit store e
    exact ⟨t, .move hmove, fun u hu => (Option.some.inj hu).symm⟩

def following : Simulation Staged Action where
  Rel := Follows
  pure _ := fun s => ⟨rfl, s, .refl s, fun _ hu => (Option.some.inj hu).symm⟩
  bind := Follows.bind
  nested := Follows.nested
  quiet := Follows.quiet
  report p fault := fun _ =>
    ⟨rfl, _, .move (.record ⟨p, fault⟩), fun _ hu => (Option.some.inj hu).symm⟩

theorem exec_follows (turns : Nat) (stmt : Stmt) :
    Follows (stmt.execIn Staged turns) (stmt.exec turns) := by
  have h := following.exec turns stmt
  rw [Stmt.execIn_action] at h
  exact h

end Staged

/-! A regime that is kept to all the way. -/

namespace Regime

variable {R : Regime} {d : Nat}

def Governs (R : Regime) (d : Nat) (Q : α → Prop) (run : Outcome α × List Session) : Prop :=
  R.Holds d Q run.1 ∧ ∀ t ∈ run.2, R.Inv t

/-- Started at depth `d` under the regime, the execution stays under it all the way. -/
def Throughout (R : Regime) (d : Nat) (x : Staged α) (Q : α → Prop) : Prop :=
  ∀ s, s.depth = d → R.Inv s → R.Governs d Q (x s)

theorem Throughout.pure {a : α} {Q : α → Prop} (h : Q a) : R.Throughout d (pure a) Q := by
  intro s hd hI
  exact ⟨⟨hd, hI, h⟩, by simp [Pure.pure]⟩

theorem Throughout.bind {x : Staged α} {f : α → Staged β} {P : α → Prop} {Q : β → Prop}
    (hx : R.Throughout d x P) (hf : ∀ a, P a → R.Throughout d (f a) Q) :
    R.Throughout d (x >>= f) Q := by
  intro s hd hI
  have hfirst := hx s hd hI
  simp only [Bind.bind]
  generalize x s = run at hfirst ⊢
  obtain ⟨outcome, early⟩ := run
  cases outcome with
  | done a s' =>
    obtain ⟨⟨hd', hI', ha⟩, hearly⟩ := hfirst
    obtain ⟨hholds, hlate⟩ := hf a ha s' hd' hI'
    refine ⟨hholds, fun t ht => ?_⟩
    obtain ht | ht := List.mem_append.mp ht
    · exact hearly t ht
    · exact hlate t ht
  | halted fault s' => exact hfirst
  | unfinished => exact hfirst

theorem Throughout.weaken {x : Staged α} {P Q : α → Prop} (hx : R.Throughout d x P)
    (hPQ : ∀ a, P a → Q a) : R.Throughout d x Q := by
  intro s hd hI
  obtain ⟨hholds, hstages⟩ := hx s hd hI
  refine ⟨?_, hstages⟩
  generalize (x s).1 = o at hholds
  cases o with
  | done a t => exact ⟨hholds.1, hholds.2.1, hPQ a hholds.2.2⟩
  | halted fault t => exact hholds
  | unfinished => trivial

theorem Throughout.perform {x : Action α} {Q : α → Prop} (h : R.Keeps d x Q) :
    R.Throughout d (perform x) Q := by
  intro s hd hI
  have hholds := h s hd hI
  refine ⟨hholds, fun t ht => ?_⟩
  have hend : (x s).session? = some t := by simpa [Machine.perform] using ht
  exact (hholds.session hend).2

theorem Throughout.report {p : Position} {fault : Fault} (h : R.Records p fault) :
    R.Throughout d (report p fault) fun _ => True := by
  intro s hd hI
  have hrecord := h s hI
  refine ⟨⟨hd, hrecord, trivial⟩, fun t ht => ?_⟩
  rw [List.mem_singleton.mp ht]
  exact hrecord

theorem Throughout.nested {x : Staged α} {Q : α → Prop} (he : R.Enters d)
    (hx : R.Throughout (d + 1) x Q) : R.Throughout d (nested x) Q := by
  have hkeeps : R.Keeps (d + 1) (fun s => (x s).1) Q := fun s hd hI => (hx s hd hI).1
  intro s hd hI
  refine ⟨Keeps.nested he hkeeps s hd hI, fun t ht => ?_⟩
  simp only [Machine.nested] at ht
  by_cases hdeep : s.settings.maxDepth ≤ s.depth
  · simp [hdeep] at ht
  · have henter : R.Inv { s with depth := s.depth + 1 } := R.inv_enter s (by omega) hI
    obtain ⟨hholds, hstages⟩ := hx { s with depth := s.depth + 1 } (congrArg (· + 1) hd) henter
    rw [if_neg hdeep, List.mem_cons, List.mem_append, List.mem_map] at ht
    obtain rfl | hin | ⟨u, hu, rfl⟩ := ht
    · exact henter
    · exact hstages t hin
    · have hend := hholds.session (Option.mem_toList.mp hu)
      exact R.inv_leave u hend.2

theorem Throughout.read {x : Action β} {look : Session → β} {f : β → Staged α} {Q : α → Prop}
    (hx : ∀ s, x s = .done (look s) s)
    (hf : ∀ s, s.depth = d → R.Inv s → R.Governs d Q (f (look s) s)) :
    R.Throughout d (Machine.perform x >>= f) Q := by
  intro s hd hI
  obtain ⟨hholds, hstages⟩ := hf s hd hI
  simp only [Bind.bind, Machine.perform, hx s]
  refine ⟨hholds, fun t ht => ?_⟩
  obtain rfl | ht := List.mem_cons.mp ht
  · exact hI
  · exact hstages t ht

theorem governs_recover {p : Position} {fallback : Value} {r : Except Fault Value}
    {Q : Value → Prop} {s : Session} (hI : R.Inv s)
    (h : R.Holds d Q (Action.recover p fallback r s)) :
    R.Governs d Q ((recover p fallback r : Staged Value) s) := by
  cases r with
  | ok v => exact ⟨h, by simp [Machine.recover, Pure.pure]⟩
  | error fault =>
    cases hfatal : fault.isFatal with
    | true =>
      simp only [Action.recover, hfatal, if_true] at h
      simp only [Machine.recover, hfatal, if_true]
      refine ⟨h, fun t ht => ?_⟩
      rw [List.mem_singleton.mp ht]
      exact hI
    | false =>
      simp only [Action.recover, hfatal] at h
      simp only [Machine.recover, hfatal]
      refine ⟨h, fun t ht => ?_⟩
      rw [List.mem_singleton.mp ht]
      exact h.2.1

theorem Throughout.recover {p : Position} {fallback : Value} {r : Except Fault Value}
    {Q : Value → Prop} (h : R.Keeps d (Action.recover p fallback r) Q) :
    R.Throughout d (recover p fallback r) Q :=
  fun s hd hI => governs_recover hI (h s hd hI)

theorem Throughout.assignTo {target : Ident} {value : Value} {Q : Option Value → Prop}
    (h : R.Keeps d (Action.assignTo target value) Q) :
    R.Throughout d (assignTo target value) Q := by
  intro s hd hI
  have hholds := h s hd hI
  simp only [Action.assignTo, Action.bind_apply, Action.store] at hholds
  simp only [Machine.assignTo, Bind.bind, Machine.perform, Action.assign_apply]
  cases hs : s.store.assign target.name value with
  | ok r =>
    rw [hs] at hholds
    refine ⟨hholds, fun t ht => ?_⟩
    rw [List.mem_singleton.mp ht]
    exact hholds.2.1
  | error fault =>
    rw [hs] at hholds
    refine ⟨hholds, fun t ht => ?_⟩
    obtain rfl | ht := List.mem_cons.mp ht
    · exact hI
    · rw [List.mem_singleton.mp ht]
      exact hholds.2.1

theorem Throughout.declareAll {ty : Ty} {names : List Ident}
    (h : ∀ x ∈ names, R.Keeps d (Action.declareAll ty [x]) fun _ => True) :
    R.Throughout d (declareAll ty names) fun _ => True := by
  induction names with
  | nil => exact Throughout.pure trivial
  | cons x rest ih =>
    have hrest := ih fun y hy => h y (List.mem_cons_of_mem x hy)
    intro s hd hI
    have hholds := h x List.mem_cons_self s hd hI
    simp only [Action.declareAll, Action.bind_apply, Action.store] at hholds
    simp only [Machine.declareAll, Bind.bind, Machine.perform, Action.declare_apply]
    cases hs : s.store.declare x.name ty with
    | ok store =>
      rw [hs] at hholds
      obtain ⟨hlast, hlate⟩ := hrest _ hholds.1 hholds.2.1
      refine ⟨hlast, fun t ht => ?_⟩
      obtain rfl | ht := List.mem_cons.mp ht
      · exact hholds.2.1
      · exact hlate t ht
    | error fault =>
      rw [hs] at hholds
      obtain ⟨hlast, hlate⟩ := hrest _ hholds.1 hholds.2.1
      refine ⟨hlast, fun t ht => ?_⟩
      obtain rfl | ht := List.mem_cons.mp ht
      · exact hI
      · obtain rfl | ht := List.mem_cons.mp ht
        · exact hholds.2.1
        · exact hlate t ht

def staged (R : Regime) : Accord Staged Staged where
  Rel d x _ Q := R.Throughout d x Q
  pure := Throughout.pure
  bind := Throughout.bind
  weaken := Throughout.weaken
  giveUp := Throughout.perform fun _ _ _ => trivial
  announce kind p := Throughout.perform (R.keeps_announce kind p)
  mark h := Throughout.perform (Keeps.mark h)

end Regime

theorem Expr.Keeps.staged {R : Regime} {Q : Expr → Value → Prop} {node : Expr} {d : Nat}
    (h : node.Keeps R Q d) : node.Agrees R.staged Q d := by
  cases node with
  | literal l p => exact Regime.Throughout.recover h
  | var name p =>
    exact Regime.Throughout.read (fun _ => rfl) fun s hd hI => Regime.governs_recover hI (h s hd hI)
  | binary op l r p =>
    cases hop : op.isLogical with
    | true =>
      simp only [Expr.Keeps, hop, if_true] at h
      simp only [Agrees, hop, if_true]
      exact ⟨fun v hv fault hfault => Regime.Throughout.report (h.1 v hv fault hfault), h.2⟩
    | false =>
      simp only [Expr.Keeps, hop] at h
      simp only [Agrees, hop]
      intro a b ha hb
      exact Regime.Throughout.read (fun _ => rfl) fun s hd hI =>
        Regime.governs_recover hI (h a b ha hb s hd hI)
  | unary op e p => exact fun a ha => Regime.Throughout.recover (h a ha)
  | paren e p => exact h

theorem Expr.throughout_eval {R : Regime} {Q : Expr → Value → Prop} (e : Expr) (d : Nat)
    (h : ∀ k node, (k, node) ∈ e.nodes d → R.Enters k ∧ node.Keeps R Q (k + 1)) :
    R.Throughout d (e.evalIn Staged) (Q e) := by
  have heval := eval_agrees (A := R.staged) e d fun k node hk =>
    ⟨Regime.Throughout.nested (h k node hk).1, (h k node hk).2.staged⟩
  exact heval

/-! Whole runs. -/

namespace Stmt

def stages (turns : Nat) (stopAfter : Option Nat) (outputs : Array Value) :
    List Stmt → Session → List Session
  | [], _ => []
  | stmt :: rest, s =>
    match stmt.execIn Staged turns s with
    | (.done value s', early) =>
      let next := handOver stopAfter outputs s' (stmt.output? value)
      early ++ next.2 :: stages turns stopAfter next.1 rest next.2
    | (_, early) => early

theorem moves_handOver (stopAfter : Option Nat) (outputs : Array Value) (s : Session)
    (value : Option Value) : s.Moves (handOver stopAfter outputs s value).2 := by
  obtain h | h := session_handOver stopAfter outputs s value <;> rw [h]
  · exact .stay
  · exact .interrupt

theorem passes_stages (turns : Nat) (stopAfter : Option Nat) (stmts : List Stmt)
    (outputs : Array Value) (s : Session) :
    ∃ t, Passes s (stages turns stopAfter outputs stmts s) t ∧
      ∀ u, (feed turns stopAfter outputs stmts s).outcome.session? = some u → u = t := by
  induction stmts generalizing outputs s with
  | nil => exact ⟨s, .refl s, fun _ hu => (Option.some.inj hu).symm⟩
  | cons stmt rest ih =>
    obtain ⟨hsame, t, hearly, hend⟩ := Staged.exec_follows turns stmt s
    rw [feed_cons, stages, ← hsame]
    rw [← hsame] at hend
    generalize stmt.execIn Staged turns s = run at hearly hend ⊢
    obtain ⟨outcome, early⟩ := run
    cases outcome with
    | done value s' =>
      have hhand := moves_handOver stopAfter outputs s' (stmt.output? value)
      obtain ⟨u, hlate, hend'⟩ := ih (handOver stopAfter outputs s' (stmt.output? value)).1
        (handOver stopAfter outputs s' (stmt.output? value)).2
      rw [← hend s' rfl] at hearly
      exact ⟨u, hearly.append (.step hhand hlate), hend'⟩
    | halted fault s' => exact ⟨t, hearly, hend⟩
    | unfinished => exact ⟨t, hearly, hend⟩

theorem governs_feed {R : Regime} {Q : Value → Prop} {d turns : Nat} {stmts : List Stmt}
    (hexec : ∀ stmt ∈ stmts,
      R.Throughout d (stmt.execIn Staged turns) fun o => ∀ v, o = some v → Q v)
    (hflag : ∀ t, R.Inv t → R.Inv t.interrupt) (stopAfter : Option Nat) {outputs : Array Value}
    {s : Session} (hd : s.depth = d) (hI : R.Inv s) (houtputs : ∀ v ∈ outputs, Q v) :
    (∀ t ∈ stages turns stopAfter outputs stmts s, R.Inv t) ∧
      ∀ v ∈ (feed turns stopAfter outputs stmts s).outputs, Q v := by
  induction stmts generalizing outputs s with
  | nil => exact ⟨by simp [stages], houtputs⟩
  | cons stmt rest ih =>
    have hrest := fun stmt hstmt => hexec stmt (List.mem_cons_of_mem _ hstmt)
    have hfirst := hexec stmt List.mem_cons_self s hd hI
    rw [feed_cons, stages, ← (Staged.exec_follows turns stmt s).1]
    generalize stmt.execIn Staged turns s = run at hfirst ⊢
    obtain ⟨outcome, early⟩ := run
    obtain ⟨hholds, hearly⟩ := hfirst
    cases outcome with
    | done value s' =>
      obtain ⟨hd', hI', hvalue⟩ := hholds
      obtain ⟨hd'', hI''⟩ : (handOver stopAfter outputs s' (stmt.output? value)).2.depth = d ∧
          R.Inv (handOver stopAfter outputs s' (stmt.output? value)).2 := by
        obtain h | h := session_handOver stopAfter outputs s' (stmt.output? value) <;> rw [h]
        · exact ⟨hd', hI'⟩
        · exact ⟨hd', hflag s' hI'⟩
      have houtputs' : ∀ v ∈ (handOver stopAfter outputs s' (stmt.output? value)).1, Q v := by
        cases hout : stmt.output? value with
        | none => exact houtputs
        | some w =>
          have hw : value = some w := by
            cases stmt with
            | expr e => exact hout
            | _ => cases hout
          intro v hv
          obtain hv | rfl := Array.mem_push.mp hv
          · exact houtputs v hv
          · exact hvalue v hw
      obtain ⟨hlate, hall⟩ := ih hrest hd'' hI'' houtputs'
      refine ⟨fun t ht => ?_, hall⟩
      obtain ht | ht := List.mem_append.mp ht
      · exact hearly t ht
      · obtain rfl | ht := List.mem_cons.mp ht
        · exact hI''
        · exact hlate t ht
    | halted fault s' => exact ⟨hearly, houtputs⟩
    | unfinished => exact ⟨hearly, houtputs⟩

end Stmt

namespace Program

def stages (turns : Nat) (stopAfter : Option Nat) (p : Program) (s : Session) : List Session :=
  let started := s.emit (.runStarted p.stmts.length)
  started :: (Stmt.stages turns stopAfter #[] p.stmts started ++
    match p.runWith turns stopAfter s with
    | ⟨_, .done _ t⟩ => [t]
    | _ => [])

theorem passes_stages (turns : Nat) (stopAfter : Option Nat) (p : Program) (s : Session) :
    ∃ t, Passes s (p.stages turns stopAfter s) t ∧
      ∀ u, (p.runWith turns stopAfter s).outcome.session? = some u → u = t := by
  have hstart : s.Moves (s.emit (.runStarted p.stmts.length)) := .emit s.store _
  obtain ⟨t, hstages, hend⟩ := Stmt.passes_stages turns stopAfter p.stmts #[]
    (s.emit (.runStarted p.stmts.length))
  simp only [stages, runWith]
  generalize Stmt.feed turns stopAfter #[] p.stmts (s.emit (.runStarted p.stmts.length)) = run
    at hend ⊢
  obtain ⟨outputs, outcome⟩ := run
  cases outcome with
  | done u s' =>
    rw [← hend s' rfl] at hstages
    refine ⟨_, .step hstart (hstages.append (.move (.emit s'.store _))), fun u hu => ?_⟩
    exact (Option.some.inj hu).symm
  | halted fault s' => exact ⟨t, .step hstart (by simpa using hstages), hend⟩
  | unfinished => exact ⟨t, .step hstart (by simpa using hstages), hend⟩

theorem governs_runWith {R : Regime} {Q : Value → Prop} {turns : Nat} {p : Program} {s : Session}
    (hexec : ∀ stmt ∈ p.stmts,
      R.Throughout s.depth (stmt.execIn Staged turns) fun o => ∀ v, o = some v → Q v)
    (hflag : ∀ t, R.Inv t → R.Inv t.interrupt) (hI : R.Inv s) (stopAfter : Option Nat) :
    (∀ t ∈ p.stages turns stopAfter s, R.Inv t) ∧
      (∀ v ∈ (p.runWith turns stopAfter s).outputs, Q v) ∧
      ∀ t, (p.runWith turns stopAfter s).outcome.session? = some t → R.Inv t := by
  have hstart : R.Inv (s.emit (.runStarted p.stmts.length)) := R.inv_mark s _ rfl hI
  have hkeeps : ∀ stmt ∈ p.stmts, R.Keeps s.depth (stmt.exec turns) fun _ => True := by
    intro stmt hstmt t hd ht
    have hholds := ((hexec stmt hstmt).weaken fun _ _ => trivial) t hd ht
    rw [← (Staged.exec_follows turns stmt t).1]
    exact hholds.1
  have hend : ∀ t, (p.runWith turns stopAfter s).outcome.session? = some t → R.Inv t :=
    fun t => inv_of_runWith hkeeps hflag hI
  have hnone : ∀ v ∈ (#[] : Array Value), Q v := by simp
  obtain ⟨hstages, houtputs⟩ := Stmt.governs_feed hexec hflag stopAfter
    (s := s.emit (.runStarted p.stmts.length)) rfl hstart hnone
  refine ⟨fun t ht => ?_, fun v hv => ?_, hend⟩
  · simp only [stages, List.mem_cons, List.mem_append] at ht
    obtain rfl | ht | ht := ht
    · exact hstart
    · exact hstages t ht
    · split at ht
      case h_1 outputs u t' hrun =>
        rw [List.mem_singleton.mp ht]
        exact hend t' (by rw [hrun]; rfl)
      case h_2 => cases ht
  · refine houtputs v ?_
    simp only [runWith] at hv
    split at hv <;> exact hv

end Program

end TolerantScript
