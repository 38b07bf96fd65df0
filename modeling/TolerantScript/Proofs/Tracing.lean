import TolerantScript.Proofs.Untraced
import TolerantScript.Proofs.Visit

/-!
What tracing adds to a run. A run that traces announces the start of the statements which pass their
checks, one for one and before anything else they do; apart from these announcements it is the run
that does not trace.
-/

namespace TolerantScript

open Machine

variable {α β : Type}

namespace Staged

/-- The execution is that of the action, and makes the visits. -/
structure Accounts (x : Staged α) (y : Action α) (visits : Session → List Visit) : Prop where
  follows : Follows x y
  account : ∀ s, Account s (x s).2 (visits s)

namespace Accounts

variable {x : Staged α} {y : Action α} {visits : Session → List Visit}

theorem congr {visits' : Session → List Visit} (h : Accounts x y visits)
    (hvisits : ∀ s, visits' s = visits s) : Accounts x y visits' :=
  ⟨h.follows, fun s => hvisits s ▸ h.account s⟩

theorem pure (a : α) : Accounts (pure a) (pure a) fun _ => [] where
  follows := following.pure a
  account := Account.refl

theorem bind {f : α → Staged β} {g : α → Action β} {later : α → Session → List Visit}
    (hx : Accounts x y visits) (hf : ∀ a, Accounts (f a) (g a) (later a)) :
    Accounts (x >>= f) (y >>= g) fun s => visits s ++ (y s).onward later where
  follows := hx.follows.bind fun a => (hf a).follows
  account := by
    intro s
    obtain ⟨hsame, t, hpass, hend⟩ := hx.follows s
    have hfirst := hx.account s
    simp only [Bind.bind]
    rw [← hsame] at hend ⊢
    generalize x s = run at hpass hend hfirst ⊢
    obtain ⟨outcome, early⟩ := run
    cases outcome with
    | done a s' =>
      have hs' := hend s' rfl
      subst hs'
      exact hfirst.append hpass ((hf a).account s')
    | halted fault s' => exact (List.append_nil (visits s)).symm ▸ hfirst
    | unfinished => exact (List.append_nil (visits s)).symm ▸ hfirst

theorem bind_silent {f : α → Staged β} {g : α → Action β} (hx : Accounts x y fun _ => [])
    (hf : ∀ a, Accounts (f a) (g a) fun _ => []) : Accounts (x >>= f) (y >>= g) fun _ => [] :=
  (hx.bind hf).congr fun s => (Outcome.onward_nil (y s)).symm

theorem nested (hx : Accounts x y fun _ => []) : Accounts (nested x) (nested y) fun _ => [] where
  follows := hx.follows.nested
  account := by
    intro s
    simp only [Machine.nested]
    by_cases hdeep : s.settings.maxDepth ≤ s.depth
    · rw [if_pos hdeep]
      exact .refl s
    · obtain ⟨hsame, t, hpass, hend⟩ := hx.follows { s with depth := s.depth + 1 }
      rw [if_neg hdeep, hsame]
      have henter : Account s [{ s with depth := s.depth + 1 }] [] := .silent rfl
      have hmove : Passes s [{ s with depth := s.depth + 1 }] { s with depth := s.depth + 1 } :=
        .move (.enter (by omega))
      exact henter.append hmove ((hx.account _).left hpass hend)

theorem quiet {x : Action α} (h : x.Quiet)
    (hstarts : ∀ s t, (x s).session? = some t → t.starts = s.starts) :
    Accounts (perform x) x fun _ => [] where
  follows := Follows.quiet h
  account := by
    intro s
    simp only [perform]
    cases ho : (x s).session? with
    | none => exact .refl s
    | some t => exact .silent (hstarts s t ho)

theorem report (p : Position) (fault : Fault) :
    Accounts (report p fault) (Machine.report p fault) fun _ => [] where
  follows := following.report p fault
  account := fun _ => .silent (Session.starts_tell (e := .recorded ⟨p, fault⟩) rfl)

theorem emit {e : Event} (h : (Action.emit e).Quiet) (he : e.isTrace = false) :
    Accounts (perform (Action.emit e)) (Action.emit e) fun _ => [] := by
  refine quiet h fun s t ht => ?_
  cases ht
  exact Session.starts_tell he

theorem checkInterrupt :
    Accounts (perform Action.checkInterrupt) Action.checkInterrupt fun _ => [] := by
  refine quiet .checkInterrupt fun s t ht => ?_
  simp only [Action.checkInterrupt] at ht
  split at ht <;> exact Option.some.inj ht ▸ rfl

theorem halt (fault : Fault) :
    Accounts (perform (Action.halt fault : Action α)) (Action.halt fault) fun _ => [] :=
  quiet (.halt fault) fun _ _ ht => Option.some.inj ht ▸ rfl

theorem declare (name : String) (ty : Ty) :
    Accounts (perform (Action.declare name ty)) (Action.declare name ty) fun _ => [] := by
  refine quiet (.declare name ty) fun s t ht => ?_
  rw [Action.declare_apply] at ht
  split at ht
  case h_1 extended hok =>
    cases ht
    exact Session.starts_tell (s := { s with store := extended }) rfl
  case h_2 => exact Option.some.inj ht ▸ rfl

theorem assign (name : String) (value : Value) :
    Accounts (perform (Action.assign name value)) (Action.assign name value) fun _ => [] := by
  refine quiet (.assign name value) fun s t ht => ?_
  rw [Action.assign_apply] at ht
  split at ht
  case h_1 stored changed hok =>
    cases ht
    exact Session.starts_tell (s := { s with store := changed }) rfl
  case h_2 => exact Option.some.inj ht ▸ rfl

theorem declareAll (ty : Ty) (names : List Ident) :
    Accounts (Machine.declareAll ty names) (Machine.declareAll ty names) fun _ => [] := by
  induction names with
  | nil => exact pure ()
  | cons x rest ih =>
    refine bind_silent (declare x.name ty) fun r => ?_
    cases r with
    | ok u => exact ih
    | error fault => exact bind_silent (report x.position fault) fun _ => ih

theorem assignTo (target : Ident) (value : Value) :
    Accounts (Machine.assignTo target value) (Machine.assignTo target value) fun _ => [] := by
  refine bind_silent (assign target.name value) fun r => ?_
  cases r with
  | ok stored => exact pure (some stored)
  | error fault => exact bind_silent (report target.position fault) fun _ => pure none

theorem whileLoop {test : Staged Bool} {test' : Action Bool} {x : Staged (Option Value)}
    {y : Action (Option Value)} (ht : Accounts test test' fun _ => []) (hb : Accounts x y visits)
    (turns count : Nat) :
    Accounts (Machine.whileLoop test x turns count) (Machine.whileLoop test' y turns count)
      (Action.whileVisits test' y visits turns) := by
  induction turns generalizing count with
  | zero => exact quiet .giveUp fun _ _ h => by cases h
  | succ turns ih =>
    refine checkInterrupt.bind fun _ => ht.bind fun holds => ?_
    cases holds with
    | true => exact hb.bind fun _ => ih (count + 1)
    | false => exact bind_silent (emit (.whileFinished count) rfl) fun _ => pure none

theorem doWhileLoop {test : Staged Bool} {test' : Action Bool} {x : Staged (Option Value)}
    {y : Action (Option Value)} (ht : Accounts test test' fun _ => []) (hb : Accounts x y visits)
    (turns count : Nat) :
    Accounts (Machine.doWhileLoop test x turns count) (Machine.doWhileLoop test' y turns count)
      (Action.doWhileVisits test' y visits turns) := by
  induction turns generalizing count with
  | zero => exact quiet .giveUp fun _ _ h => by cases h
  | succ turns ih =>
    refine checkInterrupt.bind fun _ => hb.bind fun _ => ht.bind fun holds => ?_
    cases holds with
    | true => exact ih (count + 1)
    | false => exact bind_silent (emit (.doWhileFinished (count + 1)) rfl) fun _ => pure none

end Accounts

def silence : Evaluation Staged Action where
  Rel x y := Accounts x y fun _ => []
  pure := Accounts.pure
  bind := Accounts.bind_silent
  nested := Accounts.nested
  halt := Accounts.halt
  lookup name := .quiet (.lookup name) fun _ _ ht => Option.some.inj ht ▸ rfl
  operate op l r := .quiet (.operate op l r) fun _ _ ht => Option.some.inj ht ▸ rfl
  report := Accounts.report

/-! How a statement is entered. -/

theorem bind_of_done {x : Staged α} {f : α → Staged β} {a : α} {s t : Session}
    {early : List Session} (h : x s = (.done a t, early)) :
    (x >>= f) s = ((f a t).1, early ++ (f a t).2) := by
  simp only [Bind.bind, h]

theorem checkInterrupt_of_calm {s : Session} (hflag : ¬s.interrupted = true) :
    (perform Action.checkInterrupt : Staged Unit) s = (.done () s, [s]) := by
  simp only [perform, Action.checkInterrupt, if_neg hflag]
  rfl

variable {x : Staged (Option Value)} {s : Session}

theorem begin_of_refusal {fault : Fault} (h : s.refusal? = some fault) (kind : Stmt.Kind)
    (p : Position) : (Machine.begin kind p x s).2 = [s] := by
  rw [Session.refusal?] at h
  split at h
  case isTrue hflag =>
    simp only [Machine.begin, Bind.bind, perform, Action.checkInterrupt, if_pos hflag,
      Outcome.session?, Option.toList_some]
  case isFalse hflag =>
    split at h
    case isTrue hdeep =>
      rw [Machine.begin, bind_of_done (checkInterrupt_of_calm hflag)]
      simp only [Machine.nested, if_pos hdeep, List.append_nil]
    case isFalse => cases h

theorem begin_of_admitted (h : s.refusal? = none) (kind : Stmt.Kind) (p : Position) :
    (Machine.begin kind p x s).2 =
      [s, { s with depth := s.depth + 1 }, s.inside kind p] ++
        ((x (s.inside kind p)).2 ++ (x (s.inside kind p)).1.session?.toList.map Action.leave) := by
  obtain ⟨hflag, hroom⟩ := s.refusal?_eq_none_iff.mp h
  have hannounce :
      (perform (Action.announce kind p) : Staged Unit) { s with depth := s.depth + 1 } =
        (.done () (s.inside kind p), [s.inside kind p]) := by
    simp only [perform, Action.announce, Action.bind_apply, Action.settings, Session.inside]
    cases s.settings.trace <;> rfl
  rw [Machine.begin, bind_of_done (checkInterrupt_of_calm (Bool.eq_false_iff.mp hflag))]
  simp only [Machine.nested, if_neg (Nat.not_le.mpr hroom), bind_of_done hannounce]
  rfl

theorem Accounts.begin {y : Action (Option Value)} {visits : Session → List Visit}
    (hx : Accounts x y visits) (stmt : Stmt) :
    Accounts (Machine.begin stmt.kind stmt.position x) (Machine.begin stmt.kind stmt.position y)
      fun s => ⟨stmt, s⟩ ::
        if s.refusal?.isSome then [] else visits (s.inside stmt.kind stmt.position) where
  follows := following.begin _ _ hx.follows
  account := by
    intro s
    cases hrefusal : s.refusal? with
    | some fault =>
      rw [begin_of_refusal hrefusal]
      exact .refused hrefusal stmt
    | none =>
      -- the statement's own visit is over once it has announced itself; the rest is its work's
      obtain ⟨hsame, t, hpass, hend⟩ := hx.follows (s.inside stmt.kind stmt.position)
      rw [begin_of_admitted hrefusal, hsame]
      exact (Account.admitted hrefusal stmt).append (.inside hrefusal _ _)
        ((hx.account _).left hpass hend)

end Staged

/-! Statements and runs. -/

theorem Expr.test_accounts (e : Expr) : Staged.Accounts (e.testIn Staged) e.test fun _ => [] := by
  rw [← testIn_action]
  exact Staged.silence.test e

open Staged in
mutual

theorem Stmt.exec_accounts (turns : Nat) : (stmt : Stmt) →
    Accounts (stmt.execIn Staged turns) (stmt.exec turns) (stmt.visits turns)
  | .expr e => by
    rw [← Stmt.execIn_action, Stmt.execIn, Stmt.execIn]
    exact (Accounts.begin (silence.bind (silence.eval e) fun v => .pure (some v))
      (.expr e)).congr fun _ => rfl
  | .declare none names p => by
    rw [← Stmt.execIn_action, Stmt.execIn, Stmt.execIn]
    exact (Accounts.begin (.halt (.missingType p)) (.declare none names p)).congr fun _ => rfl
  | .declare (some ty) names p => by
    rw [← Stmt.execIn_action, Stmt.execIn, Stmt.execIn]
    exact (Accounts.begin (silence.bind (.declareAll ty names) fun _ => .pure none)
      (.declare (some ty) names p)).congr fun _ => rfl
  | .assign target e => by
    rw [← Stmt.execIn_action, Stmt.execIn, Stmt.execIn]
    exact (Accounts.begin (silence.bind (silence.eval e) fun v => .assignTo target v)
      (.assign target e)).congr fun _ => rfl
  | .empty p => by
    rw [← Stmt.execIn_action, Stmt.execIn, Stmt.execIn]
    exact (Accounts.begin (.pure none) (.empty p)).congr fun _ => rfl
  | .block stmts p => by
    rw [Stmt.execIn, Stmt.exec, ← begin_action]
    exact (Accounts.begin (Stmt.execAll_accounts turns stmts none)
      (.block stmts p)).congr fun _ => rfl
  | .branch cond yes no p => by
    rw [Stmt.execIn, Stmt.exec, ← begin_action]
    have harm : ∀ holds : Bool, Accounts
        (if holds then yes.execIn Staged turns else Stmt.execElseIn Staged turns no)
        (if holds then yes.exec turns else Stmt.execElse turns no)
        fun s => if holds then yes.visits turns s else Stmt.visitsElse turns no s
      | true => Stmt.exec_accounts turns yes
      | false => Stmt.execElse_accounts turns no
    exact (Accounts.begin (cond.test_accounts.bind harm) (.branch cond yes no p)).congr fun _ => rfl
  | .whileDo cond body p => by
    rw [Stmt.execIn, Stmt.exec, ← begin_action, ← whileLoop_action]
    exact (Accounts.begin (.whileLoop cond.test_accounts (Stmt.exec_accounts turns body) turns 0)
      (.whileDo cond body p)).congr fun _ => rfl
  | .doWhile body cond p => by
    rw [Stmt.execIn, Stmt.exec, ← begin_action, ← doWhileLoop_action]
    exact (Accounts.begin (.doWhileLoop cond.test_accounts (Stmt.exec_accounts turns body) turns 0)
      (.doWhile body cond p)).congr fun _ => rfl

theorem Stmt.execAll_accounts (turns : Nat) : (stmts : List Stmt) → (last : Option Value) →
    Accounts (Stmt.execAllIn Staged turns last stmts) (Stmt.execAll turns last stmts)
      (Stmt.visitsAll turns stmts)
  | [], last => by
    simp only [Stmt.execAllIn, Stmt.execAll]
    exact (Accounts.pure last).congr fun _ => rfl
  | stmt :: rest, last => by
    simp only [Stmt.execAllIn, Stmt.execAll]
    exact ((Stmt.exec_accounts turns stmt).bind fun value =>
      Stmt.execAll_accounts turns rest value).congr fun _ => rfl

theorem Stmt.execElse_accounts (turns : Nat) : (no : Option Stmt) →
    Accounts (Stmt.execElseIn Staged turns no) (Stmt.execElse turns no) (Stmt.visitsElse turns no)
  | none => by
    simp only [Stmt.execElseIn, Stmt.execElse]
    exact (Accounts.pure none).congr fun _ => rfl
  | some stmt => by
    simp only [Stmt.execElseIn, Stmt.execElse]
    exact (Stmt.exec_accounts turns stmt).congr fun _ => rfl

end

namespace Stmt

theorem account_feed (turns : Nat) (stopAfter : Option Nat) (stmts : List Stmt)
    (outputs : Array Value) (s : Session) :
    Account s (stages turns stopAfter outputs stmts s)
      (feedVisits turns stopAfter outputs stmts s) := by
  induction stmts generalizing outputs s with
  | nil => exact .refl s
  | cons stmt rest ih =>
    obtain ⟨hsame, t, hpass, hend⟩ := (exec_accounts turns stmt).follows s
    have hfirst := (exec_accounts turns stmt).account s
    rw [stages, feedVisits, ← hsame]
    rw [← hsame] at hend
    generalize stmt.execIn Staged turns s = run at hpass hend hfirst ⊢
    obtain ⟨outcome, early⟩ := run
    cases outcome with
    | done value s' =>
      have hs' := hend s' rfl
      subst hs'
      have hhand := moves_handOver stopAfter outputs s' (stmt.output? value)
      have hsilent : (handOver stopAfter outputs s' (stmt.output? value)).2.starts = s'.starts := by
        obtain h | h := session_handOver stopAfter outputs s' (stmt.output? value) <;> rw [h]
        rfl
      exact hfirst.append hpass ((Account.silent hsilent).append (.move hhand) (ih _ _))
    | halted fault s' => simpa [Outcome.onward] using hfirst
    | unfinished => simpa [Outcome.onward] using hfirst

end Stmt

namespace Program

theorem account_run (turns : Nat) (stopAfter : Option Nat) (p : Program) (s : Session) :
    Account s (p.stages turns stopAfter s) (p.visits turns stopAfter s) := by
  have hstart : Account s [s.emit (.runStarted p.stmts.length)] [] :=
    .silent (Session.starts_tell rfl)
  have hmove :
      Passes s [s.emit (.runStarted p.stmts.length)] (s.emit (.runStarted p.stmts.length)) :=
    .move (.emit s.store _)
  have hfeed := Stmt.account_feed turns stopAfter p.stmts #[] (s.emit (.runStarted p.stmts.length))
  obtain ⟨t, hpass, hend⟩ := Stmt.passes_stages turns stopAfter p.stmts #[]
    (s.emit (.runStarted p.stmts.length))
  simp only [stages, visits, runWith]
  generalize Stmt.feed turns stopAfter #[] p.stmts (s.emit (.runStarted p.stmts.length)) = run
    at hend ⊢
  obtain ⟨outputs, outcome⟩ := run
  cases outcome with
  | done u s' =>
    have hs' := hend s' rfl
    subst hs'
    have hfinish : Account s' [s'.emit (.runFinished s'.diagnostics.size)] [] :=
      .silent (Session.starts_tell rfl)
    simpa using hstart.append hmove (hfeed.append hpass hfinish)
  | halted fault s' => simpa using hstart.append hmove hfeed
  | unfinished => simpa using hstart.append hmove hfeed

/-- The run that does not trace is the run that does, less the starts it announces, in how it ends
and all the way. The starts are those of the statements which execution comes to and which pass
their checks, in this order, each right after the events that the statement finds. -/
theorem tracing_only_announces (turns : Nat) (stopAfter : Option Nat) (p : Program) (s : Session)
    (h : s.Steady) :
    p.runWith turns stopAfter (s.withTrace false) =
        (p.runWith turns stopAfter (s.withTrace true)).mapSession (Session.untraced s.events.size) ∧
      p.run turns (s.withTrace false) =
        (p.run turns (s.withTrace true)).mapSession (Session.untraced s.events.size) ∧
      p.stages turns stopAfter (s.withTrace false) =
        (p.stages turns stopAfter (s.withTrace true)).map (Session.untraced s.events.size) ∧
      ((p.visits turns stopAfter (s.withTrace true)).map Visit.session).Sublist
        (p.stages turns stopAfter (s.withTrace true)) ∧
      ∃ t, Passes (s.withTrace true) (p.stages turns stopAfter (s.withTrace true)) t ∧
        (∀ u, (p.runWith turns stopAfter (s.withTrace true)).outcome.session? = some u → u = t) ∧
        t.starts = s.starts ++ Visit.starts (p.visits turns stopAfter (s.withTrace true)) ∧
        ∀ v ∈ p.visits turns stopAfter (s.withTrace true), v.isAdmitted = true →
          v.session.events.toList ++ [v.start] <+: t.events.toList := by
  have htraces : (s.withTrace true).Traces s.events.size := ⟨rfl, Nat.le_refl _, h⟩
  have haccount := p.account_run turns stopAfter (s.withTrace true)
  obtain ⟨hrun, hstages⟩ := p.runWith_untraced turns stopAfter htraces
  have hreport := p.run_untraced turns htraces
  obtain ⟨t, hpass, hend⟩ := p.passes_stages turns stopAfter (s.withTrace true)
  rw [s.untraced_withTrace] at hrun hstages hreport
  exact ⟨hrun, hreport, hstages, haccount.order, t, hpass, hend, haccount.told rfl t hpass,
    fun v hv hadmitted => haccount.start_next rfl hpass hv hadmitted⟩

/-- Counts to one in a loop that also mentions an unknown name, then nests six statements. -/
def countThenNest : Program :=
  let n := Expr.var "n" ⟨2, 8⟩
  let one := Expr.literal ⟨.int, "1"⟩ ⟨2, 12⟩
  let body := Stmt.block
    [.assign ⟨"n", ⟨3, 3⟩⟩ (.binary .add n one ⟨3, 9⟩), .expr (.var "y" ⟨4, 3⟩)] ⟨2, 15⟩
  let nest := [1, 2, 3, 4, 5].foldr (fun column stmt => Stmt.block [stmt] ⟨5, column⟩)
    (.empty ⟨5, 6⟩)
  ⟨[.declare (some .int) [⟨"n", ⟨1, 5⟩⟩] ⟨1, 1⟩, .whileDo (.binary .lt n one ⟨2, 10⟩) body ⟨2, 1⟩,
    nest]⟩

def fiveLevels : Session :=
  { settings := { maxDepth := 5 }, events := #[.started .empty ⟨1, 1⟩] }

/-- The innermost of the nested statements finds no level left and is not announced. -/
theorem tracing_only_announces_countThenNest :
    fiveLevels.Steady ∧
      countThenNest.runWith 2 none (fiveLevels.withTrace false) =
        (countThenNest.runWith 2 none (fiveLevels.withTrace true)).mapSession (Session.untraced 1) ∧
      ∃ t, (countThenNest.runWith 2 none (fiveLevels.withTrace true)).outcome =
          .halted (.nestingTooDeep 6 5) t ∧
        t.starts =
          [(.started .empty ⟨1, 1⟩, 0), (.started .declare ⟨1, 1⟩, 2),
            (.started .whileDo ⟨2, 1⟩, 4), (.started .block ⟨2, 15⟩, 5),
            (.started .assign ⟨3, 3⟩, 6), (.started .expr ⟨4, 3⟩, 8),
            (.started .block ⟨5, 1⟩, 11), (.started .block ⟨5, 2⟩, 12),
            (.started .block ⟨5, 3⟩, 13), (.started .block ⟨5, 4⟩, 14),
            (.started .block ⟨5, 5⟩, 15)] := by
  have hsteady : fiveLevels.Steady := .inr fun n hn => nomatch hn
  obtain ⟨hrun, -, -, -, t, -, hend, hstarts, -⟩ :=
    countThenNest.tracing_only_announces 2 none fiveLevels hsteady
  have hhalted : (countThenNest.runWith 2 none (fiveLevels.withTrace true)).outcome =
      .halted (.nestingTooDeep 6 5)
        ((countThenNest.runWith 2 none (fiveLevels.withTrace true)).outcome.session?.getD {}) := by
    decide +kernel
  have ht := hend _ (congrArg Outcome.session? hhalted)
  rw [ht] at hhalted
  refine ⟨hsteady, hrun, t, hhalted, hstarts.trans ?_⟩
  decide +kernel

end Program

end TolerantScript
