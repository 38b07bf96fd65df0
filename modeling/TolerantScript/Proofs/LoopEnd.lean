import TolerantScript.Proofs.Answer
import TolerantScript.Proofs.Balance
import TolerantScript.Proofs.Unrolling

/-!
Loops that have ended. The condition fails where a loop leaves the session, as it did in the last
test, and so the same loop once more makes that test once more and no turn.
-/

namespace TolerantScript

open TolerantScript.Action

namespace Session

variable {s t : Session}

theorem Level.symm (h : s.Level t) : t.Level s :=
  ⟨h.settings.symm, h.depth.symm⟩

theorem Level.furtherIn (h : s.Level t) (levels : Nat) :
    (s.furtherIn levels).Level (t.furtherIn levels) :=
  ⟨h.settings, congrArg (· + levels) h.depth⟩

theorem level_inside (s : Session) (kind : Stmt.Kind) (p : Position) :
    (s.furtherIn 1).Level (s.inside kind p) :=
  ⟨s.inside_settings kind p, s.inside_depth kind p⟩

theorem Level.query_eq (h : s.Level t) (hstore : t.store = s.store)
    (e : Expr) : e.evalIn Query t = e.evalIn Query s := by
  refine Expr.query_eq ⟨?_, ?_, h.depth, fun name _ => ?_⟩
  · rw [h.settings]
  · rw [h.settings]
  · rw [hstore]

theorem raised_of_inside {kind : Stmt.Kind} {p : Position}
    (hflag : s.interrupted = false) (hup : (s.inside kind p).interrupted = true) :
    s.Raised (s.inside kind p) := by
  rw [inside] at hup ⊢
  cases htrace : s.settings.trace with
  | true =>
    rw [htrace] at hup
    simp only [if_true, emit, hflag, Bool.false_or, beq_iff_eq] at hup
    refine .inr ⟨s.events.size + 1, hup, Nat.lt_succ_self _, ?_⟩
    simp [emit]
  | false =>
    rw [htrace] at hup
    simp [hflag] at hup

end Session

namespace Stmt

variable {turns : Nat} {cond : Expr} {body loop : Stmt} {s t u : Session} {v : Option Value}

/-! The last test. -/

/-- After some turns, an execution of the loop from the first session comes to test its condition in
the second. -/
inductive ComesToTest (turns : Nat) (cond : Expr) (body : Stmt) :
    Stmt → Session → Session → Prop where
  | whileDo {n : Nat} {p : Position} {s u : Session} :
    Laps cond.test (body.exec turns) n (s.inside .whileDo p) u →
    ComesToTest turns cond body (.whileDo cond body p) s u
  | doWhile {n : Nat} {p : Position} {w : Option Value} {s s₁ u : Session} :
    body.exec turns (s.inside .doWhile p) = .done w s₁ →
    Laps cond.test (body.exec turns) n s₁ u → ComesToTest turns cond body (.doWhile body cond p) s u

theorem level_of_exec {stmt : Stmt} (h : stmt.exec turns s = .done v t) : s.Level t :=
  (stmt.balances_exec turns s).settled t (by rw [h]; rfl)

theorem level_of_test {b : Bool} (h : cond.test s = .done b t) : s.Level t := by
  obtain ⟨ds, -, rfl⟩ := cond.test_tells.of_done h
  have hgains := s.gains_recordAll ds
  exact ⟨hgains.settings, hgains.depth⟩

theorem level_of_laps {n : Nat} (h : Laps cond.test (body.exec turns) n s t) :
    s.Level t := by
  induction h with
  | none s => exact ⟨rfl, rfl⟩
  | turn htest hbody _ ih =>
    exact (level_of_test htest).trans ((level_of_exec hbody).trans ih)

theorem ComesToTest.level (h : ComesToTest turns cond body loop s u) :
    (s.furtherIn 1).Level u := by
  cases h with
  | whileDo hlaps => exact (s.level_inside _ _).trans (level_of_laps hlaps)
  | doWhile hbody hlaps =>
    have hturns := (level_of_exec hbody).trans (level_of_laps hlaps)
    exact (s.level_inside _ _).trans hturns

/-- A loop that ends gives no value. The last it does is to test its condition, to find that it
fails, and to announce its end. -/
theorem done_of_loop {p : Position}
    (hloop : loop = .whileDo cond body p ∨ loop = .doWhile body cond p)
    (h : loop.exec turns s = .done v t) :
    v = none ∧ s.depth < s.settings.maxDepth ∧ ∃ u u' e, ComesToTest turns cond body loop s u ∧
      cond.test u = .done false u' ∧ t = leave (u'.emit e) := by
  obtain rfl | rfl := hloop
  · rw [exec] at h
    obtain ⟨hroom, t', hwork, rfl⟩ := begin_eq_done h
    obtain ⟨hv, n, u, u', hlaps, hlast, rfl⟩ := whileLoop_eq_done hwork
    exact ⟨hv, hroom, u, u', _, .whileDo hlaps, hlast, rfl⟩
  · rw [exec] at h
    obtain ⟨hroom, t', hwork, rfl⟩ := begin_eq_done h
    obtain ⟨hv, n, w, s₁, u, u', hbody, hlaps, hlast, rfl⟩ := doWhileLoop_eq_done hwork
    exact ⟨hv, hroom, u, u', _, .doWhile hbody hlaps, hlast, rfl⟩

/-! The loop once more. -/

theorem Undisturbed.interrupted_inside {q : Position}
    (h : (Stmt.whileDo cond body q).Undisturbed t) (hroom : t.depth < t.settings.maxDepth) :
    (t.inside .whileDo q).interrupted = false := by
  refine Bool.eq_false_iff.mpr fun hup => ?_
  have hcheck : checkInterrupt (t.inside .whileDo q) = .halted .interrupted (t.inside .whileDo q) :=
    if_pos hup
  have hhalted : exec 1 (.whileDo cond body q) t =
      .halted .interrupted (leave (t.inside .whileDo q)) := by
    rw [exec]
    refine (begin_apply h.interrupted hroom .whileDo q _).trans ?_
    rw [Action.whileLoop, bind_apply, hcheck]
    rfl
  exact h _ _ ⟨by simp, 1, hhalted⟩ rfl (Session.raised_of_inside h.interrupted hup)

theorem exec_of_failing {q : Position} {ds : List Diagnostic}
    (hcalm : (Stmt.whileDo cond body q).Undisturbed t) (hroom : t.depth < t.settings.maxDepth)
    (hasked : cond.testIn Query (t.inside .whileDo q) = some (.ok false, ds)) :
    ∃ t', (∀ more, exec (more + 1) (.whileDo cond body q) t = .done none t') ∧
      t'.store = t.store ∧ t'.depth = t.depth ∧
      t'.diagnostics.toList = t.diagnostics.toList ++ ds ∧
      t'.events.toList =
        (t.inside .whileDo q).events.toList ++ ds.map .recorded ++ [.whileFinished 0] := by
  have htest := cond.test_tells.answer hasked
  have hgains := (t.inside .whileDo q).gains_recordAll ds
  refine ⟨leave (((t.inside .whileDo q).recordAll ds).emit (.whileFinished 0)), fun more => ?_,
    ?_, ?_, ?_, ?_⟩
  · rw [exec]
    refine (begin_apply hcalm.interrupted hroom .whileDo q _).trans ?_
    rw [whileLoop_apply (hcalm.interrupted_inside hroom), bind_apply, htest]
    rfl
  · exact hgains.store.trans (t.inside_store _ q)
  · show ((t.inside .whileDo q).recordAll ds).depth - 1 = t.depth
    rw [hgains.depth, t.inside_depth, Nat.add_sub_cancel]
  · exact hgains.diagnostics.trans (by rw [t.inside_diagnostics])
  · show (((t.inside .whileDo q).recordAll ds).events.push (.whileFinished 0)).toList = _
    rw [Array.toList_push, hgains.events]

/-- A loop that ended gives no value, and its condition fails where it has left the session. The
loop that tests first, entered there again and not asked to stop, makes no turn: it leaves the store
as it is, records what the last test of the first loop recorded, and announces its end. -/
theorem finished_loop (turns : Nat) (cond : Expr) (body loop : Stmt) (p q : Position)
    (s t : Session) (v : Option Value)
    (hloop : loop = .whileDo cond body p ∨ loop = .doWhile body cond p)
    (h : loop.exec turns s = .done v t) (hcalm : (Stmt.whileDo cond body q).Undisturbed t) :
    v = none ∧
    (∃ value t₁, cond.eval t = .done value t₁ ∧ value.truth ≠ .ok true) ∧
    ∃ u u' e ds, ComesToTest turns cond body loop s u ∧ cond.test u = .done false u' ∧
      u.Gains ds u' ∧ t = leave (u'.emit e) ∧
      ∃ t', (∀ more, exec (more + 1) (.whileDo cond body q) t = .done none t') ∧
        t'.store = t.store ∧ t'.depth = t.depth ∧
        t'.diagnostics.toList = t.diagnostics.toList ++ ds ∧
        t'.events.toList =
          (t.inside .whileDo q).events.toList ++ ds.map .recorded ++ [.whileFinished 0] := by
  obtain ⟨hv, hroom, u, u', e, hcomes, hlast, hleft⟩ := done_of_loop hloop h
  obtain ⟨ds, hasked, rfl⟩ := cond.test_tells.of_done hlast
  have hgains := u.gains_recordAll ds
  obtain ⟨value, early, hvalue, hcounts, hds⟩ := Query.ok_of_truthOf cond.eval_tells hasked
  -- the last test was made as deep, and over the same store, as the next one is
  have hstore : t.store = u.store := by
    rw [hleft]
    exact hgains.store
  have hlevel : s.Level t := level_of_exec h
  have hback : (t.furtherIn 1).Level u := (hlevel.symm.furtherIn 1).trans hcomes.level
  have hfurther : cond.evalIn Query (t.furtherIn 1) = some (.ok value, early) :=
    (hback.query_eq hstore.symm cond).symm.trans hvalue
  have hinside : cond.evalIn Query (t.inside .whileDo q) = some (.ok value, early) :=
    ((t.level_inside _ q).query_eq (t.inside_store _ q) cond).trans hfurther
  have hroom' : t.depth < t.settings.maxDepth := by
    rw [hlevel.depth, hlevel.settings]
    exact hroom
  have hasked' : cond.testIn Query (t.inside .whileDo q) = some (.ok false, ds) := by
    rw [hcounts, hds]
    exact Query.truthOf_of_ok cond.position hinside
  have hfails : value.truth ≠ .ok true := by
    rw [Ne, ← value.counts_eq_true_iff, ← hcounts]
    simp
  exact ⟨hv, ⟨value, _, cond.eval_tells.answer (Expr.query_of_furtherIn hfurther), hfails⟩,
    u, _, e, ds, hcomes, hlast, hgains, hleft, exec_of_failing hcalm hroom' hasked'⟩

/-- `"a" + y`, where nothing declares `y`: no sum, and the string that stands for it has no
truth. -/
def gluedToUnknown : Expr :=
  .binary .add (.literal ⟨.string, "a"⟩ ⟨1, 8⟩) (.var "y" ⟨1, 14⟩) ⟨1, 12⟩

def gluedMisread : List Diagnostic :=
  [⟨⟨1, 14⟩, .undeclaredVariable "y"⟩, ⟨⟨1, 12⟩, .badOperands "+" "string" "int"⟩,
    ⟨⟨1, 12⟩, .conversion .string .bool none⟩]

/-- The one turn counts, and the test that ends the first loop ends the second as well. -/
theorem finished_loop_gluedToUnknown :
    ∃ t t' u u', (Stmt.doWhile addOne gluedToUnknown ⟨1, 1⟩).exec 1 sixLevels = .done none t ∧
      t.store = ⟨[⟨"n", .int, .int 1⟩]⟩ ∧ t.diagnostics.toList = gluedMisread ∧
      (∃ value t₁, gluedToUnknown.eval t = .done value t₁ ∧ value.truth ≠ .ok true) ∧
      gluedToUnknown.test u = .done false u' ∧ u.Gains gluedMisread u' ∧
      (∀ more, exec (more + 1) (.whileDo gluedToUnknown addOne ⟨1, 1⟩) t = .done none t') ∧
      t'.store = t.store ∧ t'.diagnostics.toList = gluedMisread ++ gluedMisread := by
  let t : Session :=
    { sixLevels with
      store := ⟨[⟨"n", .int, .int 1⟩]⟩
      diagnostics := gluedMisread.toArray
      events := #[.started .doWhile ⟨1, 1⟩, .started .assign ⟨1, 19⟩, .assigned "n" (.int 1)] ++
        (gluedMisread.map .recorded).toArray ++ #[.doWhileFinished 1] }
  have hrun : (Stmt.doWhile addOne gluedToUnknown ⟨1, 1⟩).exec 1 sixLevels = .done none t := by
    decide +kernel
  have hsteady : t.Steady := .inr fun n hn => nomatch hn
  obtain ⟨-, hvalue, u, u', e, ds, -, hlast, hgains, -, t', hagain, hstore, -, hrecorded, -⟩ :=
    finished_loop 1 gluedToUnknown addOne _ ⟨1, 1⟩ ⟨1, 1⟩ sixLevels t none (.inr rfl) hrun
      (.of_steady rfl hsteady)
  have htwice : (exec 1 (.whileDo gluedToUnknown addOne ⟨1, 1⟩) t).session?.map
      (·.diagnostics.toList) = some (t.diagnostics.toList ++ gluedMisread) := by
    decide +kernel
  rw [hagain 0] at htwice
  have htold : t.diagnostics.toList ++ ds = t.diagnostics.toList ++ gluedMisread :=
    hrecorded.symm.trans (Option.some.inj htwice)
  obtain rfl := List.append_cancel_left htold
  exact ⟨t, t', u, u', hrun, rfl, rfl, hvalue, hlast, hgains, hagain, hstore, hrecorded⟩

end Stmt

end TolerantScript
