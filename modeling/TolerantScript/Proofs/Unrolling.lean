import TolerantScript.Proofs.Inlining
import TolerantScript.Proofs.Loop

/-!
Loops written out. A loop that works before it tests is its body and then a loop that tests before
it works; and that one is its condition with, if it holds, the body and the loop once more. The
longer forms need more levels, and apart from that nobody can tell the difference.
-/

namespace TolerantScript

variable {α β : Type}

/-! Executions that come to the same. -/

/-- Both came to an end with the same value or fatal fault, variables and diagnostics, or neither
did. -/
def Outcome.Alike (o o' : Outcome α) : Prop := o.ending = o'.ending ∧ o.value? = o'.value?

namespace Outcome

theorem Deeper.alike {levels d : Nat} {flag : Bool} {o o' : Outcome α}
    (h : o.Deeper levels flag d Eq o') : o.Alike o' :=
  ⟨h.ending_eq, h.value?_eq fun _ _ hab => hab⟩

theorem alike_leave_iff (o o' : Outcome α) :
    (o.mapSession Action.leave).Alike (o'.mapSession Action.leave) ↔ o.Alike o' := by
  cases o <;> cases o' <;> rfl

theorem alike_leave_left_iff (o o' : Outcome α) :
    (o.mapSession Action.leave).Alike o' ↔ o.Alike o' := by
  cases o <;> rfl

theorem LacksLevels.mapSession {o : Outcome α} (h : o.LacksLevels) (f : Session → Session) :
    (o.mapSession f).LacksLevels := by
  obtain ⟨depth, max, s, rfl⟩ := h
  exact ⟨depth, max, f s, rfl⟩

theorem alike_unasked_iff (o o' : Outcome α) :
    (o.mapSession Session.unasked).Alike (o'.mapSession Session.unasked) ↔ o.Alike o' := by
  rw [Alike, ending_unasked, ending_unasked, value?_mapSession,
    value?_mapSession]
  rfl

theorem Alike.symm {o o' : Outcome α} (h : o.Alike o') : o'.Alike o := ⟨h.1.symm, h.2.symm⟩

theorem Alike.ne_unfinished {o o' : Outcome α} (h : o.Alike o') (ho : o ≠ .unfinished) :
    o' ≠ .unfinished := by
  rintro rfl
  cases o with
  | done a s => cases h.1
  | halted fault s => cases h.1
  | unfinished => exact ho rfl

end Outcome

theorem Session.Deeper.inside {levels : Nat} {s t : Session} (h : s.Deeper levels false t)
    (kind kind' : Stmt.Kind) (p p' : Position) :
    (s.inside kind p).Deeper levels false (t.inside kind' p') := by
  have htrace : s.settings.trace = t.settings.trace := by rw [h.settings]
  rw [Session.inside, Session.inside, htrace]
  cases t.settings.trace with
  | true => exact h.enter.emit_both _ _
  | false => exact h.enter

theorem Session.Deeper.inside_left {levels : Nat} {s t : Session} (h : s.Deeper levels false t)
    (kind : Stmt.Kind) (p : Position) : (s.inside kind p).Deeper (levels + 1) false t := by
  rw [Session.inside]
  cases s.settings.trace with
  | true => exact h.enter_left.emit_left _
  | false => exact h.enter_left

namespace Action

/-- From a session so many levels further in, the first action comes to the same as the second, or
it runs out of levels; but either may use up its turns before the other does, where that is allowed
for. -/
def Settles (levels : Nat) (slow fast : Prop) (x y : Action α) : Prop :=
  ∀ s t, s.Deeper levels false t →
    (x s).Alike (y t) ∨ (x s).LacksLevels ∨ slow ∧ x s = .unfinished ∨ fast ∧ y t = .unfinished

namespace Settles

variable {levels : Nat} {slow fast : Prop}

theorem of_slow {x y : Action α} (h : slow) (hx : ∀ s, x s = .unfinished) :
    Settles levels slow fast x y :=
  fun s _ _ => .inr (.inr (.inl ⟨h, hx s⟩))

theorem of_fast {x y : Action α} (h : fast) (hy : ∀ s, y s = .unfinished) :
    Settles levels slow fast x y :=
  fun _ t _ => .inr (.inr (.inr ⟨h, hy t⟩))

theorem imp {slow' fast' : Prop} {x y : Action α} (h : Settles levels slow fast x y)
    (hslow : slow → slow') (hfast : fast → fast') : Settles levels slow' fast' x y := by
  intro s t hst
  obtain hsame | hlacks | ⟨hs, hx⟩ | ⟨hf, hy⟩ := h s t hst
  · exact .inl hsame
  · exact .inr (.inl hlacks)
  · exact .inr (.inr (.inl ⟨hslow hs, hx⟩))
  · exact .inr (.inr (.inr ⟨hfast hf, hy⟩))

theorem bind {x y : Action α} {f g : α → Action β} (hx : Sinks True levels false Eq x y)
    (hf : ∀ a, Settles levels slow fast (f a) (g a)) :
    Settles levels slow fast (x >>= f) (y >>= g) := by
  intro s t h
  rw [bind_apply, bind_apply]
  obtain hsame | ⟨-, depth, max, u, hu⟩ := hx s t h
  · generalize x s = o at hsame ⊢
    generalize y t = o' at hsame ⊢
    cases hsame with
    | @done s' t' a b hab h' _ =>
      rw [hab]
      exact hf b s' t' h'
    | halted fault h' hd =>
      exact .inl (Outcome.Deeper.alike (.halted fault h' hd))
    | unfinished => exact .inl ⟨rfl, rfl⟩
  · rw [hu]
    exact .inr (.inl ⟨depth, max, u, rfl⟩)

variable {x y : Action (Option Value)}

theorem begin (h : Settles levels slow fast x y) (kind kind' : Stmt.Kind) (p p' : Position) :
    Settles levels slow fast (Action.begin kind p x) (Action.begin kind' p' y) := by
  intro s t hst
  obtain ⟨hs, ht⟩ := hst.interrupted
  by_cases hdeep : s.settings.maxDepth ≤ s.depth
  · rw [begin_of_deep hs hdeep]
    exact .inr (.inl ⟨_, _, _, rfl⟩)
  · have hdepth := hst.depth
    have hroom : t.depth < t.settings.maxDepth := by
      rw [← hst.settings]
      omega
    rw [begin_apply hs (by omega), begin_apply ht hroom, Outcome.alike_leave_iff]
    obtain hsame | hlacks | ⟨hslow, hx⟩ | ⟨hfast, hy⟩ := h _ _ (hst.inside kind kind' p p')
    · exact .inl hsame
    · exact .inr (.inl (hlacks.mapSession leave))
    · exact .inr (.inr (.inl ⟨hslow, by rw [hx]; rfl⟩))
    · exact .inr (.inr (.inr ⟨hfast, by rw [hy]; rfl⟩))

theorem begin_left (h : Settles (levels + 1) slow fast x y) (kind : Stmt.Kind) (p : Position) :
    Settles levels slow fast (Action.begin kind p x) y := by
  intro s t hst
  have hs := hst.interrupted.1
  by_cases hdeep : s.settings.maxDepth ≤ s.depth
  · rw [begin_of_deep hs hdeep]
    exact .inr (.inl ⟨_, _, _, rfl⟩)
  · rw [begin_apply hs (by omega), Outcome.alike_leave_left_iff]
    obtain hsame | hlacks | ⟨hslow, hx⟩ | hfast := h _ t (hst.inside_left kind p)
    · exact .inl hsame
    · exact .inr (.inl (hlacks.mapSession leave))
    · exact .inr (.inr (.inl ⟨hslow, by rw [hx]; rfl⟩))
    · exact .inr (.inr (.inr hfast))

/-! Loops beside each other. Which of the two gives up first is a matter of the turns they have. -/

variable {test : Action Bool} {body : Action (Option Value)}

theorem finish {e e' : Event} :
    Settles levels slow fast (do emit e; return none : Action (Option Value))
      (do emit e'; return none) := by
  intro s t h
  exact .inl (Outcome.Deeper.alike (.done rfl (h.emit_both e e') rfl))

theorem whileLoop (htest : Sinks True levels false Eq test test)
    (hbody : Sinks True levels false Eq body body) (n m count count' : Nat) :
    Settles levels (n < m) (m < n) (Action.whileLoop test body n count)
      (Action.whileLoop test body m count') := by
  induction n generalizing m count count' with
  | zero =>
    cases m with
    | zero => exact fun _ _ _ => .inl ⟨rfl, rfl⟩
    | succ m => exact of_slow (Nat.succ_pos m) fun _ => rfl
  | succ n ih =>
    cases m with
    | zero => exact of_fast (Nat.succ_pos n) fun _ => rfl
    | succ m =>
      intro s t h
      rw [whileLoop_apply h.interrupted.1, whileLoop_apply h.interrupted.2]
      refine bind htest (fun b => ?_) s t h
      cases b with
      | true =>
        have hrest := ih m (count + 1) (count' + 1)
        exact bind hbody fun _ => hrest.imp Nat.succ_lt_succ Nat.succ_lt_succ
      | false => exact finish

/-- What is left of a loop that has worked and is about to test goes as a loop that tests first. -/
theorem rest (htest : Sinks True levels false Eq test test)
    (hbody : Sinks True levels false Eq body body) (n m count count' : Nat) :
    Settles levels (n ≤ m) (m < n) (Action.whileLoop test body n count) (do
      if ← test then
        doWhileLoop test body m (count' + 1)
      else
        emit (.doWhileFinished (count' + 1))
        return none) := by
  induction n generalizing m count count' with
  | zero => exact of_slow (Nat.zero_le m) fun _ => rfl
  | succ n ih =>
    intro s t h
    rw [whileLoop_apply h.interrupted.1]
    refine bind htest (fun b => ?_) s t h
    cases b with
    | true =>
      cases m with
      | zero => exact of_fast (Nat.succ_pos n) fun _ => rfl
      | succ m =>
        intro s t h
        rw [if_pos rfl, if_pos rfl, doWhileLoop_apply h.interrupted.2]
        have hrest := ih m (count + 1) (count' + 1)
        exact bind hbody (fun _ => hrest.imp Nat.succ_le_succ Nat.succ_lt_succ) s t h
    | false => exact finish

end Settles

end Action

namespace Stmt

open TolerantScript.Action

/-! Statements that come to an end, however many turns it takes. -/

def Ends (stmt : Stmt) (s : Session) (o : Outcome (Option Value)) : Prop :=
  o ≠ .unfinished ∧ ∃ turns, stmt.exec turns s = o

/-- The flag is down, and nobody raises it before the statement ends. -/
def Undisturbed (stmt : Stmt) (s : Session) : Prop :=
  ∀ o t, stmt.Ends s o → o.session? = some t → ¬s.Raised t

structure EndsLike (first second : Stmt) (s : Session) : Prop where
  ends : (∃ o, first.Ends s o) ↔ ∃ o, second.Ends s o
  alike : ∀ o o', first.Ends s o → second.Ends s o' → o.Alike o'

variable {stmt first second : Stmt} {s : Session}

theorem Ends.unique {o o' : Outcome (Option Value)} (h : stmt.Ends s o) (h' : stmt.Ends s o') :
    o = o' := by
  obtain ⟨hne, n, rfl⟩ := h
  obtain ⟨hne', m, rfl⟩ := h'
  obtain hle | hle := Nat.le_total n m
  · exact ((exec_keptBy hle stmt s).resolve_left hne).symm
  · exact (exec_keptBy hle stmt s).resolve_left hne'

theorem Undisturbed.of_steady (hflag : s.interrupted = false) (hsteady : s.Steady) :
    stmt.Undisturbed s := by
  rintro o t - - (hup | ⟨n, hn, hlt, -⟩)
  · rw [hflag] at hup
    cases hup
  · obtain hup | hpast := hsteady
    · rw [hflag] at hup
      cases hup
    · have := hpast n hn
      omega

theorem Undisturbed.interrupted (h : stmt.Undisturbed s) : s.interrupted = false := by
  refine Bool.eq_false_iff.mpr fun hup => ?_
  have hhalted : stmt.exec 0 s = .halted .interrupted s := exec_of_refusal (if_pos hup) 0 stmt
  exact h _ s ⟨by simp, 0, hhalted⟩ rfl (.inl hup)

theorem exec_heeds (turns : Nat) (stmt : Stmt) : Heeds (stmt.exec turns) := by
  intro s t hs h
  have hkeeps : (lasting s False True stmt.work (s.depth + stmt.height)).Keeps s.depth
      (stmt.exec turns) fun _ => True := lasting_exec turns stmt s.depth
  have hend := hkeeps s rfl (.refl hs not_false)
  rw [h] at hend
  obtain hstructural | ⟨-, -, hraised⟩ := cause_of_halted hend
  · cases hstructural
  · exact hraised.resolve_right not_false

theorem Undisturbed.exec_unasked (h : stmt.Undisturbed s) (hs : s.depth ≤ s.settings.maxDepth)
    (turns : Nat) : stmt.exec turns s.unasked = (stmt.exec turns s).mapSession Session.unasked := by
  obtain hsame | ⟨fault, t, hcut, rfl, -⟩ := (stmt.exec_holds .request turns).2 s
  · exact hsame
  · exact absurd (exec_heeds turns stmt s t hs hcut) (h _ t ⟨by simp, turns, hcut⟩ rfl)

theorem depth_lt_of_not_lacksLevels (hflag : s.interrupted = false)
    (hlevels : ∀ o, stmt.Ends s o → ¬o.LacksLevels) : s.depth < s.settings.maxDepth := by
  refine Nat.lt_of_not_le fun hdeep => ?_
  have hhalted : stmt.exec 0 s =
      .halted (.nestingTooDeep (s.depth + 1) s.settings.maxDepth) s :=
    exec_of_refusal (by simp [Session.refusal?, hflag, hdeep]) 0 stmt
  exact hlevels _ ⟨by simp, 0, hhalted⟩ ⟨_, _, _, rfl⟩

/-- Beside the first statement stands a loop that may be allowed more turns than what is inside
it. -/
theorem endsLike_of_settles {limited : Nat → Nat → Action (Option Value)}
    (hsettles : ∀ n m, Settles 0 (n < m) (m ≤ n) (first.exec n) (limited n m))
    (hsame : ∀ n, limited n n = second.exec n)
    (hmore : ∀ n, KeptBy (limited n (n + 1)) (second.exec (n + 1)))
    (hfirst : first.Undisturbed s) (hsecond : second.Undisturbed s)
    (hlevels : ∀ o, first.Ends s o → ¬o.LacksLevels) : second.EndsLike first s := by
  have hs : s.depth ≤ s.settings.maxDepth :=
    Nat.le_of_lt (depth_lt_of_not_lacksLevels hfirst.interrupted hlevels)
  have hsteady : s.unasked.Steady := .inr fun n hn => nomatch hn
  have hstart : s.unasked.Deeper 0 false s.unasked := .refl hsteady
  have hroom (n : Nat) : ¬(first.exec n s.unasked).LacksLevels := by
    rw [hfirst.exec_unasked hs]
    intro hlacks
    obtain ⟨depth, max, t, ht⟩ := Outcome.lacksLevels_of_mapSession hlacks
    exact hlevels _ ⟨by simp, n, ht⟩ ⟨depth, max, t, rfl⟩
  have hforth (n : Nat) (hn : first.exec n s ≠ .unfinished) :
      (first.exec n s).Alike (second.exec (n + 1) s) := by
    have hn' : first.exec n s.unasked ≠ .unfinished := by
      rw [hfirst.exec_unasked hs]
      exact Outcome.mapSession_ne_unfinished hn _
    obtain halike | hlacks | ⟨-, hx⟩ | ⟨hle, -⟩ := hsettles n (n + 1) _ _ hstart
    · -- the loop has come to its end, so with more turns inside it comes to the same
      have hmore' := (hmore n s.unasked).resolve_left (halike.ne_unfinished hn')
      rw [← hmore', hfirst.exec_unasked hs, hsecond.exec_unasked hs,
        Outcome.alike_unasked_iff] at halike
      exact halike
    · exact absurd hlacks (hroom n)
    · exact absurd hx hn'
    · omega
  have hback (n : Nat) (hn : second.exec n s ≠ .unfinished) : first.exec n s ≠ .unfinished := by
    have hn' : second.exec n s.unasked ≠ .unfinished := by
      rw [hsecond.exec_unasked hs]
      exact Outcome.mapSession_ne_unfinished hn _
    obtain halike | hlacks | ⟨hlt, -⟩ | ⟨-, hy⟩ := hsettles n n _ _ hstart
    · rw [hsame] at halike
      intro hunfinished
      rw [hfirst.exec_unasked hs, hunfinished] at halike
      exact halike.symm.ne_unfinished hn' rfl
    · exact absurd hlacks (hroom n)
    · omega
    · rw [hsame] at hy
      exact absurd hy hn'
  refine ⟨⟨?_, ?_⟩, ?_⟩
  · rintro ⟨o, hne, n, rfl⟩
    exact ⟨_, hback n hne, n, rfl⟩
  · rintro ⟨o, hne, n, rfl⟩
    exact ⟨_, (hforth n hne).ne_unfinished hne, n + 1, rfl⟩
  · rintro o o' ho ⟨hne, n, rfl⟩
    have halike := hforth n hne
    rw [ho.unique ⟨halike.ne_unfinished hne, n + 1, rfl⟩]
    exact halike.symm

/-! The two laws. -/

theorem test_sinks {levels : Nat} {flag : Bool} (cond : Expr) :
    Sinks True levels flag Eq cond.test cond.test := by
  have h := (sinking True levels flag fun _ => trivial).evaluation.test cond
  rw [Expr.testIn_action] at h
  exact h

theorem execAll_pair (turns : Nat) (a b : Stmt) :
    execAll turns none [a, b] = (do let _ ← a.exec turns; b.exec turns) := by
  funext s
  simp only [execAll, bind_apply]
  cases a.exec turns s with
  | done v t => cases hb : b.exec turns t <;> simp [hb, pure_apply]
  | halted fault t => rfl
  | unfinished => rfl

variable (cond : Expr) (body : Stmt)

/-- The body and then the loop that tests first, in place of the loop that works first. -/
theorem block_settles (n m : Nat) (pb pw pd : Position) :
    Settles 0 (n < m) (m ≤ n) (exec n (.block [body, .whileDo cond body pw] pb))
      (begin .doWhile pd (doWhileLoop cond.test (body.exec n) m 0)) := by
  rw [exec, execAll_pair]
  refine Settles.begin ?_ _ _ _ _
  cases m with
  | zero => exact Settles.of_fast (Nat.zero_le n) fun _ => rfl
  | succ m =>
    intro s t h
    rw [doWhileLoop_apply h.interrupted.2]
    refine Settles.bind (exec_sinks (fun _ => trivial) n body) (fun _ => ?_) s t h
    rw [exec]
    have hloop : Settles 1 (n ≤ m) (m < n) _ _ :=
      Settles.rest (test_sinks cond) (exec_sinks (fun _ => trivial) n body) n m 0 0
    exact (hloop.begin_left _ _).imp Nat.lt_succ_of_le Nat.succ_le_of_lt

theorem branch_settles (n m : Nat) (pi pb pw p : Position) :
    Settles 0 (n < m) (m ≤ n)
      (exec n (.branch cond (.block [body, .whileDo cond body pw] pb) none pi))
      (begin .whileDo p (Action.whileLoop cond.test (body.exec n) m 0)) := by
  rw [exec]
  refine Settles.begin ?_ _ _ _ _
  cases m with
  | zero => exact Settles.of_fast (Nat.zero_le n) fun _ => rfl
  | succ m =>
    intro s t h
    rw [whileLoop_apply h.interrupted.2]
    refine Settles.bind (test_sinks cond) (fun b => ?_) s t h
    cases b with
    | true =>
      rw [if_pos rfl, if_pos rfl, exec, execAll_pair]
      refine Settles.begin_left (Settles.bind ?_ fun _ => ?_) _ _
      · exact exec_sinks (fun _ => trivial) n body
      rw [exec]
      have hloop : Settles 2 (n < m) (m < n) _ _ :=
        Settles.whileLoop (test_sinks cond) (exec_sinks (fun _ => trivial) n body) n m 0 1
      exact (hloop.begin_left _ _).imp Nat.lt_succ_of_lt Nat.succ_le_of_lt
    | false =>
      -- the loop announces its end, and the condition alone does not
      intro s t h
      rw [if_neg (by simp), if_neg (by simp), execElse]
      exact .inl ⟨congrArg some (by rw [h.store, h.diagnostics]; rfl), rfl⟩

/-- If nobody asks to stop: where the body and then the loop that tests first do not run out of
levels, the loop that works first ends if they do, and comes to the same; and where the condition
with, if it holds, the body and the loop once more does not run out of levels, the loop that tests
first ends if that does, and comes to the same. -/
theorem loops_unroll (s : Session) (pb pw pd pi p : Position) :
    ((Stmt.block [body, .whileDo cond body pw] pb).Undisturbed s →
      (Stmt.doWhile body cond pd).Undisturbed s →
      (∀ o, (Stmt.block [body, .whileDo cond body pw] pb).Ends s o → ¬o.LacksLevels) →
      (Stmt.doWhile body cond pd).EndsLike (.block [body, .whileDo cond body pw] pb) s) ∧
    ((Stmt.branch cond (.block [body, .whileDo cond body pw] pb) none pi).Undisturbed s →
      (Stmt.whileDo cond body p).Undisturbed s →
      (∀ o, (Stmt.branch cond (.block [body, .whileDo cond body pw] pb) none pi).Ends s o →
        ¬o.LacksLevels) →
      (Stmt.whileDo cond body p).EndsLike
        (.branch cond (.block [body, .whileDo cond body pw] pb) none pi) s) := by
  have hturns (n : Nat) : KeptBy (body.exec n) (body.exec (n + 1)) :=
    exec_keptBy (Nat.le_succ n) body
  constructor
  · intro hblock hloop hlevels
    refine endsLike_of_settles (fun n m => block_settles cond body n m pb pw pd) (fun n => ?_)
      (fun n => ?_) hblock hloop hlevels
    · rw [exec]
      rfl
    · rw [exec]
      exact ((hturns n).doWhileLoop cond.test (Nat.le_refl _) 0).begin _ _
  · intro hbranch hloop hlevels
    refine endsLike_of_settles (fun n m => branch_settles cond body n m pi pb pw p) (fun n => ?_)
      (fun n => ?_) hbranch hloop hlevels
    · rw [exec]
      rfl
    · rw [exec]
      exact ((hturns n).whileLoop cond.test (Nat.le_refl _) 0).begin _ _

/-- `n < 2 + y`, where nothing declares `y`: every test of it records that. -/
def belowUnknown : Expr :=
  .binary .lt (.var "n" ⟨1, 8⟩)
    (.binary .add (.literal ⟨.int, "2"⟩ ⟨1, 12⟩) (.var "y" ⟨1, 16⟩) ⟨1, 14⟩) ⟨1, 10⟩

/-- `n = n + 1;` -/
def addOne : Stmt :=
  .assign ⟨"n", ⟨1, 19⟩⟩
    (.binary .add (.var "n" ⟨1, 23⟩) (.literal ⟨.int, "1"⟩ ⟨1, 27⟩) ⟨1, 25⟩)

def bodyThenLoop : Stmt := .block [addOne, .whileDo belowUnknown addOne ⟨1, 1⟩] ⟨1, 1⟩

def testThenLoop : Stmt := .branch belowUnknown bodyThenLoop none ⟨1, 1⟩

def sixLevels : Session :=
  { settings := { maxDepth := 6, trace := true }, store := ⟨[⟨"n", .int, .int 0⟩]⟩ }

def countedToTwo (tests : Nat) : Option (Option Fault × Store × Array Diagnostic) :=
  some (none, ⟨[⟨"n", .int, .int 2⟩]⟩, ⟨List.replicate tests ⟨⟨1, 16⟩, .undeclaredVariable "y"⟩⟩)

/-- Both loops count to two. The one that works first makes a test less. -/
theorem loops_unroll_belowUnknown :
    (∃ o, (Stmt.doWhile addOne belowUnknown ⟨1, 1⟩).Ends sixLevels o ∧ o.ending = countedToTwo 2) ∧
    ∃ o, (Stmt.whileDo belowUnknown addOne ⟨1, 1⟩).Ends sixLevels o ∧
      o.ending = countedToTwo 3 := by
  have hsteady : sixLevels.Steady := .inr fun n hn => nomatch hn
  have hcalm (stmt : Stmt) : stmt.Undisturbed sixLevels := .of_steady rfl hsteady
  have hends {stmt : Stmt} {tests : Nat} (h : (stmt.exec 3 sixLevels).ending = countedToTwo tests) :
      stmt.Ends sixLevels (stmt.exec 3 sixLevels) := by
    refine ⟨fun hunfinished => ?_, 3, rfl⟩
    rw [hunfinished] at h
    cases h
  have hlevels {stmt : Stmt} {tests : Nat}
      (h : (stmt.exec 3 sixLevels).ending = countedToTwo tests) (o : Outcome (Option Value))
      (ho : stmt.Ends sixLevels o) : ¬o.LacksLevels := by
    rintro ⟨depth, max, t, rfl⟩
    rw [(hends h).unique ho] at h
    cases h
  have hblock : (bodyThenLoop.exec 3 sixLevels).ending = countedToTwo 2 := by decide +kernel
  have hbranch : (testThenLoop.exec 3 sixLevels).ending = countedToTwo 3 := by decide +kernel
  obtain ⟨hlaw, hlaw'⟩ :=
    loops_unroll belowUnknown addOne sixLevels ⟨1, 1⟩ ⟨1, 1⟩ ⟨1, 1⟩ ⟨1, 1⟩ ⟨1, 1⟩
  have hworks := hlaw (hcalm _) (hcalm _) (hlevels hblock)
  have htests := hlaw' (hcalm _) (hcalm _) (hlevels hbranch)
  obtain ⟨o, ho⟩ := hworks.ends.mpr ⟨_, hends hblock⟩
  obtain ⟨o', ho'⟩ := htests.ends.mpr ⟨_, hends hbranch⟩
  exact ⟨⟨o, ho, (hworks.alike o _ ho (hends hblock)).1.trans hblock⟩,
    o', ho', (htests.alike o' _ ho' (hends hbranch)).1.trans hbranch⟩

end Stmt

end TolerantScript
