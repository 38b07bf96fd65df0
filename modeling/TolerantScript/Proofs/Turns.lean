import TolerantScript.Proofs.Feed
import TolerantScript.Proofs.Machine

/-!
The turns that loops are allowed. An execution that finishes within its turns is the same with more
of them, so whether and how a run ends is a matter of the program and the session alone.
-/

namespace TolerantScript

variable {α β : Type}

namespace Action

/-- Wherever the first action finishes, the second one has the same outcome. -/
def KeptBy (x y : Action α) : Prop := ∀ s, x s = .unfinished ∨ y s = x s

theorem KeptBy.refl (x : Action α) : KeptBy x x := fun _ => .inr rfl

theorem KeptBy.bind {x y : Action α} {f g : α → Action β} (hx : KeptBy x y)
    (hf : ∀ a, KeptBy (f a) (g a)) : KeptBy (x >>= f) (y >>= g) := by
  intro s
  simp only [bind_apply]
  obtain h | h := hx s
  · exact .inl (by rw [h])
  · rw [h]
    cases x s with
    | done a s' => exact hf a s'
    | halted fault s' => exact .inr rfl
    | unfinished => exact .inl rfl

theorem KeptBy.nested {x y : Action α} (h : KeptBy x y) : KeptBy (nested x) (nested y) := by
  intro s
  simp only [Action.nested]
  by_cases hdeep : s.settings.maxDepth ≤ s.depth
  · exact .inr (by rw [if_pos hdeep, if_pos hdeep])
  · rw [if_neg hdeep, if_neg hdeep]
    obtain h | h := h { s with depth := s.depth + 1 }
    · exact .inl (by rw [h])
    · exact .inr (by rw [h])

theorem KeptBy.begin {x y : Action (Option Value)} (h : KeptBy x y) (kind : Stmt.Kind)
    (p : Position) : KeptBy (begin kind p x) (begin kind p y) := by
  rw [← Machine.begin_action, ← Machine.begin_action]
  have hwork := (KeptBy.refl (announce kind p)).bind fun _ => h
  exact (KeptBy.refl checkInterrupt).bind fun _ => hwork.nested

theorem KeptBy.whileLoop {body body' : Action (Option Value)} (test : Action Bool)
    (hbody : KeptBy body body') {turns more : Nat} (hle : turns ≤ more) (count : Nat) :
    KeptBy (whileLoop test body turns count) (whileLoop test body' more count) := by
  induction turns generalizing more count with
  | zero => exact fun _ => .inl rfl
  | succ turns ih =>
    obtain ⟨more, rfl⟩ : ∃ n, more = n + 1 := ⟨more - 1, by omega⟩
    have hrest := ih (Nat.le_of_succ_le_succ hle) (count + 1)
    refine (KeptBy.refl checkInterrupt).bind fun _ => (KeptBy.refl test).bind fun b => ?_
    cases b with
    | true => exact hbody.bind fun _ => hrest
    | false => exact KeptBy.refl _

theorem KeptBy.doWhileLoop {body body' : Action (Option Value)} (test : Action Bool)
    (hbody : KeptBy body body') {turns more : Nat} (hle : turns ≤ more) (count : Nat) :
    KeptBy (doWhileLoop test body turns count) (doWhileLoop test body' more count) := by
  induction turns generalizing more count with
  | zero => exact fun _ => .inl rfl
  | succ turns ih =>
    obtain ⟨more, rfl⟩ : ∃ n, more = n + 1 := ⟨more - 1, by omega⟩
    have hrest := ih (Nat.le_of_succ_le_succ hle) (count + 1)
    refine (KeptBy.refl checkInterrupt).bind fun _ => hbody.bind fun _ =>
      (KeptBy.refl test).bind fun b => ?_
    cases b with
    | true => exact hrest
    | false => exact KeptBy.refl _

end Action

namespace Stmt

open TolerantScript.Action

variable {turns more : Nat}

mutual

theorem exec_keptBy (hle : turns ≤ more) : (stmt : Stmt) → KeptBy (stmt.exec turns) (stmt.exec more)
  | .expr _ | .declare none _ _ | .declare (some _) _ _ | .assign _ _ | .empty _ => by
    simp only [exec]
    exact KeptBy.refl _
  | .block stmts _ => by
    simp only [exec]
    exact (execAll_keptBy hle stmts none).begin _ _
  | .branch cond yes no _ => by
    simp only [exec]
    refine KeptBy.begin ((KeptBy.refl cond.test).bind fun b => ?_) _ _
    cases b with
    | true => exact exec_keptBy hle yes
    | false => exact execElse_keptBy hle no
  | .whileDo cond body _ => by
    simp only [exec]
    exact ((exec_keptBy hle body).whileLoop cond.test hle 0).begin _ _
  | .doWhile body cond _ => by
    simp only [exec]
    exact ((exec_keptBy hle body).doWhileLoop cond.test hle 0).begin _ _

theorem execAll_keptBy (hle : turns ≤ more) : (stmts : List Stmt) → (last : Option Value) →
    KeptBy (execAll turns last stmts) (execAll more last stmts)
  | [], last => by
    simp only [execAll]
    exact KeptBy.refl _
  | stmt :: rest, last => by
    simp only [execAll]
    exact (exec_keptBy hle stmt).bind fun value => execAll_keptBy hle rest value

theorem execElse_keptBy (hle : turns ≤ more) : (no : Option Stmt) →
    KeptBy (execElse turns no) (execElse more no)
  | none => by
    simp only [execElse]
    exact KeptBy.refl _
  | some stmt => by
    simp only [execElse]
    exact exec_keptBy hle stmt

end

theorem feed_keptBy (hle : turns ≤ more) (stopAfter : Option Nat) (stmts : List Stmt)
    (outputs : Array Value) (s : Session) :
    (feed turns stopAfter outputs stmts s).outcome = .unfinished ∨
      feed more stopAfter outputs stmts s = feed turns stopAfter outputs stmts s := by
  induction stmts generalizing outputs s with
  | nil => exact .inr rfl
  | cons stmt rest ih =>
    rw [feed_cons, feed_cons]
    obtain h | h := exec_keptBy hle stmt s
    · exact .inl (by rw [h])
    · rw [h]
      cases stmt.exec turns s with
      | done value s' => exact ih _ _
      | halted fault s' => exact .inr rfl
      | unfinished => exact .inl rfl

end Stmt

namespace Program

theorem runWith_keptBy {turns more : Nat} (hle : turns ≤ more) (stopAfter : Option Nat)
    (p : Program) (s : Session) :
    (p.runWith turns stopAfter s).outcome = .unfinished ∨
      p.runWith more stopAfter s = p.runWith turns stopAfter s := by
  simp only [runWith]
  obtain h | h := Stmt.feed_keptBy hle stopAfter p.stmts #[] (s.emit (.runStarted p.stmts.length))
  · exact .inl (by rw [h]; exact h)
  · exact .inr (by rw [h])

def Ends (p : Program) (stopAfter : Option Nat) (s : Session) (run : Run) : Prop :=
  run.outcome ≠ .unfinished ∧ ∃ turns, p.runWith turns stopAfter s = run

theorem Ends.of_le {p : Program} {stopAfter : Option Nat} {s : Session} {turns more : Nat}
    (h : (p.runWith turns stopAfter s).outcome ≠ .unfinished) (hle : turns ≤ more) :
    p.runWith more stopAfter s = p.runWith turns stopAfter s :=
  (p.runWith_keptBy hle stopAfter s).resolve_left h

theorem Ends.together {p q : Program} {stopAfter stopAfter' : Option Nat} {s t : Session}
    {run run' : Run} (h : p.Ends stopAfter s run) (h' : q.Ends stopAfter' t run') :
    ∃ turns, p.runWith turns stopAfter s = run ∧ q.runWith turns stopAfter' t = run' := by
  obtain ⟨hend, turns, rfl⟩ := h
  obtain ⟨hend', turns', rfl⟩ := h'
  refine ⟨max turns turns', ?_, ?_⟩
  · exact Ends.of_le hend (Nat.le_max_left _ _)
  · exact Ends.of_le hend' (Nat.le_max_right _ _)

theorem Ends.unique {p : Program} {stopAfter : Option Nat} {s : Session} {run run' : Run}
    (h : p.Ends stopAfter s run) (h' : p.Ends stopAfter s run') : run = run' := by
  obtain ⟨turns, hrun, hrun'⟩ := h.together h'
  exact hrun.symm.trans hrun'

end Program

end TolerantScript
