import TolerantScript.Proofs.Machine

/-!
Executions side by side: two ways of executing one tree that go together step by step, each from a
session of its own, with what is known of the values they give. An execution beside itself, with the
second one left out of account, is a single execution.
-/

namespace TolerantScript

open Machine

/-- A relation between executions that their steps can be put together by. -/
structure Accord (m n : Type → Type) [Machine m] [Machine n] where
  /-- Started at depth `d`, the two go together, and a value that they give has `Q`. -/
  Rel {α : Type} (d : Nat) (x : m α) (y : n α) (Q : α → Prop) : Prop
  pure {α : Type} {d : Nat} {a : α} {Q : α → Prop} : Q a → Rel d (pure a) (pure a) Q
  bind {α β : Type} {d : Nat} {x : m α} {y : n α} {f : α → m β} {g : α → n β} {P : α → Prop}
    {Q : β → Prop} :
    Rel d x y P → (∀ a, P a → Rel d (f a) (g a) Q) → Rel d (x >>= f) (y >>= g) Q
  weaken {α : Type} {d : Nat} {x : m α} {y : n α} {P Q : α → Prop} :
    Rel d x y P → (∀ a, P a → Q a) → Rel d x y Q
  giveUp {α : Type} {d : Nat} {Q : α → Prop} :
    Rel d (perform Action.giveUp) (perform Action.giveUp) Q
  announce {d : Nat} (kind : Stmt.Kind) (p : Position) :
    Rel d (perform (Action.announce kind p)) (perform (Action.announce kind p)) fun _ => True
  mark {d : Nat} {e : Event} :
    e.isMark = true → Rel d (perform (Action.emit e)) (perform (Action.emit e)) fun _ => True

namespace Accord

variable {m n : Type → Type} [Machine m] [Machine n] (A : Accord m n) {d : Nat}

def Enters (d : Nat) : Prop :=
  ∀ {α : Type} {x : m α} {y : n α} {Q : α → Prop},
    A.Rel (d + 1) x y Q → A.Rel d (nested x) (nested y) Q

def Stops : Prop :=
  ∀ d, A.Rel d (perform Action.checkInterrupt) (perform Action.checkInterrupt) fun _ => True

def Reports (d : Nat) (p : Position) (fault : Fault) : Prop :=
  A.Rel d (report p fault) (report p fault) fun _ => True

variable {A}

theorem truthOf {p : Position} {x : m Value} {y : n Value} {P : Value → Prop} (h : A.Rel d x y P)
    (hP : ∀ v, P v → ∀ fault, v.truth = .error fault → A.Reports d p fault) :
    A.Rel d (Machine.truthOf p x) (Machine.truthOf p y) fun _ => True := by
  refine A.bind h fun v hv => ?_
  have hreport := hP v hv
  cases htruth : v.truth with
  | ok b => exact A.pure trivial
  | error fault => exact A.bind (hreport fault htruth) fun _ _ => A.pure trivial

theorem begin {kind : Stmt.Kind} {p : Position} {x : m (Option Value)} {y : n (Option Value)}
    {Q : Option Value → Prop} (hstart : A.Stops ∧ A.Enters d) (h : A.Rel (d + 1) x y Q) :
    A.Rel d (Machine.begin kind p x) (Machine.begin kind p y) Q :=
  A.bind (hstart.1 d) fun _ _ => hstart.2 (A.bind (A.announce kind p) fun _ _ => h)

theorem whileLoop {test : m Bool} {test' : n Bool} {body : m (Option Value)}
    {body' : n (Option Value)} (hstop : A.Stops) (ht : A.Rel d test test' fun _ => True)
    (hb : A.Rel d body body' fun _ => True) (turns count : Nat) :
    A.Rel d (Machine.whileLoop test body turns count) (Machine.whileLoop test' body' turns count)
      (· = none) := by
  induction turns generalizing count with
  | zero => exact A.giveUp
  | succ turns ih =>
    refine A.bind (hstop d) fun _ _ => A.bind ht fun b _ => ?_
    cases b with
    | true => exact A.bind hb fun _ _ => ih (count + 1)
    | false => exact A.bind (A.mark rfl) fun _ _ => A.pure rfl

theorem doWhileLoop {test : m Bool} {test' : n Bool} {body : m (Option Value)}
    {body' : n (Option Value)} (hstop : A.Stops) (ht : A.Rel d test test' fun _ => True)
    (hb : A.Rel d body body' fun _ => True) (turns count : Nat) :
    A.Rel d (Machine.doWhileLoop test body turns count)
      (Machine.doWhileLoop test' body' turns count) (· = none) := by
  induction turns generalizing count with
  | zero => exact A.giveUp
  | succ turns ih =>
    refine A.bind (hstop d) fun _ _ => A.bind hb fun _ _ => A.bind ht fun b _ => ?_
    cases b with
    | true => exact ih (count + 1)
    | false => exact A.bind (A.mark rfl) fun _ _ => A.pure rfl

end Accord

/-! A regime is an accord of one execution. -/

namespace Regime

variable (R : Regime)

theorem keeps_announce {d : Nat} (kind : Stmt.Kind) (p : Position) :
    R.Keeps d (Action.announce kind p) fun _ => True := by
  intro s hd hI
  simp only [Action.announce, Action.bind_apply, Action.settings]
  split
  · exact Keeps.mark rfl s hd hI
  · exact ⟨hd, hI, trivial⟩

def accord : Accord Action Action where
  Rel d x _ Q := R.Keeps d x Q
  pure := Keeps.pure
  bind := Keeps.bind
  weaken := Keeps.weaken
  giveUp _ _ _ := trivial
  announce := R.keeps_announce
  mark := Keeps.mark

end Regime

end TolerantScript
