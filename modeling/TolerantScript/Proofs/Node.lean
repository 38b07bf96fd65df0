import TolerantScript.Proofs.Accord
import TolerantScript.Proofs.OperatorType

/-!
The nodes of an expression. Evaluations go together, or one keeps to a regime, if what is done at
each single node does, given what is known of the operands' values.
-/

namespace TolerantScript.Expr

open Machine

def combine (op : BinaryOp) (p : Position) (a b : Value) : Action Value := do
  Action.recover p (op.fallback a b) (op.apply (← Action.settings).maxStringLen a b)

theorem eval_binary {op : BinaryOp} (hop : op.isLogical = false) (l r : Expr) (p : Position) :
    (Expr.binary op l r p).eval = Action.nested (do
      let a ← l.eval
      let b ← r.eval
      combine op p a b) := by
  cases op with
  | and | or => cases hop
  | _ => rfl

/-- The expression at depth `d` and all expressions inside it, each with its depth. -/
def nodes (d : Nat) : Expr → List (Nat × Expr)
  | .literal l p => [(d, .literal l p)]
  | .var name p => [(d, .var name p)]
  | .binary op l r p => (d, .binary op l r p) :: (l.nodes (d + 1) ++ r.nodes (d + 1))
  | .unary op e p => (d, .unary op e p) :: e.nodes (d + 1)
  | .paren e p => (d, .paren e p) :: e.nodes (d + 1)

theorem map_snd_nodes (e : Expr) (d d' : Nat) :
    (e.nodes d).map (·.2) = (e.nodes d').map (·.2) := by
  induction e generalizing d d' with
  | literal l p | var name p => rfl
  | binary op l r p ihl ihr =>
    simp only [nodes, List.map_cons, List.map_append, ihl (d + 1) (d' + 1), ihr (d + 1) (d' + 1)]
  | unary op e p ih | paren e p ih => simp only [nodes, List.map_cons, ih (d + 1) (d' + 1)]

def parts (e : Expr) : List Expr := (e.nodes 0).map (·.2)

theorem mem_parts {e n : Expr} {d k : Nat} (h : (k, n) ∈ e.nodes d) : n ∈ e.parts := by
  rw [parts, map_snd_nodes e 0 d]
  exact List.mem_map_of_mem h

theorem parts_binary (op : BinaryOp) (l r : Expr) (p : Position) :
    (Expr.binary op l r p).parts = .binary op l r p :: (l.parts ++ r.parts) := by
  simp only [parts, nodes, List.map_cons, List.map_append, map_snd_nodes _ (0 + 1) 0]

theorem parts_unary (op : UnaryOp) (e : Expr) (p : Position) :
    (Expr.unary op e p).parts = .unary op e p :: e.parts := by
  simp only [parts, nodes, List.map_cons, map_snd_nodes _ (0 + 1) 0]

theorem parts_paren (e : Expr) (p : Position) :
    (Expr.paren e p).parts = .paren e p :: e.parts := by
  simp only [parts, nodes, List.map_cons, map_snd_nodes _ (0 + 1) 0]

theorem mem_parts_trans {a b c : Expr} (hab : a ∈ b.parts) (hbc : b ∈ c.parts) : a ∈ c.parts := by
  induction c with
  | literal l p | var name p =>
    rw [List.mem_singleton.mp hbc] at hab
    exact hab
  | binary op l r p ihl ihr =>
    rw [parts_binary, List.mem_cons, List.mem_append] at hbc
    obtain rfl | hl | hr := hbc
    · exact hab
    · rw [parts_binary]
      exact List.mem_cons_of_mem _ (List.mem_append_left _ (ihl hl))
    · rw [parts_binary]
      exact List.mem_cons_of_mem _ (List.mem_append_right _ (ihr hr))
  | unary op e p ih =>
    rw [parts_unary, List.mem_cons] at hbc
    obtain rfl | he := hbc
    · exact hab
    · rw [parts_unary]
      exact List.mem_cons_of_mem _ (ih he)
  | paren e p ih =>
    rw [parts_paren, List.mem_cons] at hbc
    obtain rfl | he := hbc
    · exact hab
    · rw [parts_paren]
      exact List.mem_cons_of_mem _ (ih he)

/-! Evaluations side by side. -/

section

variable {m n : Type → Type} [Machine m] [Machine n]

/-- What two evaluations do at a node, at depth `d`, once its operands have their values, goes
together. The values of every expression `e` have `Q e`. -/
def Agrees (A : Accord m n) (Q : Expr → Value → Prop) (d : Nat) : Expr → Prop
  | .literal l p =>
    A.Rel d (recover p (.initial l.ty) l.value) (recover p (.initial l.ty) l.value)
      (Q (.literal l p))
  | .var name p =>
    A.Rel d (do recover p (.initial .int) (← perform (Action.lookup name)))
      (do recover p (.initial .int) (← perform (Action.lookup name))) (Q (.var name p))
  | .binary op l r p =>
    if op.isLogical then
      (∀ v, Q l v ∨ Q r v → ∀ fault, v.truth = .error fault → A.Reports d p fault) ∧
        ∀ b, Q (.binary op l r p) (.bool b)
    else
      ∀ a b, Q l a → Q r b →
        A.Rel d (do recover p (op.fallback a b) (← perform (Action.operate op a b)))
          (do recover p (op.fallback a b) (← perform (Action.operate op a b)))
          (Q (.binary op l r p))
  | .unary op e p => ∀ a, Q e a →
    A.Rel d (recover p (op.fallback a) (op.apply a)) (recover p (op.fallback a) (op.apply a))
      (Q (.unary op e p))
  | .paren e p => ∀ a, Q e a → Q (.paren e p) a

variable {A : Accord m n} {Q : Expr → Value → Prop}

theorem evalIn_binary {op : BinaryOp} (hop : op.isLogical = false) (l r : Expr) (p : Position) :
    (Expr.binary op l r p).evalIn m = nested (do
      let a ← l.evalIn m
      let b ← r.evalIn m
      recover p (op.fallback a b) (← perform (Action.operate op a b))) := by
  cases op with
  | and | or => cases hop
  | _ => rfl

/-- A logical operator may leave its right operand out, but then both evaluations do. -/
theorem agree_of_logical {op : BinaryOp} (hop : op.isLogical = true) {l r : Expr} {p : Position}
    {d : Nat} (he : A.Enters d) (hn : Agrees A Q (d + 1) (.binary op l r p))
    (hl : A.Rel (d + 1) (l.evalIn m) (l.evalIn n) (Q l))
    (hr : A.Rel (d + 1) (r.evalIn m) (r.evalIn n) (Q r)) :
    A.Rel d ((Expr.binary op l r p).evalIn m) ((Expr.binary op l r p).evalIn n)
      (Q (.binary op l r p)) := by
  rw [Agrees, if_pos hop] at hn
  obtain ⟨hreport, hQ⟩ := hn
  have hleft := Accord.truthOf hl fun v hv => hreport v (.inl hv)
  have hright := Accord.truthOf hr fun v hv => hreport v (.inr hv)
  cases op with
  | and =>
    refine he (A.bind hleft fun b _ => ?_)
    cases b with
    | true => exact A.bind hright fun c _ => A.pure (hQ c)
    | false => exact A.pure (hQ false)
  | or =>
    refine he (A.bind hleft fun b _ => ?_)
    cases b with
    | true => exact A.pure (hQ true)
    | false => exact A.bind hright fun c _ => A.pure (hQ c)
  | _ => cases hop

theorem eval_agrees (e : Expr) (d : Nat)
    (h : ∀ k node, (k, node) ∈ e.nodes d → A.Enters k ∧ node.Agrees A Q (k + 1)) :
    A.Rel d (e.evalIn m) (e.evalIn n) (Q e) := by
  induction e generalizing d with
  | literal l p =>
    obtain ⟨he, hn⟩ := h d _ List.mem_cons_self
    exact he hn
  | var name p =>
    obtain ⟨he, hn⟩ := h d _ List.mem_cons_self
    exact he hn
  | binary op l r p ihl ihr =>
    obtain ⟨he, hn⟩ := h d _ List.mem_cons_self
    have hl := ihl (d + 1) fun k node hk =>
      h k node (List.mem_cons_of_mem _ (List.mem_append_left _ hk))
    have hr := ihr (d + 1) fun k node hk =>
      h k node (List.mem_cons_of_mem _ (List.mem_append_right _ hk))
    cases hop : op.isLogical with
    | true => exact agree_of_logical hop he hn hl hr
    | false =>
      simp only [Agrees, hop] at hn
      rw [evalIn_binary hop, evalIn_binary hop]
      exact he (A.bind hl fun a ha => A.bind hr fun b hb => hn a b ha hb)
  | unary op e p ih =>
    obtain ⟨he, hn⟩ := h d _ List.mem_cons_self
    have hv := ih (d + 1) fun k node hk => h k node (List.mem_cons_of_mem _ hk)
    exact he (A.bind hv fun a ha => hn a ha)
  | paren e p ih =>
    obtain ⟨he, hn⟩ := h d _ List.mem_cons_self
    have hv := ih (d + 1) fun k node hk => h k node (List.mem_cons_of_mem _ hk)
    exact he (A.weaken hv hn)

end

/-! One evaluation under a regime. -/

def Keeps (R : Regime) (Q : Expr → Value → Prop) (d : Nat) : Expr → Prop
  | .literal l p => R.Keeps d (Action.recover p (.initial l.ty) l.value) (Q (.literal l p))
  | .var name p =>
    R.Keeps d (do Action.recover p (.initial .int) ((← Action.store).get name)) (Q (.var name p))
  | .binary op l r p =>
    if op.isLogical then
      (∀ v, Q l v ∨ Q r v → ∀ fault, v.truth = .error fault → R.Records p fault) ∧
        ∀ b, Q (.binary op l r p) (.bool b)
    else
      ∀ a b, Q l a → Q r b → R.Keeps d (combine op p a b) (Q (.binary op l r p))
  | .unary op e p => ∀ a, Q e a →
    R.Keeps d (Action.recover p (op.fallback a) (op.apply a)) (Q (.unary op e p))
  | .paren e p => ∀ a, Q e a → Q (.paren e p) a

open Regime

variable {R : Regime} {Q : Expr → Value → Prop}

theorem Keeps.agrees {node : Expr} {d : Nat} (h : node.Keeps R Q d) : node.Agrees R.accord Q d := by
  cases node with
  | literal l p =>
    simp only [Agrees, recover_action]
    exact h
  | var name p => exact h
  | binary op l r p =>
    cases hop : op.isLogical with
    | true =>
      simp only [Expr.Keeps, Agrees, hop, if_true] at h ⊢
      exact ⟨fun v hv fault hfault => Keeps.report (h.1 v hv fault hfault), h.2⟩
    | false =>
      simp only [Expr.Keeps, Agrees, hop] at h ⊢
      exact h
  | unary op e p =>
    simp only [Agrees, recover_action]
    exact h
  | paren e p => exact h

theorem eval_keeps (e : Expr) (d : Nat)
    (h : ∀ k n, (k, n) ∈ e.nodes d → R.Enters k ∧ n.Keeps R Q (k + 1)) :
    R.Keeps d e.eval (Q e) := by
  have heval := eval_agrees (A := R.accord) e d fun k node hk =>
    ⟨Keeps.nested (h k node hk).1, (h k node hk).2.agrees⟩
  rw [evalIn_action] at heval
  exact heval

end TolerantScript.Expr
