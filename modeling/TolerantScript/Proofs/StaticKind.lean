import TolerantScript.Proofs.Node

/-!
The type of an expression's value is fixed by the declared types of the variables. The values in the
variables have no part in it, not even where they make an operator fail.
-/

namespace TolerantScript

namespace Store

def tyOf? (s : Store) (name : String) : Option Ty := (s.find? name).map (·.ty)

def Sound (s : Store) : Prop := ∀ name x, s.find? name = some x → x.value.ty = x.ty

theorem sound_of_forall_mem {s : Store} (h : ∀ x ∈ s.variables, x.value.ty = x.ty) : s.Sound :=
  fun _ x hx => h x (List.mem_of_find?_eq_some hx)

end Store

namespace Expr

def kind (types : String → Option Ty) : Expr → Ty
  | .literal l _ => l.ty
  | .var name _ => (types name).getD .int
  | .binary op l r _ => op.kind (l.kind types) (r.kind types)
  | .unary op e _ => op.kind (e.kind types)
  | .paren e _ => e.kind types

def misfit? (types : String → Option Ty) : Expr → Option Fault
  | .literal l _ =>
    match l.value with
    | .ok _ => none
    | .error fault => some fault
  | .var name _ =>
    match types name with
    | some _ => none
    | none => some (.undeclaredVariable name)
  | .binary op l r _ => op.misfit? (l.kind types) (r.kind types)
  | .unary op e _ => op.misfit? (e.kind types)
  | .paren .. => none

end Expr

/-! What every kind of node gives has the type foretold, and fails as foretold. -/

theorem Literal.ty_of_value {l : Literal} {v : Value} (h : l.value = .ok v) : v.ty = l.ty := by
  obtain ⟨ty, text⟩ := l
  unfold value at h
  simp only at h
  split at h
  case h_2 => cases h
  case h_1 w hw =>
    cases h
    cases ty with
    | string =>
      cases hw
      rfl
    | _ =>
      obtain ⟨a, -, rfl⟩ := Option.map_eq_some_iff.mp hw
      rfl

theorem Literal.fault_of_value {l : Literal} {fault : Fault} (h : l.value = .error fault) :
    fault = .badLiteral l.ty l.text := by
  unfold value at h
  simp only at h
  split at h
  · cases h
  · cases h
    rfl

namespace Expr

theorem answers_literal (limit : Nat) (types : String → Option Ty) (l : Literal) (p : Position) :
    Answers limit l.ty ((Expr.literal l p).misfit? types) l.value := by
  simp only [misfit?]
  cases hv : l.value with
  | ok v => exact ⟨Literal.ty_of_value hv, rfl⟩
  | error fault =>
    rw [Literal.fault_of_value hv]
    exact ⟨rfl, rfl⟩

theorem answers_var (limit : Nat) {store : Store} (hs : store.Sound) (name : String)
    (p : Position) :
    Answers limit ((Expr.var name p).kind store.tyOf?) ((Expr.var name p).misfit? store.tyOf?)
      (store.get name) := by
  simp only [kind, misfit?, Store.tyOf?, Store.get]
  cases hx : store.find? name with
  | some x => exact ⟨hs name x hx, rfl⟩
  | none => exact ⟨rfl, rfl⟩

theorem kind_of_get_error {store : Store} {name : String} {fault : Fault}
    (h : store.get name = .error fault) (p : Position) :
    (Value.initial .int).ty = (Expr.var name p).kind store.tyOf? := by
  simp only [kind, Store.tyOf?]
  cases hx : store.find? name with
  | some x => simp [Store.get, hx] at h
  | none => rfl

end Expr

/-- The variables keep these types and hold values of them, and the limit on strings stays. -/
def Regime.Fixes (R : Regime) (types : String → Option Ty) (limit : Nat) : Prop :=
  ∀ s, R.Inv s → s.store.Sound ∧ s.store.tyOf? = types ∧ s.settings.maxStringLen = limit

open Regime in
theorem Answers.keeps {limit : Nat} {t : Ty} {misfit? : Option Fault} {r : Except Fault Value}
    (h : Answers limit t misfit? r) {R : Regime} {d : Nat} {p : Position} {fallback : Value}
    (hfallback : ∀ fault, r = .error fault → fallback.ty = t)
    (hrecord : ∀ fault, fault.ArisesFrom limit misfit? → R.Records p fault) :
    R.Keeps d (Action.recover p fallback r) (·.ty = t) := by
  cases r with
  | ok v => exact Keeps.pure h.1
  | error fault =>
    refine Keeps.recover (by simp) fun other hother => ?_
    cases hother
    exact ⟨h.isFatal, hrecord fault h, hfallback fault rfl⟩

namespace Expr

variable {R : Regime} {limit : Nat} {types : String → Option Ty}

/-- Success and failure of a node give values of one type, under any regime that fixes the types and
outlasts the faults to be expected. -/
theorem keeps_kind (hR : R.Fixes types limit) (n : Expr) (d : Nat)
    (hrecord : ∀ fault, fault.ArisesFrom limit (n.misfit? types) → R.Records n.position fault) :
    n.Keeps R (fun e v => v.ty = e.kind types) d := by
  cases n with
  | literal l p =>
    exact (answers_literal limit types l p).keeps (fun _ _ => Value.ty_initial l.ty) hrecord
  | var name p =>
    intro s hd hI
    obtain ⟨hsound, rfl, -⟩ := hR s hI
    exact (answers_var limit hsound name p).keeps (fun _ h => kind_of_get_error h p)
      hrecord s hd hI
  | binary op l r p =>
    cases hop : op.isLogical with
    | true =>
      -- A logical operator may fail on an operand, but what it gives is a truth value all the same.
      simp only [Expr.Keeps, hop, if_true]
      refine ⟨fun v hv fault hfault => ?_, fun b => ?_⟩
      · exact hrecord fault (BinaryOp.arisesFrom_of_truth limit hop hv hfault)
      · cases op with
        | and | or => rfl
        | _ => cases hop
    | false =>
      simp only [Expr.Keeps, hop]
      intro a b ha hb s hd hI
      obtain ⟨-, -, rfl⟩ := hR s hI
      have happly := BinaryOp.answers_apply s.settings.maxStringLen hop a b
      rw [ha, hb] at happly
      refine happly.keeps (fun _ _ => ?_) hrecord s hd hI
      rw [op.ty_fallback, ha, hb]
  | unary op e p =>
    intro a ha
    have happly := op.answers_apply limit a
    rw [ha] at happly
    refine happly.keeps (fun _ _ => ?_) hrecord
    rw [op.ty_fallback, ha]
  | paren e p => exact fun a ha => ha

def frozen (store : Store) (settings : Settings) : Regime where
  Inv s := s.store = store ∧ s.settings = settings
  Fatal _ _ := True
  inv_enter _ _ h := h
  inv_leave _ h := h
  inv_mark _ _ _ h := h
  fatal_leave _ _ _ := trivial

theorem frozen_fixes {store : Store} (hs : store.Sound) (settings : Settings) :
    (frozen store settings).Fixes store.tyOf? settings.maxStringLen := by
  rintro t ⟨rfl, rfl⟩
  exact ⟨hs, rfl, rfl⟩

theorem ty_of_eval {e : Expr} {s s' : Session} {v : Value} (hs : s.store.Sound)
    (h : e.eval s = .done v s') : v.ty = e.kind s.store.tyOf? := by
  have heval := eval_keeps e s.depth (fun k n _ =>
    ⟨fun _ _ _ _ => trivial, keeps_kind (frozen_fixes hs s.settings) n (k + 1) fun _ _ _ ht => ht⟩)
      s rfl ⟨rfl, rfl⟩
  rw [h] at heval
  exact heval.2.2

end Expr

end TolerantScript
