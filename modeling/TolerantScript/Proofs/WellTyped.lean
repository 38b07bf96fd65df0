import TolerantScript.Proofs.StaticKind
import TolerantScript.Proofs.Task

/-!
Well-typed code. Typing asks of every operator that it takes operands of the types it gets, of every
condition that it has a truth and of every assignment that the value converts to the variable's
type. Code that passes records no fault about types or names, whatever the values are: only what
depends on values, and literals whose text does not fit their type, can go wrong in it.
-/

namespace TolerantScript

def Ty.convertsTo : Ty → Ty → Bool
  | .int, .float | .int, .bool | .float, .bool => true
  | t, u => t = u

theorem Value.convert_of_convertsTo {v : Value} {t : Ty} (h : v.ty.convertsTo t = true)
    (name : Option String) : ∃ w, v.convert t name = .ok w := by
  cases v <;> cases t <;> cases h <;> exact ⟨_, rfl⟩

namespace Store

theorem tyOf?_put (s : Store) (name : String) (value : Value) :
    (s.put name value).tyOf? = s.tyOf? := by
  funext other
  simp only [tyOf?, find?_put, Option.map_map]
  congr 1
  funext x
  simp only [Function.comp_apply]
  split <;> rfl

theorem sound_put {s : Store} (hs : s.Sound) {name : String} {value : Value}
    (hty : s.tyOf? name = some value.ty) : (s.put name value).Sound := by
  intro other x hx
  rw [find?_put] at hx
  obtain ⟨y, hy, rfl⟩ := Option.map_eq_some_iff.mp hx
  split
  case isTrue hname =>
    -- The variable that was found is the one assigned to, so the value has its type.
    have hother : y.name = other := by simpa using List.find?_some hy
    rw [beq_iff_eq] at hname
    rw [← hname, hother, tyOf?, hy] at hty
    exact (Option.some.inj hty).symm
  case isFalse => exact hs other y hy

theorem assign_eq_ok {s s' : Store} {name : String} {value stored : Value}
    (h : s.assign name value = .ok (stored, s')) :
    s.tyOf? name = some stored.ty ∧ s' = s.put name stored := by
  unfold assign at h
  cases hx : s.find? name with
  | none => simp [hx] at h
  | some x =>
    simp only [hx] at h
    cases hc : value.convert x.ty (some name) with
    | error fault =>
      rw [hc] at h
      cases h
    | ok w =>
      rw [hc] at h
      cases h
      exact ⟨by rw [tyOf?, hx, Value.ty_of_convert _ _ _ _ hc]; rfl, rfl⟩

theorem assign_of_convertsTo {s : Store} {name : String} {value : Value} {t : Ty}
    (ht : s.tyOf? name = some t) (hc : value.ty.convertsTo t = true) :
    ∃ r, s.assign name value = .ok r := by
  obtain ⟨x, hx, rfl⟩ := Option.map_eq_some_iff.mp ht
  obtain ⟨w, hw⟩ := Value.convert_of_convertsTo hc (some name)
  exact ⟨(w, s.put name w), by simp only [assign, hx, hw]; rfl⟩

end Store

namespace Expr

def ty? (types : String → Option Ty) : Expr → Option Ty
  | .literal l _ => some l.ty
  | .var name _ => types name
  | .binary op l r _ => do op.resultTy? (← l.ty? types) (← r.ty? types)
  | .unary op e _ => do op.resultTy? (← e.ty? types)
  | .paren e _ => e.ty? types

end Expr

/-- What typing asks of a task. A declaration is no part of well-typed code. -/
def Task.isWellTyped (types : String → Option Ty) : Task → Bool
  | .start => true
  | .give e => (e.ty? types).isSome
  | .test e => (e.ty? types).any (· ≠ .string)
  | .assign target e => (e.ty? types).any fun t => (types target.name).any (t.convertsTo ·)
  | .declare .. => false

def Stmt.isWellTyped (types : String → Option Ty) (stmt : Stmt) : Bool :=
  stmt.work.all (·.isWellTyped types)

/-- Faults that well-typed code may have: of values, and of a literal with an unfitting text. -/
inductive Fault.OfWellTyped (limit : Nat) : Fault → Prop where
  | ofValues {fault : Fault} (h : fault.OfValues limit) : OfWellTyped limit fault
  | badLiteral (ty : Ty) (text : String) : OfWellTyped limit (.badLiteral ty text)

namespace Expr

variable {types : String → Option Ty}

theorem kind_of_ty? {e : Expr} {t : Ty} (h : e.ty? types = some t) : e.kind types = t := by
  induction e generalizing t with
  | literal l p => exact Option.some.inj h
  | var name p =>
    rw [ty?] at h
    rw [kind, h]
    rfl
  | binary op l r p ihl ihr =>
    obtain ⟨tl, hl, h⟩ := Option.bind_eq_some_iff.mp h
    obtain ⟨tr, hr, h⟩ := Option.bind_eq_some_iff.mp h
    rw [kind, ihl hl, ihr hr, BinaryOp.kind_of_resultTy? h]
  | unary op e p ih =>
    obtain ⟨te, he, h⟩ := Option.bind_eq_some_iff.mp h
    rw [kind, ih he, UnaryOp.kind_of_resultTy? h]
  | paren e p ih => exact ih h

theorem isSome_ty?_of_mem_nodes {e n : Expr} {d k : Nat} (hn : (k, n) ∈ e.nodes d)
    (he : (e.ty? types).isSome = true) : (n.ty? types).isSome = true := by
  induction e generalizing d with
  | literal l p | var name p =>
    simp only [nodes, List.mem_cons, List.not_mem_nil, or_false, Prod.mk.injEq] at hn
    exact hn.2 ▸ he
  | binary op l r p ihl ihr =>
    simp only [nodes, List.mem_cons, List.mem_append, Prod.mk.injEq] at hn
    obtain ⟨-, rfl⟩ | hn | hn := hn
    · exact he
    · obtain ⟨t, h⟩ := Option.isSome_iff_exists.mp he
      obtain ⟨tl, hl, -⟩ := Option.bind_eq_some_iff.mp h
      exact ihl hn (by rw [hl]; rfl)
    · obtain ⟨t, h⟩ := Option.isSome_iff_exists.mp he
      obtain ⟨tl, -, h⟩ := Option.bind_eq_some_iff.mp h
      obtain ⟨tr, hr, -⟩ := Option.bind_eq_some_iff.mp h
      exact ihr hn (by rw [hr]; rfl)
  | unary op e p ih =>
    simp only [nodes, List.mem_cons, Prod.mk.injEq] at hn
    obtain ⟨-, rfl⟩ | hn := hn
    · exact he
    · obtain ⟨t, h⟩ := Option.isSome_iff_exists.mp he
      obtain ⟨te, he, -⟩ := Option.bind_eq_some_iff.mp h
      exact ih hn (by rw [he]; rfl)
  | paren e p ih =>
    simp only [nodes, List.mem_cons, Prod.mk.injEq] at hn
    obtain ⟨-, rfl⟩ | hn := hn
    · exact he
    · exact ih hn he

/-- Typing leaves a node no misfit but a literal's. -/
theorem ofWellTyped_of_arisesFrom {n : Expr} {limit : Nat} {fault : Fault}
    (hn : (n.ty? types).isSome = true) (h : fault.ArisesFrom limit (n.misfit? types)) :
    fault.OfWellTyped limit := by
  obtain ⟨t, ht⟩ := Option.isSome_iff_exists.mp hn
  cases n with
  | literal l p =>
    simp only [misfit?] at h
    cases hv : l.value with
    | ok v =>
      rw [hv] at h
      exact .ofValues h
    | error f =>
      rw [hv] at h
      rw [h.1, Literal.fault_of_value hv]
      exact .badLiteral l.ty l.text
  | var name p =>
    rw [ty?] at ht
    simp only [misfit?, ht] at h
    exact .ofValues h
  | binary op l r p =>
    obtain ⟨tl, hl, ht⟩ := Option.bind_eq_some_iff.mp ht
    obtain ⟨tr, hr, ht⟩ := Option.bind_eq_some_iff.mp ht
    simp only [misfit?, kind_of_ty? hl, kind_of_ty? hr, BinaryOp.misfit?, ht] at h
    exact .ofValues h
  | unary op e p =>
    obtain ⟨te, he, ht⟩ := Option.bind_eq_some_iff.mp ht
    simp only [misfit?, kind_of_ty? he, UnaryOp.misfit?, ht] at h
    exact .ofValues h
  | paren e p => exact .ofValues h

end Expr

structure TypedSession (types : String → Option Ty) (limit : Nat) (old : List Diagnostic)
    (s : Session) : Prop where
  sound : s.store.Sound
  types_eq : s.store.tyOf? = types
  limit_eq : s.settings.maxStringLen = limit
  appended : ∃ appended, s.diagnostics.toList = old ++ appended ∧
    ∀ d ∈ appended, d.fault.OfWellTyped limit

def wellTyped (types : String → Option Ty) (limit : Nat) (old : List Diagnostic) : Regime where
  Inv := TypedSession types limit old
  Fatal _ _ := True
  inv_enter _ _ h := ⟨h.sound, h.types_eq, h.limit_eq, h.appended⟩
  inv_leave _ h := ⟨h.sound, h.types_eq, h.limit_eq, h.appended⟩
  inv_mark _ _ _ h := ⟨h.sound, h.types_eq, h.limit_eq, h.appended⟩
  fatal_leave _ _ _ := trivial

section

open Regime

variable {types : String → Option Ty} {limit : Nat} {old : List Diagnostic}

theorem wellTyped_fixes : (wellTyped types limit old).Fixes types limit :=
  fun _ hs => ⟨hs.sound, hs.types_eq, hs.limit_eq⟩

theorem wellTyped_records (p : Position) {fault : Fault} (h : fault.OfWellTyped limit) :
    (wellTyped types limit old).Records p fault := by
  intro s hs
  exact ⟨hs.sound, hs.types_eq, hs.limit_eq, Session.appended_record hs.appended h⟩

theorem Expr.wellTyped_eval {e : Expr} {t : Ty} (he : e.ty? types = some t) (d : Nat) :
    (wellTyped types limit old).Keeps d e.eval (·.ty = t) := by
  rw [← Expr.kind_of_ty? he]
  refine Expr.eval_keeps (Q := fun e v => v.ty = e.kind types) e d fun k n hn =>
    ⟨fun _ _ _ _ => trivial, ?_⟩
  have hty := Expr.isSome_ty?_of_mem_nodes hn (by rw [he]; rfl)
  exact Expr.keeps_kind wellTyped_fixes n (k + 1) fun fault hfault =>
    wellTyped_records n.position (Expr.ofWellTyped_of_arisesFrom hty hfault)

theorem wellTyped_assignTo {target : Ident} {value : Value} {t : Ty}
    (ht : types target.name = some t) (hc : value.ty.convertsTo t = true) (d : Nat) :
    (wellTyped types limit old).Keeps d (Action.assignTo target value) fun _ => True := by
  refine Keeps.assignTo (fun s stored store hs h => ?_) fun s fault hs h => ?_
  · obtain ⟨hty, rfl⟩ := Store.assign_eq_ok h
    refine ⟨⟨Store.sound_put hs.sound hty, ?_, hs.limit_eq, hs.appended⟩, trivial⟩
    exact (Store.tyOf?_put s.store target.name stored).trans hs.types_eq
  · obtain ⟨r, hr⟩ := Store.assign_of_convertsTo (hs.types_eq ▸ ht) hc
    rw [hr] at h
    cases h

theorem Task.wellTyped_keeps {task : Task} (h : task.isWellTyped types = true) (d : Nat) :
    task.Keeps (wellTyped types limit old) (fun _ => True) d := by
  cases task with
  | start => exact ⟨fun _ _ _ => trivial, fun _ _ _ _ => trivial⟩
  | give e =>
    obtain ⟨t, he⟩ := Option.isSome_iff_exists.mp h
    exact (Expr.wellTyped_eval he d).weaken fun _ _ => trivial
  | test e =>
    obtain ⟨t, he, hne⟩ := Option.any_eq_true _ _ |>.mp h
    refine Keeps.truthOf (Expr.wellTyped_eval he d) fun v hv fault hfault => ?_
    obtain ⟨b, hb⟩ := Value.truth_of_ne_string (hv ▸ of_decide_eq_true hne)
    rw [hb] at hfault
    cases hfault
  | assign target e =>
    obtain ⟨t, he, htarget⟩ := Option.any_eq_true _ _ |>.mp h
    obtain ⟨u, hu, hc⟩ := Option.any_eq_true _ _ |>.mp htarget
    refine Keeps.bind (Expr.wellTyped_eval he d) fun v hv => ?_
    exact (wellTyped_assignTo hu (hv ▸ hc) d).weaken fun _ _ _ _ => trivial
  | declare ty names p => cases h

end

/-- However the execution of a well-typed statement ends, all faults it recorded are of values or of
literals, and the variables have kept their types and hold values of them. -/
theorem Stmt.faults_of_wellTyped (turns : Nat) {stmt : Stmt} {s s' : Session}
    (hs : s.store.Sound) (ht : stmt.isWellTyped s.store.tyOf? = true)
    (hend : (stmt.exec turns s).session? = some s') :
    (∃ appended, s'.diagnostics.toList = s.diagnostics.toList ++ appended ∧
      ∀ d ∈ appended, d.fault.OfWellTyped s.settings.maxStringLen) ∧
    s'.store.Sound ∧ ∀ name, s'.store.tyOf? name = s.store.tyOf? name := by
  have hexec := Stmt.exec_keeps
    (wellTyped s.store.tyOf? s.settings.maxStringLen s.diagnostics.toList) (fun _ => True) turns
    stmt s.depth fun k task hk => Task.wellTyped_keeps (List.all_eq_true.mp ht task (mem_work hk)) k
  have hstart : TypedSession s.store.tyOf? s.settings.maxStringLen s.diagnostics.toList s :=
    ⟨hs, rfl, rfl, [], (List.append_nil _).symm, by simp⟩
  obtain ⟨-, hs'⟩ := (hexec s rfl hstart).session hend
  exact ⟨hs'.appended, hs'.sound, fun name => by rw [hs'.types_eq]⟩

namespace Stmt

/-- `while (n < 3) { n = n + 1; q = 6 / (n - 2); t = t . "ab"; }`, which divides by zero on its
second turn. -/
def divideAndGrow : Stmt :=
  .whileDo (.binary .lt (.var "n" ⟨1, 8⟩) (.literal ⟨.int, "3"⟩ ⟨1, 12⟩) ⟨1, 10⟩)
    (.block
      [.assign ⟨"n", ⟨2, 1⟩⟩
        (.binary .add (.var "n" ⟨2, 5⟩) (.literal ⟨.int, "1"⟩ ⟨2, 9⟩) ⟨2, 7⟩),
      .assign ⟨"q", ⟨3, 1⟩⟩
        (.binary .div (.literal ⟨.int, "6"⟩ ⟨3, 5⟩)
          (.paren (.binary .sub (.var "n" ⟨3, 10⟩) (.literal ⟨.int, "2"⟩ ⟨3, 14⟩) ⟨3, 12⟩) ⟨3, 9⟩)
          ⟨3, 7⟩),
      .assign ⟨"t", ⟨4, 1⟩⟩
        (.binary .concat (.var "t" ⟨4, 5⟩) (.literal ⟨.string, "ab"⟩ ⟨4, 9⟩) ⟨4, 7⟩)] ⟨1, 15⟩)
    ⟨1, 1⟩

def divideAndGrowStart : Session :=
  { settings := { maxStringLen := 4 }
    store := ⟨[⟨"n", .int, .initial .int⟩, ⟨"q", .float, .initial .float⟩,
      ⟨"t", .string, .initial .string⟩]⟩ }

theorem faults_of_wellTyped_divideAndGrow :
    divideAndGrowStart.store.Sound ∧
    divideAndGrow.isWellTyped divideAndGrowStart.store.tyOf? = true ∧
    ∃ s', (divideAndGrow.exec 5 divideAndGrowStart).session? = some s' ∧
      s'.diagnostics.size = 2 ∧ (∀ d ∈ s'.diagnostics.toList, d.fault.OfWellTyped 4) ∧
      s'.store.Sound := by
  have hs : divideAndGrowStart.store.Sound :=
    Store.sound_of_forall_mem (by simp [divideAndGrowStart, Value.ty_initial])
  have ht : divideAndGrow.isWellTyped divideAndGrowStart.store.tyOf? = true := by decide +kernel
  have hsize : (divideAndGrow.exec 5 divideAndGrowStart).session?.map (·.diagnostics.size) =
      some 2 := by
    decide +kernel
  obtain ⟨s', hend, hsize⟩ := Option.map_eq_some_iff.mp hsize
  obtain ⟨⟨appended, hdiag, hall⟩, hs', -⟩ := faults_of_wellTyped 5 hs ht hend
  refine ⟨hs, ht, s', hend, hsize, ?_, hs'⟩
  rw [hdiag]
  exact hall

end Stmt

end TolerantScript
