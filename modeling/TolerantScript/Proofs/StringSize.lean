import TolerantScript.Proofs.Course
import TolerantScript.Proofs.FatalFault
import TolerantScript.Proofs.Provenance
import TolerantScript.Proofs.WellTyped

/-!
The size of strings. What a program can build from strings of at most so many bytes has no more
bytes either, at no moment of a run, if the operators' own limit and the literals keep to the bound.
-/

namespace TolerantScript

namespace Value

def Fits (bound : Nat) : Value → Prop
  | .string s => s.utf8ByteSize ≤ bound
  | _ => True

variable {bound : Nat}

theorem fits_of_ty_ne {v : Value} (h : v.ty ≠ .string) : v.Fits bound := by
  cases v with
  | string s => exact absurd rfl h
  | _ => trivial

theorem fits_initial (ty : Ty) : (initial ty).Fits bound := by
  cases ty with
  | string => exact Nat.zero_le bound
  | _ => trivial

theorem Fits.convert {v w : Value} {target : Ty} {name : Option String} (hv : v.Fits bound)
    (h : v.convert target name = .ok w) : w.Fits bound := by
  by_cases htarget : target = .string
  · subst htarget
    cases v with
    | string s =>
      cases h
      exact hv
    | _ => cases h
  · have hty : w.ty ≠ .string := by
      rw [ty_of_convert v w target name h]
      exact htarget
    exact fits_of_ty_ne hty

end Value

theorem utf8ByteSize_repeated (s : String) (n : Nat) :
    (repeated s n).utf8ByteSize = s.utf8ByteSize * n := by
  have hrepeat : (n.repeat (· ++ s) "").utf8ByteSize = s.utf8ByteSize * n := by
    induction n with
    | zero => rfl
    | succ n ih => rw [Nat.repeat, String.utf8ByteSize_append, ih, Nat.mul_succ]
  unfold repeated
  split
  case isTrue hempty =>
    have hsize : s.utf8ByteSize = 0 := by simpa using hempty
    rw [hsize, Nat.zero_mul]
    rfl
  case isFalse => exact hrepeat

namespace BinaryOp

variable {limit bound : Nat} {v : Value}

theorem fits_join {s t : String} (hlimit : limit ≤ bound) (h : join limit s t = .ok v) :
    v.Fits bound := by
  rw [join, checkLength_wordLength?] at h
  split at h
  case isTrue hsize =>
    cases h
    rw [Value.Fits, String.utf8ByteSize_append]
    omega
  case isFalse => cases h

theorem fits_multiply {s : String} {count : Int32} (hlimit : limit ≤ bound)
    (h : multiply limit s count = .ok v) : v.Fits bound := by
  rw [multiply, checkLength_wordLength?] at h
  split at h
  case isTrue => cases h
  case isFalse =>
    split at h
    case isTrue hsize =>
      cases h
      rw [Value.Fits, utf8ByteSize_repeated]
      omega
    case isFalse => cases h

theorem fits_arithmetic {op : BinaryOp} {exact : Int → Int → Int}
    {rounded : Single → Single → Single} {l r : Value}
    (h : arithmetic op exact rounded l r = .ok v) : v.Fits bound := by
  unfold arithmetic Value.ofInt at h
  split at h
  · split at h <;> cases h
    trivial
  · split at h <;> cases h
    trivial

/-- Whatever the operands, an operator builds no string that is longer than the limit. -/
theorem fits_apply {op : BinaryOp} {l r : Value} (hop : op.isLogical = false)
    (hlimit : limit ≤ bound) (h : op.apply limit l r = .ok v) : v.Fits bound := by
  have hty : v.ty = op.kind l.ty r.ty := by
    have hanswers := answers_apply limit hop l r
    rw [h] at hanswers
    exact hanswers.1
  cases op with
  | add =>
    simp only [apply] at h
    split at h
    · exact fits_join hlimit h
    · exact fits_arithmetic h
  | mul =>
    simp only [apply] at h
    split at h
    · exact fits_multiply hlimit h
    · exact fits_multiply hlimit h
    · exact fits_arithmetic h
  | concat =>
    simp only [apply] at h
    split at h
    · exact fits_join hlimit h
    · cases h
  | and | or => cases hop
  | sub | div =>
    refine Value.fits_of_ty_ne ?_
    rw [hty, kind]
    split <;> simp
  | _ => exact Value.fits_of_ty_ne (by simp [hty, kind])

theorem fallback_eq_initial (op : BinaryOp) (l r : Value) :
    op.fallback l r = .initial (op.kind l.ty r.ty) := by
  cases op with
  | add | mul =>
    simp only [fallback, kind]
    split
    · rfl
    · split <;> rfl
  | sub | div =>
    simp only [fallback, kind]
    split <;> rfl
  | _ => rfl

end BinaryOp

theorem UnaryOp.kind_ne_string (op : UnaryOp) (t : Ty) : op.kind t ≠ .string := by
  cases op <;> cases t <;> decide

theorem UnaryOp.fits_apply {bound : Nat} {op : UnaryOp} {a v : Value} (h : op.apply a = .ok v) :
    v.Fits bound := by
  have hanswers := op.answers_apply 0 a
  rw [h] at hanswers
  have hty : v.ty ≠ .string := hanswers.1 ▸ op.kind_ne_string a.ty
  exact Value.fits_of_ty_ne hty

/-! Sessions. -/

namespace Store

def Fits (bound : Nat) (s : Store) : Prop := ∀ x ∈ s.variables, x.value.Fits bound

variable {bound : Nat} {s s' : Store} {name : String}

theorem Fits.get {v : Value} (hs : s.Fits bound) (h : s.get name = .ok v) : v.Fits bound := by
  unfold Store.get at h
  cases hx : s.find? name with
  | none => simp [hx] at h
  | some x =>
    simp only [hx, Except.ok.injEq] at h
    rw [← h]
    exact hs x (List.mem_of_find?_eq_some hx)

theorem Fits.declare {ty : Ty} (hs : s.Fits bound) (h : s.declare name ty = .ok s') :
    s'.Fits bound := by
  intro x hx
  rw [variables_declare s s' name ty h] at hx
  obtain hx | hx := List.mem_append.mp hx
  · exact hs x hx
  · rw [List.mem_singleton.mp hx]
    exact Value.fits_initial ty

theorem Fits.put {v : Value} (hs : s.Fits bound) (hv : v.Fits bound) :
    (s.put name v).Fits bound := by
  intro x hx
  obtain ⟨y, hy, rfl⟩ := List.mem_map.mp hx
  split
  · exact hv
  · exact hs y hy

theorem Fits.assign {value stored : Value} (hs : s.Fits bound) (hvalue : value.Fits bound)
    (h : s.assign name value = .ok (stored, s')) : stored.Fits bound ∧ s'.Fits bound := by
  have hstored : stored.Fits bound := by
    unfold Store.assign at h
    cases hx : s.find? name with
    | none => simp [hx] at h
    | some x =>
      simp only [hx] at h
      cases hc : value.convert x.ty (some name) with
      | error fault =>
        rw [hc] at h
        cases h
      | ok w =>
        rw [hc] at h
        cases h
        exact hvalue.convert hc
  obtain ⟨-, rfl⟩ := assign_eq_ok h
  exact ⟨hstored, hs.put hstored⟩

end Store

structure Session.Fits (bound : Nat) (s : Session) : Prop where
  limit : s.settings.maxStringLen ≤ bound
  store : s.store.Fits bound

def bounding (bound : Nat) : Regime where
  Inv := Session.Fits bound
  Fatal _ _ := True
  inv_enter _ _ h := { h with }
  inv_leave _ h := { h with }
  inv_mark _ _ _ h := { h with }
  fatal_leave _ _ _ := trivial

theorem Action.value_of_recover {p : Position} {fallback v : Value} {r : Except Fault Value}
    {s t : Session} (h : recover p fallback r s = .done v t) : r = .ok v ∨ v = fallback := by
  cases r with
  | ok w =>
    cases h
    exact .inl rfl
  | error fault =>
    simp only [recover] at h
    split at h
    · cases h
    · cases h
      exact .inr rfl

/-- A regime for the sessions, and what it makes certain of the values. -/
theorem Regime.Keeps.also {R : Regime} {α : Type} {d : Nat} {x : Action α} {P Q : α → Prop}
    (hx : R.Keeps d x P) (h : ∀ s a t, R.Inv s → x s = .done a t → Q a) : R.Keeps d x Q := by
  intro s hd hI
  have hholds := hx s hd hI
  cases hs : x s with
  | done a t =>
    rw [hs] at hholds
    exact ⟨hholds.1, hholds.2.1, h s a t hI hs⟩
  | halted fault t =>
    rw [hs] at hholds
    exact hholds
  | unfinished => trivial

section

open Regime

variable {bound : Nat}

theorem bounding_records (p : Position) (fault : Fault) : (bounding bound).Records p fault :=
  fun _ h => { h with }

theorem Expr.bounding_keeps {node : Expr}
    (hliteral : ∀ l p, node = .literal l p → ∀ v, l.value = .ok v → v.Fits bound) (d : Nat) :
    node.Keeps (bounding bound) (fun _ v => v.Fits bound) d := by
  have hsession := Expr.keeps_of_records (R := bounding bound) bounding_records node d
  cases node with
  | literal l p =>
    refine Keeps.also hsession fun s v t _ hdone => ?_
    obtain hv | rfl := Action.value_of_recover hdone
    · exact hliteral l p rfl v hv
    · exact Value.fits_initial l.ty
  | var name p =>
    refine Keeps.also hsession fun s v t hs hdone => ?_
    obtain hv | rfl := Action.value_of_recover hdone
    · exact hs.store.get hv
    · exact Value.fits_initial .int
  | binary op l r p =>
    cases hop : op.isLogical with
    | true =>
      simp only [Expr.Keeps, hop, if_true]
      exact ⟨fun _ _ fault _ => bounding_records p fault, fun _ => trivial⟩
    | false =>
      simp only [Expr.Keeps, hop] at hsession ⊢
      intro a b _ _
      refine Keeps.also (hsession a b trivial trivial) fun s v t hs hdone => ?_
      obtain hv | rfl := Action.value_of_recover hdone
      · exact BinaryOp.fits_apply hop hs.limit hv
      · rw [op.fallback_eq_initial a b]
        exact Value.fits_initial _
  | unary op e p =>
    intro a _
    refine Keeps.also (hsession a trivial) fun s v t _ hdone => ?_
    obtain hv | rfl := Action.value_of_recover hdone
    · exact UnaryOp.fits_apply hv
    · exact Value.fits_of_ty_ne (op.ty_fallback a ▸ op.kind_ne_string a.ty)
  | paren e p => exact fun a ha => ha

theorem Expr.bounding_throughout {e : Expr}
    (hliterals : ∀ l p, .literal l p ∈ e.parts → ∀ v, l.value = .ok v → v.Fits bound) (d : Nat) :
    (bounding bound).Throughout d (e.evalIn Staged) (Value.Fits bound) := by
  refine Expr.throughout_eval (Q := fun _ v => v.Fits bound) e d fun k node hk =>
    ⟨fun _ _ _ _ => trivial, ?_⟩
  refine Expr.bounding_keeps (fun l p hnode => ?_) (k + 1)
  exact hliterals l p (hnode ▸ mem_parts hk)

theorem Task.bounding_agrees {task : Task}
    (hliterals : ∀ l p, .literal l p ∈ task.parts → ∀ v, l.value = .ok v → v.Fits bound) (d : Nat) :
    task.Agrees (bounding bound).staged (Value.Fits bound) d := by
  have hrecord (p : Position) (fault : Fault) : (bounding bound).Records p fault :=
    bounding_records p fault
  cases task with
  | start =>
    have hstop : (bounding bound).Stops := fun _ _ _ => trivial
    have hroom : (bounding bound).Enters d := fun _ _ _ _ => trivial
    exact ⟨fun _ => Throughout.perform (Keeps.checkInterrupt hstop), Throughout.nested hroom⟩
  | give e => exact Expr.bounding_throughout hliterals d
  | test e =>
    exact Accord.truthOf (Expr.bounding_throughout hliterals d) fun _ _ fault _ =>
      Throughout.report (hrecord e.position fault)
  | assign target e =>
    refine Throughout.bind (Expr.bounding_throughout hliterals d) fun value hvalue => ?_
    refine Throughout.assignTo (Keeps.assignTo ?_ ?_)
    · intro s stored store hs hassign
      obtain ⟨hstored, hstore⟩ := hs.store.assign hvalue hassign
      refine ⟨⟨hs.limit, hstore⟩, fun v hv => ?_⟩
      cases hv
      exact hstored
    · exact fun s fault hs _ => ⟨hrecord _ _ s hs, fun v hv => by cases hv⟩
  | declare ty names p =>
    cases ty with
    | none => exact Throughout.perform (Keeps.halt fun _ _ => trivial)
    | some ty =>
      refine Throughout.declareAll fun x _ => Keeps.declareAll ?_ fun y _ => hrecord y.position _
      exact fun y _ s store hs hdeclare => ⟨hs.limit, hs.store.declare hdeclare⟩

end

namespace Program

theorem mem_parts_of_mem {p : Program} {e node : Expr} (he : e ∈ p.parts) (hnode : node ∈ e.parts) :
    node ∈ p.parts := by
  obtain ⟨task, htask, hparts⟩ := List.mem_flatMap.mp he
  refine List.mem_flatMap.mpr ⟨task, htask, ?_⟩
  cases task with
  | give e' | test e' | assign target e' => exact Expr.mem_parts_trans hnode hparts
  | start | declare ty names q => cases hparts

def LiteralsFit (bound : Nat) (p : Program) : Prop :=
  ∀ l q, .literal l q ∈ p.parts → l.ty = .string → (Literal.unquoted l.text).utf8ByteSize ≤ bound

theorem LiteralsFit.value {bound : Nat} {p : Program} (h : p.LiteralsFit bound) {l : Literal}
    {q : Position} (hl : .literal l q ∈ p.parts) {v : Value} (hv : l.value = .ok v) :
    v.Fits bound := by
  by_cases hty : l.ty = .string
  · have hsize := h l q hl hty
    obtain ⟨ty, text⟩ := l
    cases hty
    cases hv
    exact hsize
  · have hother : v.ty ≠ .string := by
      rw [Literal.ty_of_value hv]
      exact hty
    exact Value.fits_of_ty_ne hother

/-- If neither the session's limit nor a literal of the program nor a variable at the start goes
beyond the bound, no string ever does: not in a variable at any moment of the run, not in an output,
not as the value of an expression of the program at any moment of the run. -/
theorem strings_stay_bounded (turns : Nat) (stopAfter : Option Nat) {bound : Nat} {p : Program}
    {s : Session} (hlimit : s.settings.maxStringLen ≤ bound) (hliterals : p.LiteralsFit bound)
    (hstore : s.store.Fits bound) :
    (∃ last, Passes s (p.stages turns stopAfter s) last ∧
      ∀ t, (p.runWith turns stopAfter s).outcome.session? = some t → t = last) ∧
    (∀ t ∈ p.stages turns stopAfter s, t.store.Fits bound ∧
      ∀ e ∈ p.parts, ∀ v t', e.eval t = .done v t' → v.Fits bound) ∧
    (∀ v ∈ (p.runWith turns stopAfter s).outputs, v.Fits bound) ∧
    ∀ t, (p.runWith turns stopAfter s).outcome.session? = some t → t.store.Fits bound := by
  have hstart : s.Fits bound := ⟨hlimit, hstore⟩
  have hexec : ∀ stmt ∈ p.stmts, (bounding bound).Throughout s.depth (stmt.execIn Staged turns)
      fun o => ∀ v, o = some v → v.Fits bound := by
    intro stmt hstmt
    refine Stmt.exec_agrees (bounding bound).staged (Value.Fits bound) turns stmt s.depth
      fun k task hk => Task.bounding_agrees (fun l q hl v hv => ?_) k
    have htask : task ∈ p.work := mem_work hstmt (Stmt.mem_work hk)
    exact hliterals.value (List.mem_flatMap.mpr ⟨task, htask, hl⟩) hv
  have hvalues : ∀ e ∈ p.parts, ∀ d, (bounding bound).Keeps d e.eval (Value.Fits bound) := by
    intro e he d
    refine Expr.eval_keeps (Q := fun _ v => v.Fits bound) e d fun k node hk =>
      ⟨fun _ _ _ _ => trivial, Expr.bounding_keeps (fun l q hnode v hv => ?_) (k + 1)⟩
    have hpart : node ∈ p.parts := mem_parts_of_mem he (Expr.mem_parts hk)
    exact hliterals.value (hnode ▸ hpart) hv
  obtain ⟨hstages, houtputs, hlast⟩ :=
    governs_runWith hexec (fun t ht => { ht with }) hstart stopAfter
  obtain ⟨last, hpasses, hend⟩ := passes_stages turns stopAfter p s
  refine ⟨⟨last, hpasses, hend⟩, fun t ht => ⟨(hstages t ht).store, ?_⟩, houtputs, ?_⟩
  · intro e he v t' hdone
    have hholds := hvalues e he t.depth t rfl (hstages t ht)
    rw [hdone] at hholds
    exact hholds.2.2
  · exact fun t ht => (hlast t ht).store

/-- `string s; s = "ab"; while (s != "") s = s . s; s;` -/
def doubling : Program :=
  ⟨[.declare (some .string) [⟨"s", ⟨1, 8⟩⟩] ⟨1, 1⟩,
    .assign ⟨"s", ⟨2, 1⟩⟩ (.literal ⟨.string, "\"ab\""⟩ ⟨2, 5⟩),
    .whileDo (.binary .ne (.var "s" ⟨3, 8⟩) (.literal ⟨.string, "\"\""⟩ ⟨3, 13⟩) ⟨3, 10⟩)
      (.assign ⟨"s", ⟨3, 17⟩⟩ (.binary .concat (.var "s" ⟨3, 21⟩) (.var "s" ⟨3, 25⟩) ⟨3, 23⟩))
      ⟨3, 1⟩,
    .expr (.var "s" ⟨4, 1⟩)]⟩

/-- The strings grow to four bytes and no further: the next one would have eight. -/
theorem strings_stay_bounded_doubling :
    let s : Session := { settings := { maxStringLen := 5 } }
    doubling.LiteralsFit 5 ∧ s.store.Fits 5 ∧
    (∃ t ∈ doubling.stages 3 none s, t.store = ⟨[⟨"s", .string, .string "abab"⟩]⟩) ∧
    (∀ t ∈ doubling.stages 3 none s, t.store.Fits 5) ∧
    (doubling.runWith 3 none s).outputs = #[.string ""] ∧
    ∃ t, (doubling.runWith 3 none s).outcome = .done () t ∧
      t.diagnostics.toList = [⟨⟨3, 23⟩, .stringTooLong 5⟩] := by
  intro s
  have hliterals : doubling.LiteralsFit 5 := by
    intro l q hl hty
    simp [doubling, parts, work, Stmt.tasksAll, Stmt.tasks, Task.parts, Expr.parts,
      Expr.nodes] at hl
    obtain ⟨rfl, rfl⟩ | ⟨rfl, rfl⟩ := hl <;> decide +kernel
  have hstore : s.store.Fits 5 := by simp [s, Store.Fits]
  have hbounded := strings_stay_bounded 3 none (s := s) (Nat.le_refl 5) hliterals hstore
  have hgrown : ∃ t ∈ doubling.stages 3 none s, t.store = ⟨[⟨"s", .string, .string "abab"⟩]⟩ := by
    decide +kernel
  have houtputs : (doubling.runWith 3 none s).outputs = #[.string ""] := by decide +kernel
  have hdone : (doubling.runWith 3 none s).outcome = .done ()
      ((doubling.runWith 3 none s).outcome.session?.getD {}) := by
    decide +kernel
  exact ⟨hliterals, hstore, hgrown, fun t ht => (hbounded.2.1 t ht).1, houtputs, _, hdone,
    by decide +kernel⟩

end Program

end TolerantScript
