import TolerantScript.Proofs.Height
import TolerantScript.Proofs.StaticKind

/-!
The faults of an expression that are about names, types and the texts of literals. Without a logical
operator, which may leave an operand out, they too are fixed by the declared types, and so is
whether the nesting allowed suffices.
-/

namespace TolerantScript

def Fault.isStatic : Fault → Bool
  | .undeclaredVariable _ | .badOperands .. | .badOperand ..
  | .conversion .. | .badLiteral .. => true
  | _ => false

theorem Fault.OfValues.isStatic {limit : Nat} {fault : Fault} (h : fault.OfValues limit) :
    fault.isStatic = false := by
  cases h <;> rfl

def staticPart (ds : List Diagnostic) : List Diagnostic := ds.filter (·.fault.isStatic)

theorem staticPart_append (ds es : List Diagnostic) :
    staticPart (ds ++ es) = staticPart ds ++ staticPart es :=
  List.filter_append ds es

def Session.levelsLeft (s : Session) : Nat := s.settings.maxDepth - s.depth

/-- Started with `store` and `levels` levels left, the action leaves all but diagnostics and events
as they are, its static faults are `found`, and it gives a value with `Q` just if `fits`. -/
def Finds {α : Type} (store : Store) (levels : Nat) (fits : Bool) (found : List Diagnostic)
    (x : Action α) (Q : α → Prop) : Prop :=
  ∀ s, s.store = store → s.levelsLeft = levels →
    ∃ s' appended, s'.store = store ∧ s'.settings = s.settings ∧ s'.depth = s.depth ∧
      s'.diagnostics.toList = s.diagnostics.toList ++ appended ∧ staticPart appended = found ∧
      (fits = true ∧ (∃ a, x s = .done a s' ∧ Q a) ∨ fits = false ∧ ∃ fault, x s = .halted fault s')

namespace Finds

variable {α β : Type} {store : Store} {levels : Nat}

theorem pure {a : α} {Q : α → Prop} (h : Q a) : Finds store levels true [] (pure a) Q :=
  fun s hs _ => ⟨s, [], hs, rfl, rfl, (List.append_nil _).symm, rfl, .inl ⟨rfl, a, rfl, h⟩⟩

theorem report (p : Position) (fault : Fault) :
    Finds store levels true (staticPart [⟨p, fault⟩]) (Action.report p fault) fun _ => True :=
  fun s hs _ => ⟨s.record ⟨p, fault⟩, [⟨p, fault⟩], hs, rfl, rfl,
    s.toList_diagnostics_record ⟨p, fault⟩, rfl, .inl ⟨rfl, (), rfl, trivial⟩⟩

theorem bind {x : Action α} {f : α → Action β} {P : α → Prop} {Q : β → Prop} {fits fits' : Bool}
    {found found' : List Diagnostic} (hx : Finds store levels fits found x P)
    (hf : ∀ a, P a → Finds store levels fits' found' (f a) Q) :
    Finds store levels (fits && fits') (found ++ if fits then found' else []) (x >>= f) Q := by
  intro s hs hl
  obtain ⟨s₁, early, hs₁, hset₁, hd₁, hdiag₁, hfound, hend⟩ := hx s hs hl
  obtain ⟨rfl, a, hdone, ha⟩ | ⟨rfl, fault, hhalt⟩ := hend
  · obtain ⟨s₂, late, hs₂, hset₂, hd₂, hdiag₂, hfound', hend'⟩ :=
      hf a ha s₁ hs₁ (by rw [Session.levelsLeft, hset₁, hd₁]; exact hl)
    refine ⟨s₂, early ++ late, hs₂, hset₂.trans hset₁, hd₂.trans hd₁, ?_, ?_, ?_⟩
    · rw [hdiag₂, hdiag₁, List.append_assoc]
    · rw [staticPart_append, hfound, hfound', if_pos rfl]
    · rw [Action.bind_apply, hdone]
      exact hend'
  · refine ⟨s₁, early, hs₁, hset₁, hd₁, hdiag₁, by simpa using hfound, .inr ⟨rfl, fault, ?_⟩⟩
    rw [Action.bind_apply, hhalt]

theorem nested {x : Action α} {Q : α → Prop} {fits : Bool} {found : List Diagnostic}
    (hx : Finds store levels fits found x Q) :
    Finds store (levels + 1) fits found (Action.nested x) Q := by
  intro s hs hl
  rw [Session.levelsLeft] at hl
  have hroom : ¬s.settings.maxDepth ≤ s.depth := by omega
  have hinside : { s with depth := s.depth + 1 }.levelsLeft = levels := by
    simp only [Session.levelsLeft]
    omega
  obtain ⟨s₁, appended, hs₁, hset₁, hd₁, hdiag₁, hfound, hend⟩ :=
    hx { s with depth := s.depth + 1 } hs hinside
  refine ⟨Action.leave s₁, appended, hs₁, hset₁, by simp [Action.leave, hd₁], hdiag₁, hfound, ?_⟩
  rw [Action.nested, if_neg hroom]
  obtain ⟨hfits, a, hdone, ha⟩ | ⟨hfits, fault, hhalt⟩ := hend
  · rw [hdone]
    exact .inl ⟨hfits, a, rfl, ha⟩
  · rw [hhalt]
    exact .inr ⟨hfits, fault, rfl⟩

theorem nested_zero (x : Action α) (Q : α → Prop) : Finds store 0 false [] (Action.nested x) Q := by
  intro s hs hl
  rw [Session.levelsLeft] at hl
  have hdeep : s.settings.maxDepth ≤ s.depth := by omega
  refine ⟨s, [], hs, rfl, rfl, (List.append_nil _).symm, rfl, .inr ⟨rfl, ?_⟩⟩
  rw [Action.nested, if_pos hdeep]
  exact ⟨_, rfl⟩

end Finds

theorem Answers.finds {limit : Nat} {t : Ty} {misfit? : Option Fault} {r : Except Fault Value}
    (h : Answers limit t misfit? r) {store : Store} {levels : Nat} {p : Position} {fallback : Value}
    (hfallback : ∀ fault, r = .error fault → fallback.ty = t) :
    Finds store levels true (staticPart (misfit?.map (Diagnostic.mk p)).toList)
      (Action.recover p fallback r) (·.ty = t) := by
  cases r with
  | ok v =>
    obtain ⟨hv, rfl⟩ := h
    exact Finds.pure hv
  | error fault =>
    have hfound : staticPart (misfit?.map (Diagnostic.mk p)).toList = staticPart [⟨p, fault⟩] := by
      cases misfit? with
      | some misfit =>
        obtain ⟨rfl, -⟩ := h
        rfl
      | none => simp [staticPart, Fault.OfValues.isStatic h]
    have hreport : Finds store levels true (staticPart [⟨p, fault⟩]) (Action.report p fault)
      fun _ => True := Finds.report p fault
    have hpure : Finds store levels true [] (pure fallback) (·.ty = t) :=
      Finds.pure (hfallback fault rfl)
    have hrecover := hreport.bind fun _ _ => hpure
    simp only [Action.recover, h.isFatal]
    rw [hfound]
    simpa using hrecover

namespace Expr

def isLogicFree : Expr → Bool
  | .literal .. | .var .. => true
  | .binary op l r _ => !op.isLogical && l.isLogicFree && r.isLogicFree
  | .unary _ e _ | .paren e _ => e.isLogicFree

def ownFaults (types : String → Option Ty) (e : Expr) : List Diagnostic :=
  staticPart ((e.misfit? types).map (Diagnostic.mk e.position)).toList

/-- The static faults met with so many levels left. Where they do not suffice for an operand,
nothing after it is met. -/
def staticFaults (types : String → Option Ty) : Nat → Expr → List Diagnostic
  | 0, _ => []
  | _ + 1, .literal l p => ownFaults types (.literal l p)
  | _ + 1, .var name p => ownFaults types (.var name p)
  | n + 1, .binary op l r p =>
    l.staticFaults types n ++
      if l.height ≤ n then
        r.staticFaults types n ++ if r.height ≤ n then ownFaults types (.binary op l r p) else []
      else []
  | n + 1, .unary op e p =>
    e.staticFaults types n ++ if e.height ≤ n then ownFaults types (.unary op e p) else []
  | n + 1, .paren e _ => e.staticFaults types n

variable {store : Store}

theorem combine_finds {op : BinaryOp} (hop : op.isLogical = false) (p : Position) {a b : Value}
    {l r : Ty} (ha : a.ty = l) (hb : b.ty = r) (levels : Nat) :
    Finds store levels true (staticPart ((op.misfit? l r).map (Diagnostic.mk p)).toList)
      (combine op p a b) (·.ty = op.kind l r) := by
  subst ha hb
  intro s hs hl
  exact (BinaryOp.answers_apply s.settings.maxStringLen hop a b).finds
    (fun _ _ => op.ty_fallback a b) s hs hl

theorem operate_finds (op : UnaryOp) (p : Position) {a : Value} {t : Ty} (ha : a.ty = t)
    (levels : Nat) :
    Finds store levels true (staticPart ((op.misfit? t).map (Diagnostic.mk p)).toList)
      (Action.recover p (op.fallback a) (op.apply a)) (·.ty = op.kind t) := by
  subst ha
  exact (op.answers_apply 0 a).finds fun _ _ => op.ty_fallback a

theorem eval_eq_nested (e : Expr) : ∃ x, e.eval = Action.nested x := by
  cases e <;> exact ⟨_, rfl⟩

theorem eval_finds (hs : store.Sound) (e : Expr) (hfree : e.isLogicFree = true) (levels : Nat) :
    Finds store levels (decide (e.height ≤ levels)) (e.staticFaults store.tyOf? levels) e.eval
      (·.ty = e.kind store.tyOf?) := by
  -- Along the levels, as `staticFaults` goes: no level left is then one case for all expressions.
  induction levels generalizing e with
  | zero =>
    obtain ⟨x, hx⟩ := e.eval_eq_nested
    have hdeep : decide (e.height ≤ 0) = false := by
      have := e.height_pos
      simp only [decide_eq_false_iff_not]
      omega
    rw [hx, hdeep, staticFaults]
    exact Finds.nested_zero x _
  | succ n ih =>
    cases e with
    | literal l p =>
      have hvalue := answers_literal 0 store.tyOf? l p
      exact (hvalue.finds fun _ _ => Value.ty_initial l.ty).nested
    | var name p =>
      refine Finds.nested fun s hstore hl => ?_
      subst hstore
      exact (answers_var 0 hs name p).finds (fun _ h => kind_of_get_error h p) s rfl hl
    | binary op l r p =>
      simp only [isLogicFree, Bool.and_eq_true, Bool.not_eq_true'] at hfree
      obtain ⟨⟨hop, hl⟩, hr⟩ := hfree
      have hboth := (ih l hl).bind fun a ha => (ih r hr).bind fun b hb =>
        combine_finds hop p ha hb n
      rw [eval_binary hop]
      simpa [staticFaults, height, kind, ownFaults, misfit?, position, Nat.max_le]
        using hboth.nested
    | unary op e p =>
      have hvalue := (ih e hfree).bind fun a ha => operate_finds op p ha n
      rw [eval]
      simpa [staticFaults, height, kind, ownFaults, misfit?, position] using hvalue.nested
    | paren e p =>
      rw [eval]
      simpa [staticFaults, height, kind] using (ih e hfree).nested

theorem staticFaults_of_height_le {types : String → Option Ty} {e : Expr} {n m : Nat}
    (hn : e.height ≤ n) (hm : e.height ≤ m) :
    e.staticFaults types n = e.staticFaults types m := by
  induction n generalizing e m with
  | zero =>
    have := e.height_pos
    omega
  | succ n ih =>
    cases m with
    | zero =>
      have := e.height_pos
      omega
    | succ m =>
      cases e with
      | literal l p => rfl
      | var name p => rfl
      | binary op l r p =>
        simp only [height, Nat.add_le_add_iff_right, Nat.max_le] at hn hm
        simp only [staticFaults, hn, hm, if_true, ih hn.1 hm.1, ih hn.2 hm.2]
      | unary op e p =>
        simp only [height, Nat.add_le_add_iff_right] at hn hm
        simp only [staticFaults, hn, hm, if_true, ih hn hm]
      | paren e p =>
        simp only [height, Nat.add_le_add_iff_right] at hn hm
        exact ih hn hm

/-- What an evaluation without logical operators appends, and that it gives a value just if the
levels left suffice. -/
theorem session_of_eval {e : Expr} (hfree : e.isLogicFree = true) {s : Session}
    (hs : s.store.Sound) :
    ∃ s' appended, (e.eval s).session? = some s' ∧
      s'.diagnostics.toList = s.diagnostics.toList ++ appended ∧
      staticPart appended = e.staticFaults s.store.tyOf? s.levelsLeft ∧
      ((∃ v, e.eval s = .done v s') → e.height ≤ s.levelsLeft) := by
  obtain ⟨s', appended, -, -, -, hdiag, hfound, hend⟩ :=
    eval_finds hs e hfree s.levelsLeft s rfl rfl
  obtain ⟨hfits, v, hdone, -⟩ | ⟨-, fault, hhalt⟩ := hend
  · refine ⟨s', appended, by rw [hdone]; rfl, hdiag, hfound, fun _ => ?_⟩
    simpa using hfits
  · refine ⟨s', appended, by rw [hhalt]; rfl, hdiag, hfound, ?_⟩
    rintro ⟨v, hdone⟩
    rw [hhalt] at hdone
    cases hdone

/-- Two sessions with the same declared types: the values of an expression have one type, and
without logical operators its evaluations append the same static faults. They do so also if both
come to an end early, provided they have the same levels left. -/
theorem static_of_declared_types (e : Expr) {s₁ s₂ : Session}
    (htypes : ∀ name, s₁.store.tyOf? name = s₂.store.tyOf? name)
    (hs₁ : s₁.store.Sound) (hs₂ : s₂.store.Sound) :
    (∀ v₁ v₂ s₁' s₂', e.eval s₁ = .done v₁ s₁' → e.eval s₂ = .done v₂ s₂' →
      v₁.ty = e.kind s₁.store.tyOf? ∧ v₂.ty = e.kind s₁.store.tyOf?) ∧
    (e.isLogicFree = true → ∃ s₁' s₂' appended₁ appended₂,
      (e.eval s₁).session? = some s₁' ∧ (e.eval s₂).session? = some s₂' ∧
      s₁'.diagnostics.toList = s₁.diagnostics.toList ++ appended₁ ∧
      s₂'.diagnostics.toList = s₂.diagnostics.toList ++ appended₂ ∧
      (s₁.levelsLeft = s₂.levelsLeft ∨
          (∃ v₁, e.eval s₁ = .done v₁ s₁') ∧ (∃ v₂, e.eval s₂ = .done v₂ s₂') →
        staticPart appended₁ = staticPart appended₂)) := by
  have hsame : s₂.store.tyOf? = s₁.store.tyOf? := funext fun name => (htypes name).symm
  refine ⟨fun v₁ v₂ s₁' s₂' h₁ h₂ => ⟨ty_of_eval hs₁ h₁, hsame ▸ ty_of_eval hs₂ h₂⟩,
    fun hfree => ?_⟩
  obtain ⟨s₁', appended₁, hend₁, hdiag₁, hfound₁, hfits₁⟩ := session_of_eval hfree hs₁
  obtain ⟨s₂', appended₂, hend₂, hdiag₂, hfound₂, hfits₂⟩ := session_of_eval hfree hs₂
  refine ⟨s₁', s₂', appended₁, appended₂, hend₁, hend₂, hdiag₁, hdiag₂, fun hlevels => ?_⟩
  rw [hfound₁, hfound₂, hsame]
  obtain hlevels | ⟨hdone₁, hdone₂⟩ := hlevels
  · rw [hlevels]
  · exact staticFaults_of_height_le (hfits₁ hdone₁) (hfits₂ hdone₂)

/-- `"ab" * x - 7 / y`: a string and an integer, whatever becomes of the operands. -/
def repeatLessQuotient : Expr :=
  .binary .sub
    (.binary .mul (.literal ⟨.string, "ab"⟩ ⟨1, 1⟩) (.var "x" ⟨1, 8⟩) ⟨1, 6⟩)
    (.binary .div (.literal ⟨.int, "7"⟩ ⟨1, 12⟩) (.var "y" ⟨1, 16⟩) ⟨1, 14⟩) ⟨1, 10⟩

def twoNumbers (x y : Int32) : Session :=
  { store := ⟨[⟨"x", .int, .int x⟩, ⟨"y", .int, .int y⟩]⟩ }

theorem tyOf?_twoNumbers (x y : Int32) (name : String) :
    (twoNumbers x y).store.tyOf? name = if "x" = name ∨ "y" = name then some .int else none := by
  simp only [twoNumbers, Store.tyOf?, Store.find?]
  by_cases hx : "x" = name <;> by_cases hy : "y" = name <;> simp [hx, hy]

theorem sound_twoNumbers (x y : Int32) : (twoNumbers x y).store.Sound :=
  Store.sound_of_forall_mem (by simp [twoNumbers, Value.ty])

/-- The second evaluation has two faults more, of a negative count and a zero divisor. -/
theorem static_of_declared_types_repeatLessQuotient :
    repeatLessQuotient.isLogicFree = true ∧
    ∃ s₁' s₂', (repeatLessQuotient.eval (twoNumbers 2 3)).session? = some s₁' ∧
      (repeatLessQuotient.eval (twoNumbers (-1) 0)).session? = some s₂' ∧
      staticPart s₁'.diagnostics.toList = staticPart s₂'.diagnostics.toList ∧
      s₁'.diagnostics.size + 2 = s₂'.diagnostics.size := by
  have hfree : repeatLessQuotient.isLogicFree = true := rfl
  obtain ⟨s₁', s₂', appended₁, appended₂, hend₁, hend₂, hdiag₁, hdiag₂, hstatic⟩ :=
    (static_of_declared_types repeatLessQuotient
      (fun name => by rw [tyOf?_twoNumbers, tyOf?_twoNumbers])
      (sound_twoNumbers 2 3) (sound_twoNumbers (-1) 0)).2 hfree
  have hsizes : (repeatLessQuotient.eval (twoNumbers 2 3)).session?.map (·.diagnostics.size + 2) =
      (repeatLessQuotient.eval (twoNumbers (-1) 0)).session?.map (·.diagnostics.size) := by
    decide +kernel
  rw [hend₁, hend₂] at hsizes
  refine ⟨hfree, s₁', s₂', hend₁, hend₂, ?_, Option.some.inj hsizes⟩
  rw [hdiag₁, hdiag₂]
  exact hstatic (.inl rfl)

end Expr

end TolerantScript
