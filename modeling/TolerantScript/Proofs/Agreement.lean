import TolerantScript.Proofs.Node
import TolerantScript.Proofs.Provenance

/-!
What an execution depends on. From two sessions that agree on the variables a statement mentions,
its executions go together: they give the same, announce and record the same, and agree on those
variables again, whatever the other variables hold and whatever was announced and recorded before.
-/

namespace TolerantScript

/-! What a store is to somebody who knows a single name. -/

namespace Store

/-- All variables, with the values of those of the name only. -/
def view (name : String) (s : Store) : List (String × Ty × Option Value) :=
  s.variables.map fun x => (x.name, x.ty, if x.name = name then some x.value else none)

def seen? (entry : String × Ty × Option Value) : Option Variable :=
  entry.2.2.map fun value => ⟨entry.1, entry.2.1, value⟩

theorem find?_eq_view (s : Store) (name : String) :
    s.find? name = ((s.view name).find? (·.1 == name)).bind seen? := by
  rw [view, List.find?_map, Option.bind_map]
  have hsame : (fun entry : String × Ty × Option Value => entry.1 == name) ∘
      (fun x : Variable => (x.name, x.ty, if x.name = name then some x.value else none)) =
        (·.name == name) := rfl
  rw [hsame, find?]
  cases hx : s.variables.find? (·.name == name) with
  | none => rfl
  | some x =>
    have hname : x.name = name := by simpa using List.find?_some hx
    subst hname
    simp [seen?]

theorem find?_congr {a b : Store} {name : String} (h : b.view name = a.view name) :
    b.find? name = a.find? name := by
  rw [find?_eq_view, find?_eq_view, h]

theorem view_put_self (s : Store) (name : String) (value : Value) :
    (s.put name value).view name =
      (s.view name).map fun entry =>
        if entry.1 = name then (entry.1, entry.2.1, some value) else entry := by
  simp only [view, put, List.map_map]
  refine List.map_congr_left fun x _ => ?_
  by_cases hname : x.name = name <;> simp [hname]

theorem view_put_of_ne (s : Store) {target name : String} (hne : target ≠ name) (value : Value) :
    (s.put target value).view name = s.view name := by
  simp only [view, put, List.map_map]
  refine List.map_congr_left fun x _ => ?_
  by_cases htarget : x.name = target
  · have hother : x.name ≠ name := by rwa [htarget]
    simp [htarget, hne]
  · simp [htarget]

theorem view_put_congr {a b : Store} {name : String} (h : b.view name = a.view name)
    (target : String) (value : Value) :
    (b.put target value).view name = (a.put target value).view name := by
  by_cases hname : target = name
  · rw [hname, view_put_self, view_put_self, h]
  · rw [view_put_of_ne b hname, view_put_of_ne a hname, h]

theorem eq_of_view {a b : Store} (h : ∀ name, a.view name = b.view name) : a = b := by
  have hvariables : a.variables = b.variables := by
    refine List.ext_getElem? fun i => ?_
    have hentry (name : String) := congrArg (·[i]?) (h name)
    simp only [view, List.getElem?_map] at hentry
    cases hx : a.variables[i]? with
    | none =>
      have hnone := hentry ""
      rw [hx] at hnone
      exact (Option.map_eq_none_iff.mp hnone.symm).symm
    | some x =>
      have hsome := hentry x.name
      rw [hx] at hsome
      obtain ⟨y, hy, hxy⟩ := Option.map_eq_some_iff.mp hsome.symm
      obtain ⟨xname, xty, xvalue⟩ := x
      obtain ⟨yname, yty, yvalue⟩ := y
      simp only [if_true, Prod.mk.injEq] at hxy
      obtain ⟨hname, hty, hvalue⟩ := hxy
      rw [if_pos hname] at hvalue
      rw [hy, hname, hty, Option.some.inj hvalue]
  cases a
  cases b
  exact congrArg Store.mk hvariables

end Store

/-! The variables that a statement mentions. -/

def Expr.name? : Expr → Option String
  | .var name _ => some name
  | _ => none

def Task.target? : Task → Option String
  | .assign target _ => some target.name
  | _ => none

def Task.declares : Task → Bool
  | .declare .. => true
  | _ => false

namespace Stmt

def reads (stmt : Stmt) : List String := (stmt.work.flatMap Task.parts).filterMap Expr.name?

def targets (stmt : Stmt) : List String := stmt.work.filterMap Task.target?

def declares (stmt : Stmt) : Bool := stmt.work.any Task.declares

variable {stmt : Stmt}

theorem mem_reads {task : Task} {name : String} {p : Position} (htask : task ∈ stmt.work)
    (h : .var name p ∈ task.parts) : name ∈ stmt.reads :=
  List.mem_filterMap.mpr ⟨.var name p, List.mem_flatMap.mpr ⟨task, htask, h⟩, rfl⟩

theorem mem_targets {task : Task} {name : String} (htask : task ∈ stmt.work)
    (h : task.target? = some name) : name ∈ stmt.targets :=
  List.mem_filterMap.mpr ⟨task, htask, h⟩

theorem declares_of_mem_work (h : stmt.declares = false) {task : Task} (htask : task ∈ stmt.work) :
    task.declares = false := by
  have hall := List.any_eq_false.mp h task htask
  exact Bool.eq_false_iff.mpr hall

end Stmt

/-! Sessions side by side. -/

/-- Two sessions, some way on from two others, that nothing done with the names in `mentioned` can
tell apart: since those others, both have announced and recorded the same. -/
structure Session.Beside (mentioned : String → Prop) (start start' s s' : Session) : Prop where
  settings : s'.settings = s.settings
  depth : s'.depth = s.depth
  interrupted : s'.interrupted = s.interrupted
  stopAt : s.stopAt = none ∧ s'.stopAt = none
  store (name : String) : mentioned name → s'.store.view name = s.store.view name
  events : ∃ added, s.events.toList = start.events.toList ++ added ∧
    s'.events.toList = start'.events.toList ++ added
  diagnostics : ∃ added, s.diagnostics.toList = start.diagnostics.toList ++ added ∧
    s'.diagnostics.toList = start'.diagnostics.toList ++ added

namespace Session.Beside

variable {mentioned : String → Prop} {start start' s s' : Session}

theorem emit (h : Beside mentioned start start' s s') (e : Event) :
    Beside mentioned start start' (s.emit e) (s'.emit e) where
  settings := h.settings
  depth := h.depth
  interrupted := by
    obtain ⟨hstop, hstop'⟩ := h.stopAt
    simp [Session.emit, hstop, hstop', h.interrupted]
  stopAt := h.stopAt
  store := h.store
  events := by
    obtain ⟨added, hs, hs'⟩ := h.events
    refine ⟨added ++ [e], ?_, ?_⟩
    · rw [toList_events_emit, hs, List.append_assoc]
    · rw [toList_events_emit, hs', List.append_assoc]
  diagnostics := h.diagnostics

theorem record (h : Beside mentioned start start' s s') (d : Diagnostic) :
    Beside mentioned start start' (s.record d) (s'.record d) where
  settings := h.settings
  depth := h.depth
  interrupted := (h.emit (.recorded d)).interrupted
  stopAt := h.stopAt
  store := h.store
  events := (h.emit (.recorded d)).events
  diagnostics := by
    obtain ⟨added, hs, hs'⟩ := h.diagnostics
    refine ⟨added ++ [d], ?_, ?_⟩
    · rw [toList_diagnostics_record, hs, List.append_assoc]
    · rw [toList_diagnostics_record, hs', List.append_assoc]

theorem put (h : Beside mentioned start start' s s') (name : String) (value : Value) :
    Beside mentioned start start' { s with store := s.store.put name value }
      { s' with store := s'.store.put name value } :=
  { h with store := fun other hother => Store.view_put_congr (h.store other hother) name value }

theorem enter (h : Beside mentioned start start' s s') :
    Beside mentioned start start' { s with depth := s.depth + 1 }
      { s' with depth := s'.depth + 1 } :=
  { h with depth := congrArg (· + 1) h.depth }

theorem leave (h : Beside mentioned start start' s s') :
    Beside mentioned start start' (Action.leave s) (Action.leave s') :=
  { h with depth := congrArg (· - 1) h.depth }

end Session.Beside

inductive Outcome.Beside {α : Type} (mentioned : String → Prop) (start start' : Session)
    (Q : α → Prop) : Outcome α → Outcome α → Prop
  | done {a : α} {s s' : Session} (ha : Q a) (h : Session.Beside mentioned start start' s s') :
    Beside mentioned start start' Q (.done a s) (.done a s')
  | halted (fault : Fault) {s s' : Session} (h : Session.Beside mentioned start start' s s') :
    Beside mentioned start start' Q (.halted fault s) (.halted fault s')
  | unfinished : Beside mentioned start start' Q .unfinished .unfinished

def Action.Beside {α : Type} (mentioned : String → Prop) (start start' : Session) (Q : α → Prop)
    (x y : Action α) : Prop :=
  ∀ s s', Session.Beside mentioned start start' s s' →
    Outcome.Beside mentioned start start' Q (x s) (y s')

namespace Action.Beside

variable {α β : Type} {mentioned : String → Prop} {start start' : Session}

theorem bind {x y : Action α} {f g : α → Action β} {P : α → Prop} {Q : β → Prop}
    (hx : Beside mentioned start start' P x y)
    (hf : ∀ a, P a → Beside mentioned start start' Q (f a) (g a)) :
    Beside mentioned start start' Q (x >>= f) (y >>= g) := by
  intro s s' h
  have hfirst := hx s s' h
  rw [bind_apply, bind_apply]
  generalize x s = o at hfirst
  generalize y s' = o' at hfirst
  cases hfirst with
  | done ha ht => exact hf _ ha _ _ ht
  | halted fault ht => exact .halted fault ht
  | unfinished => exact .unfinished

theorem weaken {x y : Action α} {P Q : α → Prop} (hx : Beside mentioned start start' P x y)
    (hPQ : ∀ a, P a → Q a) : Beside mentioned start start' Q x y := by
  intro s s' h
  have hboth := hx s s' h
  generalize x s = o at hboth
  generalize y s' = o' at hboth
  cases hboth with
  | done ha ht => exact .done (hPQ _ ha) ht
  | halted fault ht => exact .halted fault ht
  | unfinished => exact .unfinished

theorem nested {x y : Action α} {Q : α → Prop} (hx : Beside mentioned start start' Q x y) :
    Beside mentioned start start' Q (nested x) (nested y) := by
  intro s s' h
  simp only [Action.nested]
  by_cases hdeep : s.settings.maxDepth ≤ s.depth
  · have hdeep' : s'.settings.maxDepth ≤ s'.depth := by rwa [h.settings, h.depth]
    rw [if_pos hdeep, if_pos hdeep', h.settings, h.depth]
    exact .halted _ h
  · have hdeep' : ¬s'.settings.maxDepth ≤ s'.depth := by rwa [h.settings, h.depth]
    rw [if_neg hdeep, if_neg hdeep']
    have hin := hx _ _ h.enter
    generalize x { s with depth := s.depth + 1 } = o at hin
    generalize y { s' with depth := s'.depth + 1 } = o' at hin
    cases hin with
    | done ha ht => exact .done ha ht.leave
    | halted fault ht => exact .halted fault ht.leave
    | unfinished => exact .unfinished

theorem announce (kind : Stmt.Kind) (p : Position) :
    Beside mentioned start start' (fun _ => True) (announce kind p) (announce kind p) := by
  intro s s' h
  simp only [Action.announce, bind_apply, settings, h.settings]
  cases s.settings.trace with
  | true => exact .done trivial (h.emit _)
  | false => exact .done trivial h

theorem checkInterrupt :
    Beside mentioned start start' (fun _ => True) checkInterrupt checkInterrupt := by
  intro s s' h
  simp only [Action.checkInterrupt, h.interrupted]
  cases s.interrupted with
  | true => exact .halted _ h
  | false => exact .done trivial h

theorem recover (p : Position) (fallback : Value) (r : Except Fault Value) :
    Beside mentioned start start' (fun _ => True) (recover p fallback r)
      (recover p fallback r) := by
  intro s s' h
  cases r with
  | ok v => exact .done trivial h
  | error fault =>
    simp only [Action.recover]
    split
    · exact .halted fault h
    · exact .done trivial (h.record ⟨p, fault⟩)

theorem lookup {name : String} (hname : mentioned name) :
    Beside mentioned start start' (fun _ => True) (lookup name) (lookup name) := by
  intro s s' h
  have hget : s'.store.get name = s.store.get name := by
    rw [Store.get, Store.get, Store.find?_congr (h.store name hname)]
  simp only [Action.lookup, bind_apply, store, hget]
  exact .done trivial h

theorem operate (op : BinaryOp) (a b : Value) :
    Beside mentioned start start' (fun _ => True) (operate op a b) (operate op a b) := by
  intro s s' h
  simp only [Action.operate, bind_apply, settings, h.settings]
  exact .done trivial h

theorem assignTo {target : Ident} (htarget : mentioned target.name) (value : Value) :
    Beside mentioned start start' (fun _ => True) (assignTo target value)
      (assignTo target value) := by
  intro s s' h
  have hfind := Store.find?_congr (h.store target.name htarget)
  simp only [Action.assignTo, bind_apply, store, Store.assign, hfind]
  cases s.store.find? target.name with
  | none => exact .done trivial (h.record _)
  | some x =>
    cases hstored : value.convert x.ty (some target.name) with
    | error fault =>
      simp only [hstored]
      exact .done trivial (h.record _)
    | ok stored =>
      simp only [hstored]
      exact .done trivial ((h.put target.name stored).emit (.assigned target.name stored))

end Action.Beside

def besides (mentioned : String → Prop) (start start' : Session) : Accord Action Action where
  Rel _ x y Q := Action.Beside mentioned start start' Q x y
  pure ha := fun _ _ h => .done ha h
  bind := Action.Beside.bind
  weaken := Action.Beside.weaken
  giveUp := fun _ _ _ => .unfinished
  announce := Action.Beside.announce
  mark _ := fun _ _ h => .done trivial (h.emit _)

section

variable {mentioned : String → Prop} {start start' : Session}

theorem besides_enters (d : Nat) : (besides mentioned start start').Enters d :=
  Action.Beside.nested

theorem besides_reports (d : Nat) (p : Position) (fault : Fault) :
    (besides mentioned start start').Reports d p fault :=
  fun _ _ h => .done trivial (h.record ⟨p, fault⟩)

theorem Expr.besides_agrees {node : Expr} (hname : ∀ name, node.name? = some name → mentioned name)
    (d : Nat) : node.Agrees (besides mentioned start start') (fun _ _ => True) d := by
  cases node with
  | literal l p =>
    simp only [Agrees, Machine.recover_action]
    exact Action.Beside.recover p _ _
  | var name p =>
    simp only [Agrees, Machine.recover_action]
    exact (Action.Beside.lookup (hname name rfl)).bind fun r _ => Action.Beside.recover p _ r
  | binary op l r p =>
    cases hop : op.isLogical with
    | true =>
      simp only [Agrees, hop, if_true]
      exact ⟨fun _ _ fault _ => besides_reports d p fault, fun _ => trivial⟩
    | false =>
      simp only [Agrees, hop, Machine.recover_action]
      exact fun a b _ _ =>
        (Action.Beside.operate op a b).bind fun r _ => Action.Beside.recover p _ r
  | unary op e p =>
    simp only [Agrees, Machine.recover_action]
    exact fun a _ => Action.Beside.recover p _ _
  | paren e p => exact fun _ _ => trivial

theorem Expr.besides_eval {e : Expr} (h : ∀ name p, .var name p ∈ e.parts → mentioned name)
    (d : Nat) :
    (besides mentioned start start').Rel d (e.evalIn Action) (e.evalIn Action) fun _ => True := by
  refine Expr.eval_agrees (Q := fun _ _ => True) e d fun k node hk => ⟨besides_enters k, ?_⟩
  refine besides_agrees (fun name hname => ?_) (k + 1)
  cases node with
  | var name' p =>
    cases hname
    exact h name p (mem_parts hk)
  | _ => cases hname

theorem Task.besides_agrees {task : Task} (hdeclares : task.declares = false)
    (hreads : ∀ name p, .var name p ∈ task.parts → mentioned name)
    (htarget : ∀ name, task.target? = some name → mentioned name) (d : Nat) :
    task.Agrees (besides mentioned start start') (fun _ => True) d := by
  cases task with
  | start => exact ⟨fun _ => Action.Beside.checkInterrupt, besides_enters d⟩
  | give e => exact Expr.besides_eval hreads d
  | test e =>
    exact Accord.truthOf (Expr.besides_eval hreads d) fun _ _ fault _ => besides_reports d _ fault
  | assign target e =>
    simp only [Agrees, Machine.assignTo_action]
    refine (besides mentioned start start').bind (Expr.besides_eval hreads d) fun value _ => ?_
    exact (Action.Beside.assignTo (htarget _ rfl) value).weaken fun _ _ _ _ => trivial
  | declare ty names p => cases hdeclares

end

/-- What a statement without declarations does depends on the variables it mentions only. -/
theorem Stmt.exec_beside {stmt : Stmt} (hdeclares : stmt.declares = false)
    {mentioned : String → Prop} (hreads : ∀ name ∈ stmt.reads, mentioned name)
    (htargets : ∀ name ∈ stmt.targets, mentioned name) (start start' : Session) (turns : Nat) :
    Action.Beside mentioned start start' (fun _ => True) (stmt.exec turns) (stmt.exec turns) := by
  have hexec := exec_agrees (besides mentioned start start') (fun _ => True) turns stmt 0
    fun k task hk => by
      have htask := mem_work hk
      have htask' := declares_of_mem_work hdeclares htask
      exact Task.besides_agrees htask' (fun name p hp => hreads name (mem_reads htask hp))
        (fun name hname => htargets name (mem_targets htask hname)) k
  rw [execIn_action] at hexec
  exact hexec.weaken fun _ _ => trivial

end TolerantScript
