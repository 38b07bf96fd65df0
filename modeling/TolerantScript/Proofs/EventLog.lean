import TolerantScript.Proofs.VariableList

/-!
The events of a call as an account of its effects. The variables and the diagnostics that a call
leaves are those it found, changed as its events tell: nothing is declared, assigned or recorded
without its event, and no event tells of what was not done.
-/

namespace TolerantScript

/-! What events tell. -/

namespace Event

def declaration? : Event → Option (String × Ty)
  | .declared name ty => some (name, ty)
  | _ => none

def valueFor? (name : String) : Event → Option Value
  | .assigned target value => if target = name then some value else none
  | _ => none

def diagnostic? : Event → Option Diagnostic
  | .recorded d => some d
  | _ => none

theorem declaration?_of_isMark {e : Event} (h : e.isMark = true) : e.declaration? = none := by
  cases e with
  | declared | assigned | recorded => cases h
  | _ => rfl

theorem valueFor?_of_isMark {e : Event} (h : e.isMark = true) (name : String) :
    e.valueFor? name = none := by
  cases e with
  | declared | assigned | recorded => cases h
  | _ => rfl

theorem diagnostic?_of_isMark {e : Event} (h : e.isMark = true) : e.diagnostic? = none := by
  cases e with
  | declared | assigned | recorded => cases h
  | _ => rfl

end Event

def lastFor? (name : String) (log : List Event) : Option Value :=
  (log.filterMap (·.valueFor? name)).getLast?

theorem lastFor?_concat (name : String) (log : List Event) (e : Event) :
    lastFor? name (log ++ [e]) = (e.valueFor? name).or (lastFor? name log) := by
  rw [lastFor?, lastFor?, List.filterMap_append, List.getLast?_append]
  cases h : e.valueFor? name with
  | none => simp [h]
  | some v => simp [h]

namespace Variable

def ofDeclaration (d : String × Ty) : Variable := ⟨d.1, d.2, .initial d.2⟩

def after (log : List Event) (x : Variable) : Variable :=
  { x with value := (lastFor? x.name log).getD x.value }

theorem after_nil : after [] = id := rfl

theorem after_of_none {log : List Event} {x : Variable} (h : lastFor? x.name log = none) :
    x.after log = x := by
  rw [after, h]
  rfl

theorem after_concat_of_none {e : Event} (h : ∀ name, e.valueFor? name = none) (log : List Event) :
    after (log ++ [e]) = after log := by
  funext x
  rw [after, after, lastFor?_concat, h x.name]
  rfl

theorem after_concat_assigned (log : List Event) (name : String) (value : Value) (x : Variable) :
    x.after (log ++ [.assigned name value]) =
      if (x.after log).name == name then { x.after log with value } else x.after log := by
  rw [after, lastFor?_concat]
  by_cases h : x.name = name
  · simp [after, Event.valueFor?, h]
  · have hother : name ≠ x.name := fun h' => h h'.symm
    simp [after, Event.valueFor?, h, hother]

end Variable

/-! A session beside the one that a call started in. -/

/-- The session is what the first one has become by what the log tells. -/
structure Session.Logged (start : Session) (log : List Event) (s : Session) : Prop where
  events : s.events.toList = start.events.toList ++ log
  «variables» : s.store.variables =
    (start.store.variables ++ (log.filterMap Event.declaration?).map Variable.ofDeclaration).map
      (Variable.after log)
  /-- What was assigned to is there, so that its name cannot be declared any more. -/
  present : ∀ name, (lastFor? name log).isSome = true → s.store.contains name = true
  diagnostics : s.diagnostics.toList =
    start.diagnostics.toList ++ log.filterMap Event.diagnostic?

namespace Session.Logged

variable {start s : Session} {log : List Event}

theorem refl (s : Session) : s.Logged [] s where
  events := (List.append_nil _).symm
  «variables» := by simp [Variable.after_nil]
  present := by simp [lastFor?]
  diagnostics := (List.append_nil _).symm

theorem toList_events (h : start.Logged log s) (store : Store) (e : Event) :
    ({ s with store }.emit e).events.toList = start.events.toList ++ (log ++ [e]) := by
  have hpush : ({ s with store }.emit e).events.toList = s.events.toList ++ [e] :=
    toList_events_emit { s with store } e
  rw [hpush, h.events, List.append_assoc]

theorem tell (h : start.Logged log s) {e : Event} (hdeclaration : e.declaration? = none)
    (hvalue : ∀ name, e.valueFor? name = none) {diagnostics : Array Diagnostic}
    (hdiagnostics : diagnostics.toList = s.diagnostics.toList ++ e.diagnostic?.toList) :
    start.Logged (log ++ [e]) { s.emit e with diagnostics } where
  events := h.toList_events s.store e
  «variables» := by
    have hsame : (log ++ [e]).filterMap Event.declaration? = log.filterMap Event.declaration? := by
      simp [hdeclaration]
    rw [Variable.after_concat_of_none hvalue, hsame]
    exact h.variables
  present name := by
    rw [lastFor?_concat, hvalue name]
    exact h.present name
  diagnostics := by
    rw [hdiagnostics, h.diagnostics, List.append_assoc, List.filterMap_append]
    cases hd : e.diagnostic? <;> simp [hd]

theorem mark (h : start.Logged log s) {e : Event} (he : e.isMark = true) :
    start.Logged (log ++ [e]) (s.emit e) := by
  refine h.tell (Event.declaration?_of_isMark he) (Event.valueFor?_of_isMark he) ?_
  rw [Event.diagnostic?_of_isMark he]
  exact (List.append_nil _).symm

theorem record (h : start.Logged log s) (d : Diagnostic) :
    start.Logged (log ++ [.recorded d]) (s.record d) :=
  h.tell rfl (fun _ => rfl) (toList_diagnostics_record s d)

theorem lastFor?_of_declare (h : start.Logged log s) {name : String} {ty : Ty} {store : Store}
    (hdeclare : s.store.declare name ty = .ok store) : lastFor? name log = none := by
  cases hlast : lastFor? name log with
  | none => rfl
  | some v =>
    have hthere := h.present name (by rw [hlast]; rfl)
    simp [Store.declare, hthere] at hdeclare

theorem declare (h : start.Logged log s) {name : String} {ty : Ty} {store : Store}
    (hdeclare : s.store.declare name ty = .ok store) :
    start.Logged (log ++ [.declared name ty]) ({ s with store }.emit (.declared name ty)) where
  events := h.toList_events store _
  «variables» := by
    have hnew : (Variable.ofDeclaration (name, ty)).after log = ⟨name, ty, .initial ty⟩ := by
      simp [Variable.after, Variable.ofDeclaration, h.lastFor?_of_declare hdeclare]
    show store.variables = _
    rw [Store.variables_declare s.store store name ty hdeclare, h.variables,
      Variable.after_concat_of_none fun _ => rfl]
    simp [Event.declaration?, hnew]
  present other hother := by
    rw [lastFor?_concat] at hother
    have hthere := h.present other hother
    show store.contains other = true
    rw [Store.contains, Store.find?] at hthere ⊢
    rw [Store.variables_declare s.store store name ty hdeclare, List.find?_append, Option.isSome_or,
      hthere, Bool.true_or]
  diagnostics := by
    rw [List.filterMap_append]
    exact h.diagnostics.trans (congrArg _ (List.append_nil _).symm)

theorem assign (h : start.Logged log s) {name : String} {value stored : Value} {store : Store}
    (hassign : s.store.assign name value = .ok (stored, store)) :
    start.Logged (log ++ [.assigned name stored])
      ({ s with store }.emit (.assigned name stored)) := by
  obtain ⟨hty, rfl⟩ := Store.assign_eq_ok hassign
  constructor
  case events => exact h.toList_events _ _
  case «variables» =>
    have hsame : (log ++ [Event.assigned name stored]).filterMap Event.declaration? =
        log.filterMap Event.declaration? := by
      simp [Event.declaration?]
    show (s.store.put name stored).variables = _
    rw [Store.put, h.variables, List.map_map, hsame]
    apply List.map_congr_left
    intro x _
    exact (Variable.after_concat_assigned log name stored x).symm
  case present =>
    intro other hother
    show (s.store.put name stored).contains other = true
    rw [Store.contains, Store.find?_put, Option.isSome_map]
    by_cases hname : name = other
    · subst hname
      obtain ⟨x, hx, -⟩ := Option.map_eq_some_iff.mp hty
      rw [hx]
      rfl
    · rw [lastFor?_concat, Event.valueFor?, if_neg hname] at hother
      exact h.present other hother
  case diagnostics =>
    rw [List.filterMap_append]
    exact h.diagnostics.trans (congrArg _ (List.append_nil _).symm)

end Session.Logged

namespace Session.Logged

variable {start s : Session} {log : List Event}

theorem signature (h : start.Logged log s) :
    s.store.signature = start.store.signature ++ log.filterMap Event.declaration? := by
  have hafter : (fun x => (x.name, x.ty)) ∘ Variable.after log = fun x => (x.name, x.ty) := rfl
  have hnew : (fun x => (x.name, x.ty)) ∘ Variable.ofDeclaration = id := rfl
  rw [Store.signature, h.variables, List.map_map, hafter, List.map_append, List.map_map, hnew,
    List.map_id]
  rfl

theorem getElem?_variables (h : start.Logged log s) {i : Nat} {x : Variable}
    (hx : s.store.variables[i]? = some x) :
    match lastFor? x.name log with
    | some v => x.value = v
    | none =>
      if i < start.store.size then start.store.variables[i]? = some x
      else x.value = .initial x.ty := by
  rw [h.variables, List.getElem?_map] at hx
  obtain ⟨y, hy, rfl⟩ := Option.map_eq_some_iff.mp hx
  have hname : (y.after log).name = y.name := rfl
  rw [hname]
  cases hlast : lastFor? y.name log with
  | some v => simp [Variable.after, hlast]
  | none =>
    rw [Variable.after_of_none hlast]
    by_cases hold : i < start.store.size
    · simp only [if_pos hold]
      rwa [List.getElem?_append_left hold] at hy
    · simp only [if_neg hold]
      rw [List.getElem?_append_right (Nat.le_of_not_lt hold), List.getElem?_map] at hy
      obtain ⟨d, -, rfl⟩ := Option.map_eq_some_iff.mp hy
      rfl

end Session.Logged

/-! Every task keeps the account. -/

def logging (start : Session) : Regime where
  Inv s := ∃ log, start.Logged log s
  Fatal _ _ := True
  inv_enter _ _ := fun ⟨log, h⟩ => ⟨log, h.events, h.variables, h.present, h.diagnostics⟩
  inv_leave _ := fun ⟨log, h⟩ => ⟨log, h.events, h.variables, h.present, h.diagnostics⟩
  inv_mark _ e he := fun ⟨log, h⟩ => ⟨log ++ [e], h.mark he⟩
  fatal_leave _ _ _ := trivial

section

variable {start : Session}

theorem logging_records (p : Position) (fault : Fault) : (logging start).Records p fault :=
  fun _ ⟨log, h⟩ => ⟨log ++ [.recorded ⟨p, fault⟩], h.record ⟨p, fault⟩⟩

theorem Task.logging_keeps (task : Task) (d : Nat) :
    task.Keeps (logging start) (fun _ => True) d := by
  refine Task.keeps_of_records (fun _ _ => trivial) logging_records ?_ ?_ d
  · rintro target - - s value stored store ⟨log, hs⟩ hassign
    exact ⟨log ++ [.assigned target.name stored], hs.assign hassign⟩
  · rintro ty - - - x - s store ⟨log, hs⟩ hdeclare
    exact ⟨log ++ [.declared x.name ty], hs.declare hdeclare⟩

end

namespace Call

theorem logged_of_leads {c : Call} (hc : c ≠ .takeDiagnostics) {s t : Session} (h : c.Leads s t) :
    ∃ log, s.Logged log t := by
  refine inv_of_leads (R := logging s) Task.logging_keeps ?_ ?_ h ⟨[], .refl s⟩
  · rintro u flag stopAt ⟨log, hu⟩
    exact ⟨log, hu.events, hu.variables, hu.present, hu.diagnostics⟩
  · exact fun htake => absurd htake hc

/-- The events of a call, however it ended, account for its effects. The declarations they tell of
are the variables that were added. A variable holds the value that the last event on it tells; if
there is none, it is as the call found it, or as it was declared by the call. And the diagnostics
they tell of are those that were appended. -/
theorem log_accounts_for_effects {c : Call} (hc : c ≠ .takeDiagnostics) {s t : Session}
    (h : c.Leads s t) :
    ∃ log, t.events.toList = s.events.toList ++ log ∧
      t.store.signature = s.store.signature ++ log.filterMap Event.declaration? ∧
      (∀ i x, t.store.variables[i]? = some x →
        match lastFor? x.name log with
        | some v => x.value = v
        | none =>
          if i < s.store.size then s.store.variables[i]? = some x else x.value = .initial x.ty) ∧
      t.diagnostics.toList = s.diagnostics.toList ++ log.filterMap Event.diagnostic? := by
  obtain ⟨log, hlog⟩ := logged_of_leads hc h
  exact ⟨log, hlog.events, hlog.signature, fun i x => hlog.getElem?_variables, hlog.diagnostics⟩

/-- `float y, x, z; do y = y + 1; while (y < 2); x = "a";` and a declaration without a type. -/
def cutShort : Call :=
  .run ⟨[.declare (some .float) [⟨"y", ⟨1, 7⟩⟩, ⟨"x", ⟨1, 10⟩⟩, ⟨"z", ⟨1, 13⟩⟩] ⟨1, 1⟩,
    .doWhile
      (.assign ⟨"y", ⟨2, 4⟩⟩ (.binary .add (.var "y" ⟨2, 8⟩)
        (.literal ⟨.int, "1"⟩ ⟨2, 12⟩) ⟨2, 10⟩))
      (.binary .lt (.var "y" ⟨2, 22⟩) (.literal ⟨.int, "2"⟩ ⟨2, 26⟩) ⟨2, 24⟩) ⟨2, 1⟩,
    .assign ⟨"x", ⟨3, 1⟩⟩ (.literal ⟨.string, "a"⟩ ⟨3, 5⟩),
    .declare none [⟨"w", ⟨4, 1⟩⟩] ⟨4, 1⟩]⟩

def oneVariable : Session := { store := ⟨[⟨"x", .int, .int 5⟩]⟩ }

/-- Two declarations, two assignments to one variable, two diagnostics, and a fatal fault after
them. -/
theorem log_accounts_for_effects_cutShort :
    cutShort ≠ .takeDiagnostics ∧ ∃ t log, cutShort.Leads oneVariable t ∧
      t.events.toList = log ∧
      log.filterMap Event.declaration? = [("y", .float), ("z", .float)] ∧
      lastFor? "x" log = none ∧ lastFor? "y" log = some (.float ⟨0x40000000⟩) ∧
      (log.filterMap Event.diagnostic?).length = 2 ∧
      t.store.signature = [("x", .int), ("y", .float), ("z", .float)] ∧
      t.diagnostics.size = 2 := by
  have hc : cutShort ≠ .takeDiagnostics := by
    intro h
    cases h
  have hrun : (cutShort.session? 3 oneVariable).map (fun t =>
      (t.events.toList.filterMap Event.declaration?, lastFor? "x" t.events.toList,
        lastFor? "y" t.events.toList, (t.events.toList.filterMap Event.diagnostic?).length)) =
      some ([("y", .float), ("z", .float)], none, some (.float ⟨0x40000000⟩), 2) := by
    decide +kernel
  obtain ⟨t, ht, hrun⟩ := Option.map_eq_some_iff.mp hrun
  simp only [Prod.mk.injEq] at hrun
  obtain ⟨hdeclared, hx, hy, hcount⟩ := hrun
  have hleads : cutShort.Leads oneVariable t := ⟨3, ht⟩
  obtain ⟨log, hevents, hsignature, -, hdiagnostics⟩ := log_accounts_for_effects hc hleads
  have hlog : t.events.toList = log := hevents
  rw [hlog] at hdeclared hx hy hcount
  refine ⟨hc, t, log, hleads, hlog, hdeclared, hx, hy, hcount, ?_, ?_⟩
  · rw [hsignature, hdeclared]
    rfl
  · rw [← Array.length_toList, hdiagnostics, List.length_append, hcount]
    rfl

end Call

end TolerantScript
