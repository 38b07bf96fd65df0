import TolerantScript.Proofs.Course
import TolerantScript.Proofs.Loop

/-!
The statements that execution comes to, in order, each with the session that it finds; and what it
takes for the stages of an execution to account for them.
-/

namespace TolerantScript

variable {α : Type}

/-! The statements that execution comes to. -/

/-- A statement that execution comes to, and the session that it finds. -/
structure Visit where
  stmt : Stmt
  session : Session

namespace Visit

def isAdmitted (v : Visit) : Bool := v.session.refusal?.isNone

def start (v : Visit) : Event := .started v.stmt.kind v.stmt.position

/-- The starts of the statements that are admitted, each with the number of events before it. -/
def starts (visits : List Visit) : List (Event × Nat) :=
  (visits.filter isAdmitted).map fun v => (v.start, v.session.events.size)

theorem starts_append (visits later : List Visit) :
    starts (visits ++ later) = starts visits ++ starts later := by
  simp only [starts, List.filter_append, List.map_append]

end Visit

/-- What is come to after an action, which is nothing if it does not give a value. -/
def Outcome.onward (o : Outcome α) (next : α → Session → List Visit) : List Visit :=
  match o with
  | .done a s => next a s
  | _ => []

theorem Outcome.onward_nil (o : Outcome α) : (o.onward fun _ _ => []) = [] := by
  cases o <;> rfl

namespace Action

def whileVisits (test : Action Bool) (body : Action (Option Value))
    (visits : Session → List Visit) : (turns : Nat) → Session → List Visit
  | 0, _ => []
  | turns + 1, s =>
    (checkInterrupt s).onward fun _ s =>
      (test s).onward fun holds s =>
        if holds then visits s ++ (body s).onward fun _ s => whileVisits test body visits turns s
        else []

def doWhileVisits (test : Action Bool) (body : Action (Option Value))
    (visits : Session → List Visit) : (turns : Nat) → Session → List Visit
  | 0, _ => []
  | turns + 1, s =>
    (checkInterrupt s).onward fun _ s =>
      visits s ++ (body s).onward fun _ s =>
        (test s).onward fun holds s =>
          if holds then doWhileVisits test body visits turns s else []

end Action

mutual

/-- The statements that the execution of a statement comes to, in order, itself first. -/
def Stmt.visits (turns : Nat) (stmt : Stmt) (s : Session) : List Visit :=
  ⟨stmt, s⟩ :: if s.refusal?.isSome then [] else
    let inner := s.inside stmt.kind stmt.position
    match stmt with
    | .block stmts _ => Stmt.visitsAll turns stmts inner
    | .branch cond yes no _ =>
      (cond.test inner).onward fun holds s =>
        if holds then yes.visits turns s else Stmt.visitsElse turns no s
    | .whileDo cond body _ =>
      Action.whileVisits cond.test (body.exec turns) (body.visits turns) turns inner
    | .doWhile body cond _ =>
      Action.doWhileVisits cond.test (body.exec turns) (body.visits turns) turns inner
    | _ => []

def Stmt.visitsAll (turns : Nat) : List Stmt → Session → List Visit
  | [], _ => []
  | stmt :: rest, s =>
    stmt.visits turns s ++ (stmt.exec turns s).onward fun _ s => Stmt.visitsAll turns rest s

def Stmt.visitsElse (turns : Nat) : Option Stmt → Session → List Visit
  | none, _ => []
  | some stmt, s => stmt.visits turns s

end

def Stmt.feedVisits (turns : Nat) (stopAfter : Option Nat) (outputs : Array Value) :
    List Stmt → Session → List Visit
  | [], _ => []
  | stmt :: rest, s =>
    stmt.visits turns s ++ (stmt.exec turns s).onward fun value s =>
      let next := handOver stopAfter outputs s (stmt.output? value)
      feedVisits turns stopAfter next.1 rest next.2

def Program.visits (turns : Nat) (stopAfter : Option Nat) (p : Program) (s : Session) :
    List Visit :=
  Stmt.feedVisits turns stopAfter #[] p.stmts (s.emit (.runStarted p.stmts.length))

/-! The starts among the events. -/

def Session.starts (s : Session) : List (Event × Nat) :=
  s.events.toList.zipIdx.filter fun e => e.1.isTrace

theorem Session.starts_emit (s : Session) (e : Event) :
    (s.emit e).starts = s.starts ++ if e.isTrace then [(e, s.events.size)] else [] := by
  rw [starts, toList_events_emit, List.zipIdx_append, List.filter_append]
  cases he : e.isTrace <;> simp [starts, he]

theorem Session.starts_tell {s : Session} {e : Event} (he : e.isTrace = false) :
    (s.emit e).starts = s.starts := by
  rw [starts_emit, he, if_neg Bool.false_ne_true, List.append_nil]

theorem Session.starts_inside {s : Session} (htrace : s.settings.trace = true) (kind : Stmt.Kind)
    (p : Position) : (s.inside kind p).starts = s.starts ++ [(.started kind p, s.events.size)] := by
  rw [inside, if_pos htrace]
  exact starts_emit _ _

/-! The way from one session to another. -/

theorem Session.Moves.precedes {s t : Session} (h : s.Moves t) : s.Precedes t := by
  cases h with
  | stay => exact .refl s
  | enter h => exact ⟨List.prefix_rfl, List.prefix_rfl⟩
  | leave => exact ⟨List.prefix_rfl, List.prefix_rfl⟩
  | emit store e =>
    have hemit := Session.Precedes.emit { s with store } e
    exact ⟨hemit.events, hemit.diagnostics⟩
  | record d => exact .record s d
  | interrupt => exact ⟨List.prefix_rfl, List.prefix_rfl⟩

namespace Passes

variable {s t : Session} {stages : List Session}

theorem precedes (h : Passes s stages t) : ∀ u ∈ s :: stages, u.Precedes t := by
  induction h with
  | refl s => exact fun u hu => List.mem_singleton.mp hu ▸ .refl s
  | @step s t u stages hmove rest ih =>
    intro v hv
    obtain rfl | hv := List.mem_cons.mp hv
    · exact hmove.precedes.trans (ih t List.mem_cons_self)
    · exact ih v hv

/-- A statement is entered in three steps: it sees that nobody has asked to stop, goes one level
further in and, if the session traces, announces its start. -/
theorem inside (h : s.refusal? = none) (kind : Stmt.Kind) (p : Position) :
    Passes s [s, { s with depth := s.depth + 1 }, s.inside kind p] (s.inside kind p) := by
  have hroom := (s.refusal?_eq_none_iff.mp h).2
  refine .step .stay (.step (.enter hroom) (.move ?_))
  rw [Session.inside]
  split
  · exact .emit s.store _
  · exact .stay

end Passes

/-- On the way through the stages the visits are made, in order. If the session traces, the starts
of those that are admitted are announced meanwhile, and no others. -/
structure Account (s : Session) (stages : List Session) (visits : List Visit) : Prop where
  order : (visits.map Visit.session).Sublist stages
  told : s.settings.trace = true → ∀ t, Passes s stages t →
    t.starts = s.starts ++ Visit.starts visits

namespace Account

variable {s t u : Session} {early late : List Session} {visits later : List Visit}

theorem refl (s : Session) : Account s [] [] where
  order := .slnil
  told := by
    rintro - t (- | -)
    exact (List.append_nil _).symm

theorem silent (h : t.starts = s.starts) : Account s [t] [] where
  order := List.nil_sublist _
  told := by
    intro _ u hu
    cases hu with
    | step _ rest =>
      cases rest
      rw [h]
      exact (List.append_nil _).symm

theorem append (h : Account s early visits) (hpass : Passes s early u) (h' : Account u late later) :
    Account s (early ++ late) (visits ++ later) where
  order := by
    rw [List.map_append]
    exact h.order.append h'.order
  told := by
    intro htrace t ht
    obtain ⟨v, hv, hlate⟩ := ht.split
    have hv' : v = u := hv.unique hpass
    subst hv'
    have htrace' : v.settings.trace = true := by rw [hpass.settings, htrace]
    rw [h'.told htrace' t hlate, h.told htrace v hpass, Visit.starts_append, List.append_assoc]

theorem left {o : Outcome α} (h : Account s early visits) (hpass : Passes s early u)
    (hend : ∀ v, o.session? = some v → v = u) :
    Account s (early ++ o.session?.toList.map Action.leave) visits := by
  cases ho : o.session? with
  | none => simpa using h
  | some v =>
    have hv := hend v ho
    subst hv
    have hleave : Account v [Action.leave v] [] := silent rfl
    simpa using h.append hpass hleave

theorem refused {fault : Fault} (h : s.refusal? = some fault) (stmt : Stmt) :
    Account s [s] [⟨stmt, s⟩] where
  order := .refl _
  told := by
    intro _ t ht
    have hnone : Visit.starts [⟨stmt, s⟩] = [] := by simp [Visit.starts, Visit.isAdmitted, h]
    rw [hnone, ht.unique (.move .stay), List.append_nil]

theorem admitted (h : s.refusal? = none) (stmt : Stmt) :
    Account s [s, { s with depth := s.depth + 1 }, s.inside stmt.kind stmt.position]
      [⟨stmt, s⟩] where
  order := List.Sublist.cons_cons s (List.nil_sublist _)
  told := by
    intro htrace t ht
    have hone : Visit.starts [⟨stmt, s⟩] =
        [(.started stmt.kind stmt.position, s.events.size)] := by
      simp [Visit.starts, Visit.isAdmitted, Visit.start, h]
    rw [hone, ht.unique (.inside h _ _), Session.starts_inside htrace]

/-- The start of a statement that is admitted comes right after the events that the statement
finds. -/
theorem start_next (h : Account s early visits) (htrace : s.settings.trace = true)
    (hpass : Passes s early t) {v : Visit} (hv : v ∈ visits) (hadmitted : v.isAdmitted = true) :
    v.session.events.toList ++ [v.start] <+: t.events.toList := by
  have hsession : v.session ∈ early := h.order.subset (List.mem_map_of_mem hv)
  obtain ⟨rest, hrest⟩ := (hpass.precedes v.session (List.mem_cons_of_mem s hsession)).events
  have hstart : (v.start, v.session.events.size) ∈ t.starts := by
    rw [h.told htrace t hpass, List.mem_append]
    exact .inr (List.mem_map.mpr ⟨v, List.mem_filter.mpr ⟨hv, hadmitted⟩, rfl⟩)
  have hplace : t.events.toList[v.session.events.size]? = some v.start :=
    List.mem_zipIdx_iff_getElem?.mp (List.mem_filter.mp hstart).1
  -- the event at this place is the first of those that came after the statement was come to
  rw [← hrest, List.getElem?_append_right (by simp), Array.length_toList, Nat.sub_self] at hplace
  cases rest with
  | nil => cases hplace
  | cons e rest =>
    cases hplace
    exact ⟨rest, by simp [← hrest]⟩

end Account

end TolerantScript
