import TolerantScript.Proofs.Feed
import TolerantScript.Proofs.Simulation

/-!
The journal of a run: all that happens in it, in order. It has the start of every statement, also
where the session does not trace, and every value that is handed over, and tells of each whether the
session had been asked to stop before it.
-/

namespace TolerantScript

open Machine

variable {α β : Type}

inductive Happening where
  | event (e : Event)
  | output (value : Value)
  deriving DecidableEq

/-- What happened, and whether the flag was up already when it did. -/
structure Note where
  what : Happening
  late : Bool
  deriving DecidableEq

namespace Note

def event? (n : Note) : Option Event :=
  match n.what with
  | .event e => some e
  | .output _ => none

def output? (n : Note) : Option Value :=
  match n.what with
  | .event _ => none
  | .output v => some v

end Note

def Session.note (s : Session) (what : Happening) : Note := ⟨what, s.interrupted⟩

/-- Execution that keeps a journal. -/
def Journaled (α : Type) : Type := Session → Outcome α × List Note

def Session.tracing (s : Session) : Session :=
  { s with settings := { s.settings with trace := true } }

/-- What the action announces, or would announce if the session traced. -/
def Action.notes (x : Action α) (s : Session) : List Note :=
  match (x s.tracing).session? with
  | some t => (t.events.toList.drop s.events.size).map fun e => s.note (.event e)
  | none => []

instance : Machine Journaled where
  pure a := fun s => (.done a s, [])
  bind x f := fun s =>
    match x s with
    | (.done a s', early) => ((f a s').1, early ++ (f a s').2)
    | (.halted fault s', early) => (.halted fault s', early)
    | (.unfinished, early) => (.unfinished, early)
  perform x := fun s => (x s, x.notes s)
  report position fault := fun s =>
    (.done () (s.record ⟨position, fault⟩), [s.note (.event (.recorded ⟨position, fault⟩))])
  nested x := fun s =>
    (Action.nested (fun s => (x s).1) s,
      if s.settings.maxDepth ≤ s.depth then [] else (x { s with depth := s.depth + 1 }).2)

/-! What the single actions put into the journal. -/

namespace Action

theorem notes_of_same {x : Action α} {s : Session}
    (h : ∀ t, (x s.tracing).session? = some t → t.events = s.events) : x.notes s = [] := by
  unfold notes
  split
  case h_1 t ht => simp [h t ht]
  case h_2 => rfl

theorem notes_of_push {x : Action α} {s t : Session} {e : Event}
    (hend : (x s.tracing).session? = some t) (h : t.events = s.events.push e) :
    x.notes s = [s.note (.event e)] := by
  simp [notes, hend, h]

theorem notes_halt (fault : Fault) (s : Session) : (halt fault : Action α).notes s = [] :=
  notes_of_same fun t ht => by cases ht; rfl

theorem notes_lookup (name : String) (s : Session) : (lookup name).notes s = [] :=
  notes_of_same fun t ht => by cases ht; rfl

theorem notes_operate (op : BinaryOp) (l r : Value) (s : Session) : (operate op l r).notes s = [] :=
  notes_of_same fun t ht => by cases ht; rfl

theorem notes_checkInterrupt (s : Session) : checkInterrupt.notes s = [] := by
  refine notes_of_same fun t ht => ?_
  simp only [checkInterrupt] at ht
  split at ht <;> (cases ht; rfl)

theorem notes_emit (e : Event) (s : Session) : (emit e).notes s = [s.note (.event e)] :=
  notes_of_push rfl rfl

theorem notes_announce (kind : Stmt.Kind) (p : Position) (s : Session) :
    (announce kind p).notes s = [s.note (.event (.started kind p))] :=
  notes_of_push rfl rfl

theorem notes_declare (name : String) (ty : Ty) (s : Session) :
    (declare name ty).notes s =
      match s.store.declare name ty with
      | .ok _ => [s.note (.event (.declared name ty))]
      | .error _ => [] := by
  have happly := declare_apply name ty s.tracing
  have hstore : s.tracing.store = s.store := rfl
  rw [hstore] at happly
  cases hs : s.store.declare name ty with
  | ok extended =>
    rw [hs] at happly
    exact notes_of_push (by rw [happly]; rfl) rfl
  | error fault =>
    rw [hs] at happly
    refine notes_of_same fun t ht => ?_
    rw [happly] at ht
    cases ht
    rfl

theorem notes_assign (name : String) (value : Value) (s : Session) :
    (assign name value).notes s =
      match s.store.assign name value with
      | .ok (stored, _) => [s.note (.event (.assigned name stored))]
      | .error _ => [] := by
  have happly := assign_apply name value s.tracing
  have hstore : s.tracing.store = s.store := rfl
  rw [hstore] at happly
  cases hs : s.store.assign name value with
  | ok r =>
    rw [hs] at happly
    exact notes_of_push (by rw [happly]; rfl) rfl
  | error fault =>
    rw [hs] at happly
    refine notes_of_same fun t ht => ?_
    rw [happly] at ht
    cases ht
    rfl

end Action

/-! The journal is right. -/

structure Session.Abreast (s t : Session) : Prop where
  settings : t.settings = s.settings
  store : t.store = s.store
  events : t.events = s.events
  interrupted : t.interrupted = s.interrupted
  stopAt : t.stopAt = s.stopAt

def Note.shown? (trace : Bool) (n : Note) : Option Event :=
  n.event?.filter fun e => trace || !e.isTrace

/-- The events among the notes that a session announces, which traces or does not. -/
def shown (trace : Bool) (notes : List Note) : List Event := notes.filterMap (Note.shown? trace)

def handed (notes : List Note) : List Value := notes.filterMap Note.output?

def Event.isChange : Event → Bool
  | .declared .. | .assigned .. => true
  | _ => false

/-- The way of a run, step by step, from the outputs and the session that it starts with, with a
note of each event and each output. The variables change with the events that tell so, and at no
other step; the flag goes up with the event or the output that is to raise it. -/
inductive Chronicle (stopAfter : Option Nat) :
    Array Value × Session → List Note → Array Value × Session → Prop where
  | refl (x : Array Value × Session) : Chronicle stopAfter x [] x
  | emit {outputs : Array Value} {s : Session} {y : Array Value × Session} {notes : List Note}
    (store : Store) (e : Event) :
    (e.isTrace = true → s.settings.trace = true) → (e.isChange = false → store = s.store) →
    Chronicle stopAfter (outputs, { s with store }.emit e) notes y →
    Chronicle stopAfter (outputs, s) (s.note (.event e) :: notes) y
  /-- A start that only a tracing session would announce. -/
  | pass {outputs : Array Value} {s : Session} {y : Array Value × Session} {notes : List Note}
    (e : Event) :
    s.settings.trace = false → e.isTrace = true → Chronicle stopAfter (outputs, s) notes y →
    Chronicle stopAfter (outputs, s) (s.note (.event e) :: notes) y
  | output {outputs : Array Value} {s : Session} {y : Array Value × Session} {notes : List Note}
    (v : Value) :
    Chronicle stopAfter (Stmt.handOver stopAfter outputs s (some v)) notes y →
    Chronicle stopAfter (outputs, s) (s.note (.output v) :: notes) y
  | silent {outputs : Array Value} {s s' : Session} {y : Array Value × Session}
    {notes : List Note} :
    s.Abreast s' → Chronicle stopAfter (outputs, s') notes y →
    Chronicle stopAfter (outputs, s) notes y

namespace Chronicle

variable {stopAfter : Option Nat} {outputs : Array Value} {s : Session} {notes : List Note}
  {x y z : Array Value × Session}

theorem trans {early late : List Note} (h : Chronicle stopAfter x early y)
    (h' : Chronicle stopAfter y late z) : Chronicle stopAfter x (early ++ late) z := by
  induction h with
  | refl x => exact h'
  | emit store e he hstore _ ih => exact .emit store e he hstore (ih h')
  | pass e htrace he _ ih => exact .pass e htrace he (ih h')
  | output v _ ih => exact .output v (ih h')
  | silent hs _ ih => exact .silent hs (ih h')

theorem tell {e : Event} (he : e.isTrace = false)
    (h : Chronicle stopAfter (outputs, s.emit e) notes y) :
    Chronicle stopAfter (outputs, s) (s.note (.event e) :: notes) y := by
  refine .emit s.store e (fun htrace => ?_) (fun _ => rfl) h
  rw [he] at htrace
  cases htrace

theorem change {store : Store} {e : Event} (he : e.isChange = true)
    (h : Chronicle stopAfter (outputs, { s with store }.emit e) notes y) :
    Chronicle stopAfter (outputs, s) (s.note (.event e) :: notes) y := by
  refine .emit store e (fun htrace => ?_) (fun hstore => ?_) h
  · cases e with
    | started kind p => cases he
    | _ => cases htrace
  · rw [he] at hstore
    cases hstore

theorem still {t : Session} (h : s.Abreast t) :
    Chronicle stopAfter (outputs, s) [] (outputs, t) := .silent h (.refl _)

theorem record (s : Session) (d : Diagnostic) :
    Chronicle stopAfter (outputs, s) [s.note (.event (.recorded d))] (outputs, s.record d) :=
  .tell rfl (.still ⟨rfl, rfl, rfl, rfl, rfl⟩)

theorem announce (s : Session) {kind : Stmt.Kind} {p : Position} {t : Session}
    (h : (Action.announce kind p s).session? = some t) :
    Chronicle stopAfter (outputs, s) [s.note (.event (.started kind p))] (outputs, t) := by
  simp only [Action.announce, Action.bind_apply, Action.settings] at h
  cases htrace : s.settings.trace with
  | true =>
    rw [htrace] at h
    cases h
    exact .emit s.store _ (fun _ => htrace) (fun _ => rfl) (.refl _)
  | false =>
    rw [htrace] at h
    cases h
    exact .pass _ htrace rfl (.refl _)

theorem toList_events (h : Chronicle stopAfter x notes y) :
    y.2.events.toList = x.2.events.toList ++ shown x.2.settings.trace notes := by
  induction h with
  | refl x => simp [shown]
  | @emit outputs s y notes store e he _ _ ih =>
    have hshown : (s.settings.trace || !e.isTrace) = true := by
      cases htrace : e.isTrace with
      | true => rw [he htrace]; rfl
      | false => exact Bool.or_true _
    have hfirst : (s.note (.event e)).shown? s.settings.trace = some e := by
      simp [Session.note, Note.shown?, Note.event?, hshown]
    rw [ih, Session.toList_events_emit, shown, shown, List.filterMap_cons_some hfirst,
      List.append_assoc]
    rfl
  | @pass outputs s y notes e htrace he _ ih =>
    have hfirst : (s.note (.event e)).shown? s.settings.trace = none := by
      simp [Session.note, Note.shown?, Note.event?, htrace, he]
    rw [ih, shown, shown, List.filterMap_cons_none hfirst]
  | @output outputs s y notes v _ ih =>
    rw [ih]
    obtain h | h := Stmt.session_handOver stopAfter outputs s (some v) <;> rw [h] <;> rfl
  | silent hs _ ih => rw [ih, hs.events, hs.settings]

theorem toList_outputs (h : Chronicle stopAfter x notes y) :
    y.1.toList = x.1.toList ++ handed notes := by
  induction h with
  | refl x => simp [handed]
  | output v _ ih => simp [ih, handed, Session.note, Note.output?, Stmt.handOver]
  | emit _ _ _ _ _ ih => exact ih
  | pass _ _ _ _ ih => exact ih
  | silent _ _ ih => exact ih

theorem first {n : Note} (h : Chronicle stopAfter x (n :: notes) y) :
    ∃ z, Chronicle stopAfter x [n] z ∧ Chronicle stopAfter z notes y := by
  generalize hall : n :: notes = all at h
  induction h with
  | refl x => cases hall
  | emit store e he hstore hrest _ =>
    cases hall
    exact ⟨_, .emit store e he hstore (.refl _), hrest⟩
  | pass e htrace he hrest _ =>
    cases hall
    exact ⟨_, .pass e htrace he (.refl _), hrest⟩
  | output v hrest _ =>
    cases hall
    exact ⟨_, .output v (.refl _), hrest⟩
  | silent hs _ ih =>
    obtain ⟨z, hz, hrest⟩ := ih hall
    exact ⟨z, .silent hs hz, hrest⟩

theorem split {early late : List Note} (h : Chronicle stopAfter x (early ++ late) y) :
    ∃ z, Chronicle stopAfter x early z ∧ Chronicle stopAfter z late y := by
  induction early generalizing x with
  | nil => exact ⟨x, .refl x, h⟩
  | cons n early ih =>
    obtain ⟨u, hn, hrest⟩ := h.first
    obtain ⟨z, hearly, hlate⟩ := ih hrest
    exact ⟨z, hn.trans hearly, hlate⟩

end Chronicle

namespace Journaled

def Follows (x : Journaled α) (y : Action α) : Prop :=
  ∀ s, (x s).1 = y s ∧ ∀ t, (y s).session? = some t →
    ∀ stopAfter outputs, Chronicle stopAfter (outputs, s) (x s).2 (outputs, t)

theorem Follows.bind {x : Journaled α} {y : Action α} {f : α → Journaled β} {g : α → Action β}
    (hx : Follows x y) (hf : ∀ a, Follows (f a) (g a)) : Follows (x >>= f) (y >>= g) := by
  intro s
  obtain ⟨hsame, hnotes⟩ := hx s
  simp only [Action.bind_apply, ← hsame] at hnotes ⊢
  simp only [Bind.bind]
  generalize x s = run at hnotes ⊢
  obtain ⟨outcome, early⟩ := run
  cases outcome with
  | done a t =>
    obtain ⟨hsame', hnotes'⟩ := hf a t
    exact ⟨hsame', fun u hu stopAfter outputs =>
      (hnotes t rfl stopAfter outputs).trans (hnotes' u hu stopAfter outputs)⟩
  | halted fault t => exact ⟨rfl, hnotes⟩
  | unfinished => exact ⟨rfl, hnotes⟩

theorem Follows.nested {x : Journaled α} {y : Action α} (h : Follows x y) :
    Follows (Machine.nested x) (Machine.nested y) := by
  intro s
  have hxy : (fun s => (x s).1) = y := funext fun s => (h s).1
  obtain ⟨-, hnotes⟩ := h { s with depth := s.depth + 1 }
  simp only [Machine.nested, hxy, true_and]
  intro t ht stopAfter outputs
  obtain ⟨hdeep, rfl⟩ | ⟨hroom, u, hu, rfl⟩ := Action.session?_nested ht
  · rw [if_pos hdeep]
    exact .refl _
  · rw [if_neg hroom]
    have hleave : Chronicle stopAfter (outputs, u) [] (outputs, Action.leave u) :=
      .still ⟨rfl, rfl, rfl, rfl, rfl⟩
    have hin := (hnotes u hu stopAfter outputs).trans hleave
    rw [List.append_nil] at hin
    have henter : s.Abreast { s with depth := s.depth + 1 } := ⟨rfl, rfl, rfl, rfl, rfl⟩
    exact .silent henter hin

theorem Follows.quiet {x : Action α} (h : x.Quiet) : Follows (perform x) x := by
  refine fun s => ⟨rfl, fun t ht stopAfter outputs => ?_⟩
  show Chronicle stopAfter (outputs, s) (x.notes s) (outputs, t)
  cases h with
  | halt fault =>
    rw [Action.notes_halt]
    cases ht
    exact .refl _
  | giveUp => cases ht
  | checkInterrupt =>
    rw [Action.notes_checkInterrupt]
    simp only [Action.checkInterrupt] at ht
    split at ht <;> (cases ht; exact .refl _)
  | lookup name =>
    rw [Action.notes_lookup]
    cases ht
    exact .refl _
  | operate op l r =>
    rw [Action.notes_operate]
    cases ht
    exact .refl _
  | announce kind p =>
    rw [Action.notes_announce]
    exact .announce s ht
  | declare name ty =>
    rw [Action.declare_apply] at ht
    rw [Action.notes_declare]
    cases hs : s.store.declare name ty with
    | ok extended =>
      rw [hs] at ht
      cases ht
      exact .change rfl (.refl _)
    | error fault =>
      rw [hs] at ht
      cases ht
      exact .refl _
  | assign name value =>
    rw [Action.assign_apply] at ht
    rw [Action.notes_assign]
    cases hs : s.store.assign name value with
    | ok r =>
      rw [hs] at ht
      cases ht
      exact .change rfl (.refl _)
    | error fault =>
      rw [hs] at ht
      cases ht
      exact .refl _
  | whileFinished count =>
    rw [Action.notes_emit]
    cases ht
    exact .tell rfl (.refl _)
  | doWhileFinished count =>
    rw [Action.notes_emit]
    cases ht
    exact .tell rfl (.refl _)

def following : Simulation Journaled Action where
  Rel := Follows
  pure a := fun s => ⟨rfl, fun t ht _ _ => by
    cases ht
    exact .refl _⟩
  bind := Follows.bind
  nested := Follows.nested
  quiet := Follows.quiet
  report p fault := fun s => ⟨rfl, fun t ht _ _ => by
    cases ht
    exact .record s ⟨p, fault⟩⟩

end Journaled

/-! No statement starts late, and what changes a variable or is handed over is the work of the
statement that started last. -/

namespace Note

/-- The kind of the statement at work after the note, where it was `last` before. A statement that
has handed its value over is at its end. -/
def next (last : Option Stmt.Kind) (n : Note) : Option Stmt.Kind :=
  match n.what with
  | .event (.started kind _) => some kind
  | .event _ => last
  | .output _ => none

def fits (last : Option Stmt.Kind) (n : Note) : Bool :=
  match n.what with
  | .event (.started ..) => !n.late
  | .event (.declared ..) => last == some .declare
  | .event (.assigned ..) => last == some .assign
  | .event _ => true
  | .output _ => last == some .expr

def isStart (n : Note) : Bool := n.event?.any Event.isTrace

/-- A statement starts here, changes a variable or hands its value over. -/
def isWork (n : Note) : Bool :=
  match n.what with
  | .event e => e.isTrace || e.isChange
  | .output _ => true

theorem isStart_of_fits {last : Option Stmt.Kind} {n : Note} (hlate : n.late = true)
    (h : n.fits last = true) : n.isStart = false := by
  obtain ⟨what, late⟩ := n
  cases what with
  | output v => rfl
  | event e =>
    cases e with
    | started kind p => simp [fits, show late = true from hlate] at h
    | _ => rfl

theorem isWork_of_fits {n : Note} (hlate : n.late = true) (h : n.fits none = true) :
    n.isWork = false ∧ n.next none = none := by
  obtain ⟨what, late⟩ := n
  cases what with
  | output v => cases h
  | event e =>
    cases e with
    | started kind p => simp [fits, show late = true from hlate] at h
    | declared name ty => cases h
    | assigned name value => cases h
    | _ => exact ⟨rfl, rfl⟩

end Note

def isOrderly (last : Option Stmt.Kind) : List Note → Bool
  | [] => true
  | n :: rest => n.fits last && isOrderly (n.next last) rest

theorem isOrderly_append (last : Option Stmt.Kind) (early late : List Note) :
    isOrderly last (early ++ late) =
      (isOrderly last early && isOrderly (early.foldl Note.next last) late) := by
  induction early generalizing last with
  | nil => rfl
  | cons n rest ih => simp only [List.cons_append, isOrderly, ih, Bool.and_assoc, List.foldl_cons]

theorem isOrderly_after {last : Option Stmt.Kind} {early after : List Note} {n : Note}
    (h : isOrderly last (early ++ n :: after) = true) :
    isOrderly (n.next (early.foldl Note.next last)) after = true := by
  rw [isOrderly_append, isOrderly, Bool.and_eq_true, Bool.and_eq_true] at h
  exact h.2.2

theorem isStart_of_late {last : Option Stmt.Kind} {notes : List Note}
    (h : isOrderly last notes = true) (hlate : ∀ n ∈ notes, n.late = true) :
    ∀ n ∈ notes, n.isStart = false := by
  induction notes generalizing last with
  | nil => exact fun n hn => absurd hn List.not_mem_nil
  | cons n rest ih =>
    rw [isOrderly, Bool.and_eq_true] at h
    obtain ⟨hn, hrest⟩ := List.forall_mem_cons.mp hlate
    exact List.forall_mem_cons.mpr ⟨Note.isStart_of_fits hn h.1, ih h.2 hrest⟩

/-- Where no statement is at work, late notes have none of the work of one. -/
theorem isWork_of_late {notes : List Note} (h : isOrderly none notes = true)
    (hlate : ∀ n ∈ notes, n.late = true) : ∀ n ∈ notes, n.isWork = false := by
  induction notes with
  | nil => exact fun n hn => absurd hn List.not_mem_nil
  | cons n rest ih =>
    rw [isOrderly, Bool.and_eq_true] at h
    obtain ⟨hn, hrest⟩ := List.forall_mem_cons.mp hlate
    obtain ⟨hwork, hnext⟩ := Note.isWork_of_fits hn h.1
    exact List.forall_mem_cons.mpr ⟨hwork, ih (hnext ▸ h.2) hrest⟩

theorem isOrderly_then {last : Option Stmt.Kind} {early late : List Note}
    (hearly : isOrderly last early = true) (hlate : ∀ last, isOrderly last late = true) :
    isOrderly last (early ++ late) = true := by
  rw [isOrderly_append, hearly, hlate]
  rfl

namespace Journaled

theorem notes_bind_done {x : Journaled α} {f : α → Journaled β} {s t : Session} {a : α}
    (h : (x s).1 = .done a t) : ((x >>= f) s).2 = (x s).2 ++ (f a t).2 := by
  simp only [Bind.bind]
  generalize x s = run at h ⊢
  obtain ⟨outcome, early⟩ := run
  cases h
  rfl

theorem notes_bind (x : Journaled α) (f : α → Journaled β) (s : Session) :
    ((x >>= f) s).2 = (x s).2 ∨ ∃ a t, ((x >>= f) s).2 = (x s).2 ++ (f a t).2 := by
  cases h : (x s).1 with
  | done a t => exact .inr ⟨a, t, notes_bind_done h⟩
  | halted fault t =>
    refine .inl ?_
    simp only [Bind.bind]
    split <;> simp_all
  | unfinished =>
    refine .inl ?_
    simp only [Bind.bind]
    split <;> simp_all

def Orderly (x : Journaled α) : Prop := ∀ s last, isOrderly last (x s).2 = true

theorem Orderly.bind {x : Journaled α} {f : α → Journaled β} (hx : Orderly x)
    (hf : ∀ a, Orderly (f a)) : Orderly (x >>= f) := by
  intro s last
  obtain h | ⟨a, t, h⟩ := notes_bind x f s
  · rw [h]
    exact hx s last
  · rw [h]
    exact isOrderly_then (hx s last) (hf a t)

/-- While a statement of the kind is at work, all that the execution does fits, and it stays at
work. -/
def Works (last : Option Stmt.Kind) (x : Journaled α) : Prop :=
  ∀ s, ∀ n ∈ (x s).2, n.next last = last ∧ n.fits last = true

theorem Works.orderly {last : Option Stmt.Kind} {x : Journaled α} (h : Works last x) (s : Session) :
    isOrderly last (x s).2 = true := by
  have hall := h s
  generalize (x s).2 = notes at hall
  induction notes with
  | nil => rfl
  | cons n rest ih =>
    obtain ⟨hnext, hfits⟩ := hall n List.mem_cons_self
    simp only [isOrderly, hnext, hfits, Bool.true_and]
    exact ih fun m hm => hall m (List.mem_cons_of_mem n hm)

theorem Works.foldl_next {last : Option Stmt.Kind} {x : Journaled α} (h : Works last x)
    (s : Session) : (x s).2.foldl Note.next last = last := by
  have hall := h s
  generalize (x s).2 = notes at hall
  induction notes with
  | nil => rfl
  | cons n rest ih =>
    rw [List.foldl_cons, (hall n List.mem_cons_self).1]
    exact ih fun m hm => hall m (List.mem_cons_of_mem n hm)

theorem Works.pure (last : Option Stmt.Kind) (a : α) : Works last (pure a) := by
  intro s n hn
  cases hn

theorem Works.bind {last : Option Stmt.Kind} {x : Journaled α} {f : α → Journaled β}
    (hx : Works last x) (hf : ∀ a, Works last (f a)) : Works last (x >>= f) := by
  intro s n hn
  obtain h | ⟨a, t, h⟩ := notes_bind x f s
  · rw [h] at hn
    exact hx s n hn
  · rw [h] at hn
    exact (List.mem_append.mp hn).elim (hx s n) (hf a t n)

theorem Works.nested {last : Option Stmt.Kind} {x : Journaled α} (h : Works last x) :
    Works last (Machine.nested x) := by
  intro s n hn
  simp only [Machine.nested] at hn
  by_cases hdeep : s.settings.maxDepth ≤ s.depth
  · rw [if_pos hdeep] at hn
    cases hn
  · rw [if_neg hdeep] at hn
    exact h _ n hn

theorem Works.report (last : Option Stmt.Kind) (p : Position) (fault : Fault) :
    Works last (Machine.report p fault) := by
  intro s n hn
  cases List.mem_singleton.mp hn
  exact ⟨rfl, rfl⟩

theorem Works.perform {last : Option Stmt.Kind} {x : Action α} (h : ∀ s, x.notes s = []) :
    Works last (Machine.perform x) := by
  intro s n hn
  have hnotes : ((Machine.perform x : Journaled α) s).2 = [] := h s
  rw [hnotes] at hn
  cases hn

def evaluating (last : Option Stmt.Kind) : Evaluation Journaled Journaled where
  Rel x _ := Works last x
  pure a := Works.pure last a
  bind := Works.bind
  nested := Works.nested
  halt fault := Works.perform (Action.notes_halt fault)
  lookup name := Works.perform (Action.notes_lookup name)
  operate op l r := Works.perform (Action.notes_operate op l r)
  report := Works.report last

theorem Works.declareAll (ty : Ty) (names : List Ident) :
    Works (some .declare) (Machine.declareAll ty names) := by
  induction names with
  | nil => exact Works.pure (some .declare) ()
  | cons x rest ih =>
    have hdeclare : Works (some .declare) (Machine.perform (Action.declare x.name ty)) := by
      intro s n hn
      have hn : n ∈ (Action.declare x.name ty).notes s := hn
      rw [Action.notes_declare] at hn
      split at hn
      · cases List.mem_singleton.mp hn
        exact ⟨rfl, rfl⟩
      · cases hn
    refine hdeclare.bind fun r => ?_
    cases r with
    | ok u => exact ih
    | error fault => exact (Works.report (some .declare) x.position fault).bind fun _ => ih

theorem Works.assignTo (target : Ident) (value : Value) :
    Works (some .assign) (Machine.assignTo target value) := by
  have hassign : Works (some .assign) (Machine.perform (Action.assign target.name value)) := by
    intro s n hn
    have hn : n ∈ (Action.assign target.name value).notes s := hn
    rw [Action.notes_assign] at hn
    split at hn
    · cases List.mem_singleton.mp hn
      exact ⟨rfl, rfl⟩
    · cases hn
  refine hassign.bind fun r => ?_
  cases r with
  | ok stored => exact Works.pure (some .assign) (some stored)
  | error fault =>
    exact (Works.report (some .assign) target.position fault).bind fun _ =>
      Works.pure (some .assign) none

theorem notes_announce_bind (kind : Stmt.Kind) (p : Position) (work : Journaled (Option Value))
    {s : Session} (hflag : s.interrupted = false) :
    ∃ t, ((do perform (Action.announce kind p); work : Journaled (Option Value)) s).2 =
      ⟨.event (.started kind p), false⟩ :: (work t).2 := by
  have hdone : ∃ t, Action.announce kind p s = .done () t := by
    simp only [Action.announce, Action.bind_apply, Action.settings]
    cases s.settings.trace <;> exact ⟨_, rfl⟩
  obtain ⟨t, ht⟩ := hdone
  have hstart : ((perform (Action.announce kind p) : Journaled Unit) s).1 = .done () t := ht
  have hnotes := Action.notes_announce kind p s
  rw [Session.note, hflag] at hnotes
  exact ⟨t, (notes_bind_done hstart).trans (congrArg (· ++ (work t).2) hnotes)⟩

/-- A statement that is asked to stop, or has no level left, is halted and leaves nothing in the
journal; any other starts before the flag is up. -/
theorem notes_begin (kind : Stmt.Kind) (p : Position) (work : Journaled (Option Value))
    (s : Session) :
    (∃ fault, begin kind p work s = (.halted fault s, [])) ∨
      ∃ t, (begin kind p work s).2 = ⟨.event (.started kind p), false⟩ :: (work t).2 := by
  have hcheck : ((perform Action.checkInterrupt : Journaled Unit) s).2 = [] :=
    Action.notes_checkInterrupt s
  by_cases hflag : s.interrupted = true
  · have hhalt : Action.checkInterrupt s = .halted .interrupted s := if_pos hflag
    exact .inl ⟨.interrupted, by
      simp [begin, Bind.bind, perform, hhalt, Action.notes_checkInterrupt]⟩
  · have hgo : ((perform Action.checkInterrupt : Journaled Unit) s) = (.done () s, []) :=
      Prod.ext (if_neg hflag) hcheck
    by_cases hdeep : s.settings.maxDepth ≤ s.depth
    · refine .inl ⟨.nestingTooDeep (s.depth + 1) s.settings.maxDepth, ?_⟩
      simp only [begin, Bind.bind, hgo, Machine.nested, Action.nested, if_pos hdeep,
        List.append_nil]
    · obtain ⟨t, ht⟩ := notes_announce_bind kind p work (s := { s with depth := s.depth + 1 })
        (Bool.not_eq_true _ ▸ hflag)
      refine .inr ⟨t, ?_⟩
      rw [begin, notes_bind_done (congrArg Prod.fst hgo), hcheck, List.nil_append]
      exact (if_neg hdeep).trans ht

theorem orderly_begin {kind : Stmt.Kind} {p : Position} {work : Journaled (Option Value)}
    (h : ∀ s, isOrderly (some kind) (work s).2 = true) : Orderly (begin kind p work) := by
  intro s last
  obtain ⟨fault, hnone⟩ | ⟨t, hstart⟩ := notes_begin kind p work s
  · rw [hnone]
    rfl
  · rw [hstart]
    exact h t

theorem orderly_simple (turns : Nat) (stmt : Stmt) (h : stmt.kind.isSimple = true) :
    Orderly (stmt.execIn Journaled turns) := by
  cases stmt with
  | expr e =>
    have hwork := ((evaluating (some .expr)).eval e).bind fun v => Works.pure (some .expr) (some v)
    rw [Stmt.execIn]
    exact orderly_begin hwork.orderly
  | declare ty names p =>
    cases ty with
    | none =>
      have hwork : Works (some .declare) (Machine.perform (Action.halt (.missingType p)) :
          Journaled (Option Value)) := Works.perform (Action.notes_halt _)
      rw [Stmt.execIn]
      exact orderly_begin hwork.orderly
    | some ty =>
      have hwork := (Works.declareAll ty names).bind fun _ =>
        Works.pure (some .declare) (none : Option Value)
      rw [Stmt.execIn]
      exact orderly_begin hwork.orderly
  | assign target e =>
    have hwork := ((evaluating (some .assign)).eval e).bind fun v => Works.assignTo target v
    rw [Stmt.execIn]
    exact orderly_begin hwork.orderly
  | empty p =>
    have hwork := Works.pure (some .empty) (none : Option Value)
    rw [Stmt.execIn]
    exact orderly_begin hwork.orderly
  | _ => cases h

theorem orderly_emit {e : Event} (h : ∀ last s, isOrderly last [Session.note s (.event e)] = true) :
    Orderly (perform (Action.emit e)) := by
  intro s last
  have hnotes : ((perform (Action.emit e) : Journaled Unit) s).2 = [s.note (.event e)] :=
    Action.notes_emit e s
  rw [hnotes]
  exact h last s

def ordering : Composition Journaled Journaled where
  Rel x _ := Orderly x
  pure _ := fun _ _ => rfl
  bind := Orderly.bind
  giveUp := fun _ _ => rfl
  checkInterrupt := fun s _ => (Works.perform Action.notes_checkInterrupt).orderly s
  whileFinished _ := orderly_emit fun _ _ => rfl
  doWhileFinished _ := orderly_emit fun _ _ => rfl
  test e := fun s last => Works.orderly ((evaluating last).test e) s
  simple := orderly_simple
  compound kind _ _ _ _ h := orderly_begin fun s => h s (some kind)

end Journaled

/-! Journals of runs. -/

namespace Stmt

def outputNotes (s : Session) (value : Option Value) : List Note :=
  (value.map fun v => s.note (.output v)).toList

def feedJournaled (turns : Nat) (stopAfter : Option Nat) (outputs : Array Value) :
    List Stmt → Session → Run × List Note
  | [], s => (⟨outputs, .done () s⟩, [])
  | stmt :: rest, s =>
    match stmt.execIn Journaled turns s with
    | (.done value s', early) =>
      let next := handOver stopAfter outputs s' (stmt.output? value)
      let late := feedJournaled turns stopAfter next.1 rest next.2
      (late.1, early ++ outputNotes s' (stmt.output? value) ++ late.2)
    | (.halted fault s', early) => (⟨outputs, .halted fault s'⟩, early)
    | (.unfinished, early) => (⟨outputs, .unfinished⟩, early)

theorem chronicle_handOver (stopAfter : Option Nat) (outputs : Array Value) (s : Session)
    (value : Option Value) :
    Chronicle stopAfter (outputs, s) (outputNotes s value)
      (handOver stopAfter outputs s value) := by
  cases value with
  | none => exact .refl _
  | some v => exact .output v (.refl _)

theorem feedJournaled_follows (turns : Nat) (stopAfter : Option Nat) (stmts : List Stmt)
    (outputs : Array Value) (s : Session) :
    (feedJournaled turns stopAfter outputs stmts s).1 = feed turns stopAfter outputs stmts s ∧
      ∀ t, (feed turns stopAfter outputs stmts s).outcome.session? = some t →
        Chronicle stopAfter (outputs, s) (feedJournaled turns stopAfter outputs stmts s).2
          ((feed turns stopAfter outputs stmts s).outputs, t) := by
  induction stmts generalizing outputs s with
  | nil =>
    refine ⟨rfl, fun t ht => ?_⟩
    cases ht
    exact .refl _
  | cons stmt rest ih =>
    obtain ⟨hsame, hnotes⟩ := Journaled.following.exec turns stmt s
    rw [execIn_action] at hsame hnotes
    rw [feed_cons, feedJournaled, ← hsame]
    rw [← hsame] at hnotes
    generalize stmt.execIn Journaled turns s = run at hnotes ⊢
    obtain ⟨outcome, early⟩ := run
    cases outcome with
    | done value u =>
      obtain ⟨hrest, hlate⟩ := ih (handOver stopAfter outputs u (stmt.output? value)).1
        (handOver stopAfter outputs u (stmt.output? value)).2
      have hhand := chronicle_handOver stopAfter outputs u (stmt.output? value)
      exact ⟨hrest, fun t ht =>
        ((hnotes u rfl stopAfter outputs).trans hhand).trans (hlate t ht)⟩
    | halted fault u => exact ⟨rfl, fun t ht => hnotes t ht stopAfter outputs⟩
    | unfinished => exact ⟨rfl, fun t ht => hnotes t ht stopAfter outputs⟩

/-- A value is handed over by an expression that has just been at work. -/
theorem isOrderly_output {turns : Nat} {stmt : Stmt} {s t : Session} {value : Option Value}
    {early : List Note} (h : stmt.execIn Journaled turns s = (.done value t, early))
    (last : Option Kind) :
    isOrderly last (early ++ outputNotes t (stmt.output? value)) = true := by
  have hfirst : isOrderly last early = true := by
    have horderly := Journaled.ordering.exec turns stmt s last
    rwa [h] at horderly
  cases stmt with
  | expr e =>
    have hwork := ((Journaled.evaluating (some .expr)).eval e).bind fun v =>
      Journaled.Works.pure (some .expr) (some v)
    rw [execIn] at h
    obtain ⟨fault, hnone⟩ | ⟨u, hstart⟩ := Journaled.notes_begin _ _ _ s
    · rw [hnone] at h
      cases h
    · rw [h] at hstart
      have hlast : early.foldl Note.next last = some .expr := by
        rw [show early = _ from hstart]
        exact hwork.foldl_next u
      rw [isOrderly_append, hfirst, hlast]
      cases value <;> rfl
  | _ => simpa [output?, outputNotes] using hfirst

theorem isOrderly_feedJournaled (turns : Nat) (stopAfter : Option Nat) (stmts : List Stmt)
    (outputs : Array Value) (s : Session) (last : Option Kind) :
    isOrderly last (feedJournaled turns stopAfter outputs stmts s).2 = true := by
  induction stmts generalizing outputs s last with
  | nil => rfl
  | cons stmt rest ih =>
    have hfirst := Journaled.ordering.exec turns stmt s last
    rw [feedJournaled]
    generalize hrun : stmt.execIn Journaled turns s = run at hfirst ⊢
    obtain ⟨outcome, early⟩ := run
    cases outcome with
    | done value u => exact isOrderly_then (isOrderly_output hrun last) (ih _ _)
    | halted fault u => exact hfirst
    | unfinished => exact hfirst

end Stmt

namespace Program

def runJournaled (turns : Nat) (stopAfter : Option Nat) (p : Program) (s : Session) :
    Run × List Note :=
  let start := s.note (.event (.runStarted p.stmts.length))
  let (run, notes) :=
    Stmt.feedJournaled turns stopAfter #[] p.stmts (s.emit (.runStarted p.stmts.length))
  match run.outcome with
  | .done _ s' =>
    let finish := Event.runFinished s'.diagnostics.size
    (⟨run.outputs, .done () (s'.emit finish)⟩, start :: (notes ++ [s'.note (.event finish)]))
  | _ => (run, start :: notes)

theorem runJournaled_follows (turns : Nat) (stopAfter : Option Nat) (p : Program) (s : Session) :
    (p.runJournaled turns stopAfter s).1 = p.runWith turns stopAfter s ∧
      ∀ t, (p.runWith turns stopAfter s).outcome.session? = some t →
        Chronicle stopAfter (#[], s) (p.runJournaled turns stopAfter s).2
          ((p.runWith turns stopAfter s).outputs, t) := by
  obtain ⟨hsame, hnotes⟩ := Stmt.feedJournaled_follows turns stopAfter p.stmts #[]
    (s.emit (.runStarted p.stmts.length))
  rw [runJournaled, runWith, ← hsame]
  rw [← hsame] at hnotes
  generalize Stmt.feedJournaled turns stopAfter #[] p.stmts
    (s.emit (.runStarted p.stmts.length)) = run at hnotes ⊢
  obtain ⟨⟨outputs, outcome⟩, notes⟩ := run
  cases outcome with
  | done a u =>
    refine ⟨rfl, fun t ht => ?_⟩
    cases ht
    exact .tell rfl ((hnotes u rfl).trans (.tell rfl (.refl _)))
  | halted fault u => exact ⟨rfl, fun t ht => .tell rfl (hnotes t ht)⟩
  | unfinished => exact ⟨rfl, fun t ht => .tell rfl (hnotes t ht)⟩

theorem isOrderly_runJournaled (turns : Nat) (stopAfter : Option Nat) (p : Program) (s : Session) :
    isOrderly none (p.runJournaled turns stopAfter s).2 = true := by
  have hfeed := Stmt.isOrderly_feedJournaled turns stopAfter p.stmts #[]
    (s.emit (.runStarted p.stmts.length)) none
  rw [runJournaled]
  generalize Stmt.feedJournaled turns stopAfter #[] p.stmts
    (s.emit (.runStarted p.stmts.length)) = run at hfeed ⊢
  obtain ⟨⟨outputs, outcome⟩, notes⟩ := run
  cases outcome with
  | done a u => exact isOrderly_then hfeed fun _ => rfl
  | halted fault u => exact hfeed
  | unfinished => exact hfeed

end Program

end TolerantScript
