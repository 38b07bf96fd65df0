import TolerantScript.Proofs.Agreement
import TolerantScript.Proofs.FatalFault
import TolerantScript.Proofs.Simulation

/-!
Evaluation as a question put to a session. What an expression comes to, and what is recorded on the
way there, can be told without a change to anything: it hangs on the limits and on the values of the
variables mentioned alone. All that an evaluation does to its session is to record that.
-/

namespace TolerantScript

open Machine

variable {α β : Type}

/-! Sessions that only record. -/

namespace Session

def recordAll (s : Session) (ds : List Diagnostic) : Session := ds.foldl record s

/-- The other session is this one with the diagnostics announced and appended, and nothing else. -/
structure Gains (s : Session) (added : List Diagnostic) (t : Session) : Prop where
  store : t.store = s.store
  settings : t.settings = s.settings
  depth : t.depth = s.depth
  stopAt : t.stopAt = s.stopAt
  interrupted : t.interrupted = true ↔ s.Raised t
  diagnostics : t.diagnostics.toList = s.diagnostics.toList ++ added
  events : t.events.toList = s.events.toList ++ added.map .recorded

theorem recordAll_append (s : Session) (ds es : List Diagnostic) :
    s.recordAll (ds ++ es) = (s.recordAll ds).recordAll es :=
  List.foldl_append

theorem Gains.refl (s : Session) : s.Gains [] s where
  store := rfl
  settings := rfl
  depth := rfl
  stopAt := rfl
  interrupted := by
    refine ⟨.inl, ?_⟩
    rintro (h | ⟨n, -, hlt, hle⟩)
    · exact h
    · omega
  diagnostics := (List.append_nil _).symm
  events := (List.append_nil _).symm

theorem Gains.record {s t : Session} {added : List Diagnostic} (h : s.Gains added t)
    (d : Diagnostic) : s.Gains (added ++ [d]) (t.record d) where
  store := h.store
  settings := h.settings
  depth := h.depth
  stopAt := h.stopAt
  interrupted := by
    have hsize : s.events.size ≤ t.events.size := by
      have := congrArg List.length h.events
      simp only [List.length_append, Array.length_toList] at this
      omega
    have hraised : s.Raised (t.record d) ↔ s.Raised (t.emit (.recorded d)) := Iff.rfl
    rw [hraised, raised_emit hsize, ← h.interrupted, ← h.stopAt]
    simp [Session.record, emit]
  diagnostics := by rw [toList_diagnostics_record, h.diagnostics, List.append_assoc]
  events := by rw [toList_events_record, h.events, List.map_append, List.append_assoc]; rfl

theorem Gains.recordAll {s t : Session} {added : List Diagnostic} (h : s.Gains added t)
    (ds : List Diagnostic) : s.Gains (added ++ ds) (t.recordAll ds) := by
  induction ds generalizing added t with
  | nil =>
    rw [List.append_nil]
    exact h
  | cons d ds ih =>
    have hrest := ih (h.record d)
    rw [List.append_assoc] at hrest
    exact hrest

theorem gains_recordAll (s : Session) (ds : List Diagnostic) : s.Gains ds (s.recordAll ds) :=
  (Gains.refl s).recordAll ds

theorem leave_recordAll (s : Session) (ds : List Diagnostic) :
    Action.leave ({ s with depth := s.depth + 1 }.recordAll ds) = s.recordAll ds := by
  induction ds generalizing s with
  | nil => rfl
  | cons d ds ih => exact ih (s.record d)

end Session

/-! Questions. -/

/-- What an action says at its end, apart from the session that it leaves. -/
def Outcome.reply? : Outcome α → Option (Except Fault α)
  | .done a _ => some (.ok a)
  | .halted fault _ => some (.error fault)
  | .unfinished => none

def Outcome.ofReply : Except Fault α → Session → Outcome α
  | .ok a, s => .done a s
  | .error fault, s => .halted fault s

/-- Execution that leaves the session as it is, and tells the diagnostics instead of recording
them. -/
def Query (α : Type) : Type := Session → Option (Except Fault α × List Diagnostic)

instance : Machine Query where
  pure a := fun _ => some (.ok a, [])
  bind x f := fun s =>
    match x s with
    | some (.ok a, early) => (f a s).map fun (reply, late) => (reply, early ++ late)
    | some (.error fault, early) => some (.error fault, early)
    | none => none
  perform x := fun s => (x s).reply?.map (·, [])
  report position fault := fun _ => some (.ok (), [⟨position, fault⟩])
  nested x := fun s =>
    if s.settings.maxDepth ≤ s.depth then
      some (.error (.nestingTooDeep (s.depth + 1) s.settings.maxDepth), [])
    else x { s with depth := s.depth + 1 }

namespace Query

theorem bind_ok {x : Query α} {f : α → Query β} {s : Session} {a : α} {early : List Diagnostic}
    (h : x s = some (.ok a, early)) :
    (x >>= f) s = (f a s).map fun (reply, late) => (reply, early ++ late) := by
  simp only [Bind.bind, h]

theorem bind_error {x : Query α} {f : α → Query β} {s : Session} {fault : Fault}
    {early : List Diagnostic} (h : x s = some (.error fault, early)) :
    (x >>= f) s = some (.error fault, early) := by
  simp only [Bind.bind, h]

theorem bind_none {x : Query α} (f : α → Query β) {s : Session} (h : x s = none) :
    (x >>= f) s = none := by
  simp only [Bind.bind, h]

/-- An answer to two questions in a row comes from the first, if that ends in a fault, or from
both. -/
theorem bind_eq_some {x : Query α} {f : α → Query β} {s : Session} {reply : Except Fault β}
    {ds : List Diagnostic} (h : (x >>= f) s = some (reply, ds)) :
    (∃ fault, x s = some (.error fault, ds)) ∨
      ∃ a early late, x s = some (.ok a, early) ∧ f a s = some (reply, late) ∧
        ds = early ++ late := by
  cases hx : x s with
  | none =>
    rw [bind_none f hx] at h
    cases h
  | some answer =>
    obtain ⟨first, early⟩ := answer
    cases first with
    | error fault =>
      rw [bind_error hx] at h
      cases h
      exact .inl ⟨fault, rfl⟩
    | ok a =>
      rw [bind_ok hx] at h
      obtain ⟨⟨last, late⟩, hlast, heq⟩ := Option.map_eq_some_iff.mp h
      cases heq
      exact .inr ⟨a, early, late, rfl, hlast, rfl⟩

theorem recover_apply (p : Position) (fallback : Value) (r : Except Fault Value) (s s' : Session) :
    (recover p fallback r : Query Value) s = (recover p fallback r : Query Value) s' := by
  cases r with
  | ok v => rfl
  | error fault =>
    simp only [recover]
    cases fault.isFatal <;> rfl

/-- Asking is doing: the action ends with the reply to the question, and records what it tells.
Nothing that is recorded makes a difference to the question. -/
def Tells (x : Query α) (y : Action α) : Prop :=
  ∀ s, (∀ d, x (s.record d) = x s) ∧
    ∃ reply ds, x s = some (reply, ds) ∧ y s = .ofReply reply (s.recordAll ds)

theorem Tells.recordAll {x : Query α} {y : Action α} (h : Tells x y) (s : Session)
    (ds : List Diagnostic) : x (s.recordAll ds) = x s := by
  induction ds generalizing s with
  | nil => rfl
  | cons d ds ih => exact (ih (s.record d)).trans ((h s).1 d)

theorem Tells.bind {x : Query α} {y : Action α} {f : α → Query β} {g : α → Action β}
    (hx : Tells x y) (hf : ∀ a, Tells (f a) (g a)) : Tells (x >>= f) (y >>= g) := by
  intro s
  obtain ⟨hsame, reply, early, hreply, hend⟩ := hx s
  cases reply with
  | error fault =>
    refine ⟨fun d => ?_, .error fault, early, bind_error hreply, ?_⟩
    · rw [bind_error hreply, bind_error ((hsame d).trans hreply)]
    · rw [Action.bind_apply, hend]
      rfl
  | ok a =>
    obtain ⟨hsame', reply', late, hreply', -⟩ := hf a s
    refine ⟨fun d => ?_, reply', early ++ late, ?_, ?_⟩
    · rw [bind_ok hreply, bind_ok ((hsame d).trans hreply), hsame' d]
    · rw [bind_ok hreply, hreply']
      rfl
    · -- the second action starts where the first has recorded, to which its question is blind
      obtain ⟨-, reply'', late', hreply'', hend'⟩ := hf a (s.recordAll early)
      rw [(hf a).recordAll s early, hreply'] at hreply''
      cases hreply''
      rw [Action.bind_apply, hend, Session.recordAll_append]
      exact hend'

theorem Tells.nested {x : Query α} {y : Action α} (h : Tells x y) :
    Tells (nested x) (nested y) := by
  intro s
  by_cases hdeep : s.settings.maxDepth ≤ s.depth
  · have hquery (t : Session) (ht : t.settings = s.settings ∧ t.depth = s.depth) :
        (Machine.nested x : Query α) t =
          some (.error (.nestingTooDeep (s.depth + 1) s.settings.maxDepth), []) := by
      simp only [Machine.nested, ht.1, ht.2, if_pos hdeep]
    refine ⟨fun d => ?_, _, [], hquery s ⟨rfl, rfl⟩, ?_⟩
    · rw [hquery s ⟨rfl, rfl⟩, hquery (s.record d) ⟨rfl, rfl⟩]
    · simp only [Machine.nested, Action.nested, if_pos hdeep]
      rfl
  · obtain ⟨hsame, reply, ds, hreply, hend⟩ := h { s with depth := s.depth + 1 }
    have hquery : (Machine.nested x : Query α) s = x { s with depth := s.depth + 1 } := by
      simp only [Machine.nested, if_neg hdeep]
    refine ⟨fun d => ?_, reply, ds, hquery.trans hreply, ?_⟩
    · have hin : (Machine.nested x : Query α) (s.record d) =
          x { s.record d with depth := s.depth + 1 } := if_neg hdeep
      rw [hquery, hin]
      exact hsame d
    · have hleave := s.leave_recordAll ds
      simp only [Machine.nested, Action.nested, if_neg hdeep, hend]
      cases reply with
      | ok a => exact congrArg (Outcome.done a) hleave
      | error fault => exact congrArg (Outcome.halted fault) hleave

def telling : Evaluation Query Action where
  Rel := Tells
  pure a := fun _ => ⟨fun _ => rfl, .ok a, [], rfl, rfl⟩
  bind := Tells.bind
  nested := Tells.nested
  halt fault := fun _ => ⟨fun _ => rfl, .error fault, [], rfl, rfl⟩
  lookup name := fun s => ⟨fun _ => rfl, .ok (s.store.get name), [], rfl, rfl⟩
  operate op l r := fun s =>
    ⟨fun _ => rfl, .ok (op.apply s.settings.maxStringLen l r), [], rfl, rfl⟩
  report p fault := fun _ => ⟨fun _ => rfl, .ok (), [⟨p, fault⟩], rfl, rfl⟩

end Query

theorem Expr.eval_tells (e : Expr) : Query.Tells (e.evalIn Query) e.eval := by
  have h := Query.telling.eval e
  rw [evalIn_action] at h
  exact h

/-! What a question depends on. -/

/-- Two sessions with the same limits and depth, in which the known names stand for the same values
or for none. -/
structure Session.Alike (known : String → Prop) (s s' : Session) : Prop where
  maxDepth : s'.settings.maxDepth = s.settings.maxDepth
  maxStringLen : s'.settings.maxStringLen = s.settings.maxStringLen
  depth : s'.depth = s.depth
  get (name : String) : known name → s'.store.get name = s.store.get name

namespace Query

variable {known : String → Prop}

def Concurs (known : String → Prop) (Q : α → Prop) (x y : Query α) : Prop :=
  ∀ s s', Session.Alike known s s' → y s' = x s ∧ ∀ a ds, x s = some (.ok a, ds) → Q a

theorem Concurs.bind {x y : Query α} {f g : α → Query β} {P : α → Prop} {Q : β → Prop}
    (hx : Concurs known P x y) (hf : ∀ a, P a → Concurs known Q (f a) (g a)) :
    Concurs known Q (x >>= f) (y >>= g) := by
  intro s s' h
  obtain ⟨hsame, hP⟩ := hx s s' h
  cases hreply : x s with
  | none =>
    rw [bind_none f hreply, bind_none g (hsame.trans hreply)]
    exact ⟨rfl, by simp⟩
  | some answer =>
    obtain ⟨reply, early⟩ := answer
    cases reply with
    | error fault =>
      rw [bind_error hreply, bind_error (hsame.trans hreply)]
      exact ⟨rfl, by simp⟩
    | ok a =>
      obtain ⟨hsame', hQ⟩ := hf a (hP a early hreply) s s' h
      rw [bind_ok hreply, bind_ok (hsame.trans hreply), hsame']
      refine ⟨rfl, fun b ds hb => ?_⟩
      obtain ⟨⟨reply', late⟩, hreply', heq⟩ := Option.map_eq_some_iff.mp hb
      cases heq
      exact hQ b late hreply'

theorem Concurs.weaken {x y : Query α} {P Q : α → Prop} (hx : Concurs known P x y)
    (hPQ : ∀ a, P a → Q a) : Concurs known Q x y := by
  intro s s' h
  obtain ⟨hsame, hP⟩ := hx s s' h
  exact ⟨hsame, fun a ds ha => hPQ a (hP a ds ha)⟩

theorem Concurs.nested {x y : Query α} {Q : α → Prop} (hx : Concurs known Q x y) :
    Concurs known Q (nested x) (nested y) := by
  intro s s' h
  simp only [Machine.nested, h.maxDepth, h.depth]
  by_cases hdeep : s.settings.maxDepth ≤ s.depth
  · simp [hdeep]
  · simp only [if_neg hdeep]
    exact hx _ _ { h with depth := rfl }

theorem Concurs.of_same {x y : Query α}
    (h : ∀ s s', Session.Alike known s s' → y s' = x s) : Concurs known (fun _ => True) x y :=
  fun s s' hs => ⟨h s s' hs, fun _ _ _ => trivial⟩

def concurring (known : String → Prop) : Accord Query Query where
  Rel _ x y Q := Concurs known Q x y
  pure ha := fun _ _ _ => ⟨rfl, fun _ _ h => by cases h; exact ha⟩
  bind := Concurs.bind
  weaken := Concurs.weaken
  giveUp := fun _ _ _ => ⟨rfl, fun _ _ h => by cases h⟩
  announce kind p := Concurs.of_same fun s s' _ => by
    simp only [perform, Action.announce, Action.bind_apply, Action.settings]
    cases s.settings.trace <;> cases s'.settings.trace <;> rfl
  mark _ := Concurs.of_same fun _ _ _ => rfl

end Query

namespace Expr

def names (e : Expr) : List String := e.parts.filterMap name?

/-- A node looks at a variable only if it is one, and at nothing else that may differ but the
limits. -/
theorem concurs_node {known : String → Prop} {node : Expr}
    (hname : ∀ name, node.name? = some name → known name) (d : Nat) :
    node.Agrees (Query.concurring known) (fun _ _ => True) d := by
  have hrecover (p : Position) (fallback : Value) (r : Except Fault Value) :
      Query.Concurs known (fun _ => True) (recover p fallback r) (recover p fallback r) :=
    .of_same fun s s' _ => Query.recover_apply p fallback r s' s
  cases node with
  | literal l p => exact hrecover p _ _
  | var name p =>
    refine Query.Concurs.bind (.of_same fun s s' h => ?_) fun r _ => hrecover p _ r
    show some (Except.ok (s'.store.get name), []) = some (Except.ok (s.store.get name), [])
    rw [h.get name (hname name rfl)]
  | binary op l r p =>
    cases hop : op.isLogical with
    | true =>
      simp only [Agrees, hop, if_true]
      exact ⟨fun _ _ fault _ => Query.Concurs.of_same fun _ _ _ => rfl, fun _ => trivial⟩
    | false =>
      simp only [Agrees, hop]
      intro a b _ _
      refine Query.Concurs.bind (.of_same fun s s' h => ?_) fun r _ => hrecover p _ r
      show some (Except.ok (op.apply s'.settings.maxStringLen a b), []) =
        some (Except.ok (op.apply s.settings.maxStringLen a b), [])
      rw [h.maxStringLen]
  | unary op e p => exact fun a _ => hrecover p _ _
  | paren e p => exact fun _ _ => trivial

theorem query_eq {e : Expr} {s s' : Session} (h : Session.Alike (· ∈ e.names) s s') :
    e.evalIn Query s' = e.evalIn Query s := by
  have heval := eval_agrees (A := Query.concurring (· ∈ e.names)) (Q := fun _ _ => True) e 0
    fun k node hk => by
      refine ⟨Query.Concurs.nested, concurs_node (fun name hname => ?_) (k + 1)⟩
      exact List.mem_filterMap.mpr ⟨node, mem_parts hk, hname⟩
  exact (heval s s' h).1

/-- From two sessions with the same limits and depth, in which every name of the expression stands
for the same value or for none, an evaluation comes to the same value or fault and records the same.
It changes nothing else, so a second one after it does the same once more. -/
theorem eval_reads_only (e : Expr) (s s' : Session)
    (hmaxDepth : s'.settings.maxDepth = s.settings.maxDepth)
    (hmaxStringLen : s'.settings.maxStringLen = s.settings.maxStringLen)
    (hdepth : s'.depth = s.depth)
    (hget : ∀ name ∈ e.names, s'.store.get name = s.store.get name) :
    ∃ reply added t t' u, e.eval s = .ofReply reply t ∧ s.Gains added t ∧
      e.eval s' = .ofReply reply t' ∧ s'.Gains added t' ∧
      e.eval t = .ofReply reply u ∧ t.Gains added u := by
  have halike : Session.Alike (· ∈ e.names) s s' := ⟨hmaxDepth, hmaxStringLen, hdepth, hget⟩
  obtain ⟨-, reply, added, hreply, hend⟩ := e.eval_tells s
  have hanswer (t : Session) (ht : e.evalIn Query t = some (reply, added)) :
      e.eval t = .ofReply reply (t.recordAll added) ∧ t.Gains added (t.recordAll added) := by
    obtain ⟨-, reply', added', hreply', hend'⟩ := e.eval_tells t
    rw [ht] at hreply'
    cases hreply'
    exact ⟨hend', (Session.Gains.refl t).recordAll added⟩
  obtain ⟨hfirst, hgains⟩ := hanswer s hreply
  obtain ⟨hother, hgains'⟩ := hanswer s' ((query_eq halike).trans hreply)
  obtain ⟨hagain, hgains''⟩ := hanswer (s.recordAll added)
    ((e.eval_tells.recordAll s added).trans hreply)
  exact ⟨reply, added, _, _, _, hfirst, hgains, hother, hgains', hagain, hgains''⟩

/-- `x / 0 + y || s` -/
def faultyChoice : Expr :=
  .binary .or
    (.binary .add
      (.binary .div (.var "x" ⟨1, 1⟩) (.literal ⟨.int, "0"⟩ ⟨1, 5⟩) ⟨1, 3⟩)
      (.var "y" ⟨1, 9⟩) ⟨1, 7⟩)
    (.var "s" ⟨1, 14⟩) ⟨1, 11⟩

def newlyMade : Session := { store := ⟨[⟨"x", .int, .int 7⟩, ⟨"s", .string, .string "t"⟩]⟩ }

/-- A session that traces, holds another variable and a diagnostic, was asked to stop, and has the
same two variables in another order. -/
def muchUsed : Session :=
  { settings := { trace := true }
    store := ⟨[⟨"s", .string, .string "t"⟩, ⟨"w", .bool, .bool true⟩, ⟨"x", .int, .int 7⟩]⟩
    diagnostics := #[⟨⟨1, 1⟩, .stringTooLong 3⟩]
    interrupted := true }

theorem eval_reads_only_faultyChoice :
    faultyChoice.names = ["x", "y", "s"] ∧
    (∀ name ∈ faultyChoice.names, muchUsed.store.get name = newlyMade.store.get name) ∧
    ∃ t t' u, faultyChoice.eval newlyMade = .done (.bool false) t ∧
      t.diagnostics.toList = [⟨⟨1, 3⟩, .divisionByZero⟩, ⟨⟨1, 9⟩, .undeclaredVariable "y"⟩,
        ⟨⟨1, 11⟩, .conversion .string .bool none⟩] ∧
      faultyChoice.eval muchUsed = .done (.bool false) t' ∧ t'.store = muchUsed.store ∧
      t'.diagnostics.toList = muchUsed.diagnostics.toList ++ t.diagnostics.toList ∧
      faultyChoice.eval t = .done (.bool false) u ∧
      u.diagnostics.toList = t.diagnostics.toList ++ t.diagnostics.toList := by
  have hnames : faultyChoice.names = ["x", "y", "s"] := by decide
  have hget : ∀ name ∈ faultyChoice.names,
      muchUsed.store.get name = newlyMade.store.get name := by
    rw [hnames]
    intro name hname
    simp only [List.mem_cons, List.not_mem_nil, or_false] at hname
    obtain rfl | rfl | rfl := hname <;> rfl
  obtain ⟨reply, added, t, t', u, ht, hgains, ht', hgains', hu, hgains''⟩ :=
    eval_reads_only faultyChoice newlyMade muchUsed rfl rfl rfl hget
  have hvalue : (faultyChoice.eval newlyMade).reply?.bind Except.toOption = some (.bool false) := by
    decide +kernel
  have hrecorded : (faultyChoice.eval newlyMade).session?.map (·.diagnostics.toList) =
      some [⟨⟨1, 3⟩, .divisionByZero⟩, ⟨⟨1, 9⟩, .undeclaredVariable "y"⟩,
        ⟨⟨1, 11⟩, .conversion .string .bool none⟩] := by
    decide +kernel
  rw [ht] at hvalue hrecorded
  cases reply with
  | error fault => cases hvalue
  | ok v =>
    cases hvalue
    have hadded : t.diagnostics.toList = added := hgains.diagnostics
    refine ⟨hnames, hget, t, t', u, ht, Option.some.inj hrecorded, ht', hgains'.store, ?_, hu, ?_⟩
    · rw [hadded]
      exact hgains'.diagnostics
    · rw [hgains''.diagnostics, hadded]

end Expr

end TolerantScript
