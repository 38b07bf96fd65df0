import TolerantScript.Proofs.Node
import TolerantScript.Proofs.Task
import TolerantScript.Proofs.Truncation

/-!
The limit on the strings that operators build. What is executed without meeting it comes to the same
with a higher one: an operator's result differs only where it was too long, and that is recorded.
-/

namespace TolerantScript

variable {α β : Type}

/-! What an operator gives with a higher limit. -/

namespace BinaryOp

variable {limit bound : Nat}

theorem checkLength_of_le (hle : limit ≤ bound) (bytes : Nat) :
    checkLength limit (wordLength? bytes) = .error (.stringTooLong limit) ∨
      checkLength bound (wordLength? bytes) = checkLength limit (wordLength? bytes) := by
  rw [checkLength_wordLength?, checkLength_wordLength?]
  by_cases hfits : bytes < UInt64.size ∧ bytes ≤ limit
  · exact .inr (by rw [if_pos hfits, if_pos ⟨hfits.1, Nat.le_trans hfits.2 hle⟩])
  · exact .inl (if_neg hfits)

theorem join_of_le (hle : limit ≤ bound) (s t : String) :
    join limit s t = .error (.stringTooLong limit) ∨ join bound s t = join limit s t := by
  obtain hlong | hsame := checkLength_of_le hle (s.utf8ByteSize + t.utf8ByteSize)
  · exact .inl (by rw [join, hlong]; rfl)
  · exact .inr (by rw [join, join, hsame])

theorem multiply_of_le (hle : limit ≤ bound) (s : String) (count : Int32) :
    multiply limit s count = .error (.stringTooLong limit) ∨
      multiply bound s count = multiply limit s count := by
  unfold multiply
  by_cases hnegative : count.toInt < 0
  · exact .inr (by rw [if_pos hnegative, if_pos hnegative])
  · rw [if_neg hnegative, if_neg hnegative]
    obtain hlong | hsame := checkLength_of_le hle (s.utf8ByteSize * count.toInt.toNat)
    · exact .inl (by rw [hlong]; rfl)
    · exact .inr (by rw [hsame])

/-- A result changes with the limit only where it was over the limit. -/
theorem apply_of_le (hle : limit ≤ bound) (op : BinaryOp) (l r : Value) :
    op.apply limit l r = .error (.stringTooLong limit) ∨
      op.apply bound l r = op.apply limit l r := by
  cases op with
  | add =>
    simp only [apply]
    split
    · exact join_of_le hle _ _
    · exact .inr rfl
  | mul =>
    simp only [apply]
    split
    · exact multiply_of_le hle _ _
    · exact multiply_of_le hle _ _
    · exact .inr rfl
  | concat =>
    simp only [apply]
    split
    · exact join_of_le hle _ _
    · exact .inr rfl
  | _ => exact .inr rfl

end BinaryOp

/-! Sessions with a higher limit. -/

def Fault.isTooLong : Fault → Bool
  | .stringTooLong _ => true
  | _ => false

namespace Session

def overlong (s : Session) : Nat := s.diagnostics.toList.countP (·.fault.isTooLong)

def allow (bytes : Nat) (s : Session) : Session :=
  { s with settings := { s.settings with maxStringLen := s.settings.maxStringLen + bytes } }

theorem overlong_record (s : Session) (d : Diagnostic) :
    (s.record d).overlong = s.overlong + d.fault.isTooLong.toNat := by
  rw [overlong, toList_diagnostics_record, List.countP_append, List.countP_singleton, overlong]
  cases d.fault.isTooLong <;> rfl

theorem Precedes.overlong_le {s t : Session} (h : s.Precedes t) : s.overlong ≤ t.overlong :=
  h.diagnostics.sublist.countP_le

theorem Precedes.overlong_eq {s t : Session} (h : s.Precedes t)
    (hspared : ∀ d ∈ t.diagnostics.toList.drop s.diagnostics.size, d.fault.isTooLong = false) :
    t.overlong = s.overlong := by
  obtain ⟨added, hadded⟩ := h.diagnostics
  have hdrop : t.diagnostics.toList.drop s.diagnostics.size = added := by
    rw [← hadded, ← Array.length_toList, List.drop_left]
  have hnone : added.countP (·.fault.isTooLong) = 0 := by
    rw [List.countP_eq_zero]
    intro d hd
    rw [hspared d (hdrop ▸ hd)]
    exact Bool.false_ne_true
  rw [overlong, ← hadded, List.countP_append, hnone, overlong, Nat.add_zero]

end Session

/-! Actions with a higher limit. -/

/-- The second outcome is the first one with more bytes allowed, unless the first one counts more
strings as too long than `count`. -/
inductive Outcome.Widens (bytes count : Nat) : Outcome α → Outcome α → Prop
  | same {o : Outcome α} (h : ∀ t, o.session? = some t → t.overlong = count) :
    Widens bytes count o (o.mapSession (·.allow bytes))
  | exceeded {o o' : Outcome α} (h : ∀ t, o.session? = some t → count < t.overlong) :
    Widens bytes count o o'

theorem Outcome.Widens.count_le {bytes count : Nat} {o o' : Outcome α} (h : o.Widens bytes count o')
    {t : Session} (ht : o.session? = some t) : count ≤ t.overlong := by
  cases h with
  | same hsame => exact Nat.le_of_eq (hsame t ht).symm
  | exceeded hmore => exact Nat.le_of_lt (hmore t ht)

namespace Action

/-- Unless the first action meets the limit, the second one does the same with more bytes allowed. A
value that the first one gives has `Q`. -/
structure Widens (bytes : Nat) (Q : α → Prop) (x y : Action α) : Prop where
  gives {s t : Session} {a : α} : x s = .done a t → Q a
  outcome (s : Session) : (x s).Widens bytes s.overlong (y (s.allow bytes))

namespace Widens

variable {bytes : Nat} {P Q : α → Prop} {x y : Action α}

theorem pure {a : α} (ha : Q a) : Widens bytes Q (pure a) (pure a) where
  gives h := by
    cases h
    exact ha
  outcome s := by
    refine .same fun t ht => ?_
    cases ht
    rfl

theorem bind {R : β → Prop} {f g : α → Action β} (hx : Widens bytes P x y)
    (hf : ∀ a, P a → Widens bytes R (f a) (g a)) : Widens bytes R (x >>= f) (y >>= g) where
  gives h := by
    obtain ⟨a, u, hfirst, hrest⟩ := bind_eq_done h
    exact (hf a (hx.gives hfirst)).gives hrest
  outcome s := by
    have hfirst := hx.outcome s
    have hgives (a : α) (t : Session) (h : x s = .done a t) : P a := hx.gives h
    rw [bind_apply, bind_apply]
    generalize x s = o at hfirst hgives
    generalize y (s.allow bytes) = o' at hfirst
    cases hfirst with
    | same hsame =>
      cases o with
      | done a t =>
        have hrest := (hf a (hgives a t rfl)).outcome t
        rw [hsame t rfl] at hrest
        exact hrest
      | halted fault t => exact .same hsame
      | unfinished => exact .same hsame
    | exceeded hmore =>
      -- what comes after the limit was met takes no diagnostic back
      refine .exceeded fun u hu => ?_
      cases o with
      | done a t =>
        have hrest := (hf a (hgives a t rfl)).outcome t
        exact Nat.lt_of_lt_of_le (hmore t rfl) (hrest.count_le hu)
      | halted fault t => exact hmore u hu
      | unfinished => cases hu

theorem weaken (hx : Widens bytes P x y) (hPQ : ∀ a, P a → Q a) : Widens bytes Q x y :=
  ⟨fun h => hPQ _ (hx.gives h), hx.outcome⟩

theorem nested (hx : Widens bytes Q x y) : Widens bytes Q (nested x) (nested y) where
  gives h := by
    obtain ⟨t, ht⟩ := nested_eq_done h
    exact hx.gives ht
  outcome s := by
    by_cases hdeep : s.settings.maxDepth ≤ s.depth
    · have hdeep' : (s.allow bytes).settings.maxDepth ≤ (s.allow bytes).depth := hdeep
      rw [Action.nested, Action.nested, if_pos hdeep, if_pos hdeep']
      refine .same fun t ht => ?_
      cases ht
      rfl
    · have hdeep' : ¬(s.allow bytes).settings.maxDepth ≤ (s.allow bytes).depth := hdeep
      have hin : (x { s with depth := s.depth + 1 }).Widens bytes s.overlong
          (y { s.allow bytes with depth := (s.allow bytes).depth + 1 }) :=
        hx.outcome { s with depth := s.depth + 1 }
      rw [Action.nested, Action.nested, if_neg hdeep, if_neg hdeep']
      generalize x { s with depth := s.depth + 1 } = o at hin
      generalize y { s.allow bytes with depth := (s.allow bytes).depth + 1 } = o' at hin
      cases hin with
      | same hsame =>
        cases o with
        | done a t =>
          refine .same (o := .done a (leave t)) fun u hu => ?_
          cases hu
          exact hsame t rfl
        | halted fault t =>
          refine .same (o := .halted fault (leave t)) fun u hu => ?_
          cases hu
          exact hsame t rfl
        | unfinished => exact .same hsame
      | exceeded hmore =>
        refine .exceeded fun u hu => ?_
        cases o with
        | done a t | halted fault t =>
          cases hu
          exact hmore t rfl
        | unfinished => cases hu

theorem of_quiet (hquiet : x.Quiet)
    (hsame : ∀ s, x (s.allow bytes) = (x s).mapSession (·.allow bytes)) :
    Widens bytes (fun _ => True) x x where
  gives _ := trivial
  outcome s := by
    rw [hsame]
    refine .same fun t ht => ?_
    obtain rfl | ⟨store, e, rfl⟩ := hquiet.session_cases ht
    · rfl
    · rfl

theorem report (p : Position) (fault : Fault) :
    Widens bytes (fun _ => True) (report p fault) (report p fault) where
  gives _ := trivial
  outcome s := by
    by_cases hlong : fault.isTooLong = true
    · refine .exceeded fun t ht => ?_
      cases ht
      rw [Session.overlong_record, hlong]
      exact Nat.lt_succ_self _
    · refine .same (o := .done () (s.record ⟨p, fault⟩)) fun t ht => ?_
      cases ht
      rw [Session.overlong_record, Bool.eq_false_iff.mpr hlong]
      rfl

theorem halt (fault : Fault) : Widens bytes Q (halt fault) (halt fault) where
  gives h := by cases h
  outcome s := by
    refine .same fun t ht => ?_
    cases ht
    rfl

theorem giveUp : Widens bytes Q giveUp giveUp where
  gives h := by cases h
  outcome s := by
    refine .same fun t ht => ?_
    cases ht

theorem emit (e : Event) : Widens bytes (fun _ => True) (emit e) (emit e) where
  gives _ := trivial
  outcome s := by
    refine .same (o := .done () (s.emit e)) fun t ht => ?_
    cases ht
    rfl

theorem recover (p : Position) (fallback : Value) (r : Except Fault Value) :
    Widens bytes (fun _ => True) (recover p fallback r) (recover p fallback r) := by
  cases r with
  | ok v => exact Widens.pure trivial
  | error fault =>
    simp only [Action.recover]
    cases fault.isFatal with
    | true => exact halt fault
    | false => exact (report p fault).bind fun _ _ => Widens.pure trivial

/-- The one step that looks at the limit: where the results differ, the first one is recorded as too
long. -/
theorem combine (op : BinaryOp) (p : Position) (a b : Value) :
    Widens bytes (fun _ => True) (Expr.combine op p a b) (Expr.combine op p a b) where
  gives _ := trivial
  outcome s := by
    have hle : s.settings.maxStringLen ≤ (s.allow bytes).settings.maxStringLen :=
      Nat.le_add_right _ _
    simp only [Expr.combine, bind_apply, settings]
    obtain hlong | hsame := BinaryOp.apply_of_le hle op a b
    · rw [hlong]
      refine .exceeded fun t ht => ?_
      cases ht
      rw [Session.overlong_record]
      exact Nat.lt_succ_self _
    · rw [hsame]
      exact (recover p _ _).outcome s

theorem checkInterrupt :
    Widens bytes (fun _ => True) checkInterrupt checkInterrupt := by
  refine of_quiet .checkInterrupt fun s => ?_
  have hflag : (s.allow bytes).interrupted = s.interrupted := rfl
  simp only [Action.checkInterrupt, hflag]
  cases s.interrupted <;> rfl

theorem announce (kind : Stmt.Kind) (p : Position) :
    Widens bytes (fun _ => True) (announce kind p) (announce kind p) := by
  refine of_quiet (.announce kind p) fun s => ?_
  have htrace : (s.allow bytes).settings.trace = s.settings.trace := rfl
  simp only [Action.announce, bind_apply, settings, htrace]
  cases s.settings.trace <;> rfl

theorem declare (name : String) (ty : Ty) :
    Widens bytes (fun _ => True) (declare name ty) (declare name ty) := by
  refine of_quiet (.declare name ty) fun s => ?_
  have hstore : (s.allow bytes).store = s.store := rfl
  rw [declare_apply, declare_apply, hstore]
  cases s.store.declare name ty <;> rfl

theorem assign (name : String) (value : Value) :
    Widens bytes (fun _ => True) (assign name value) (assign name value) := by
  refine of_quiet (.assign name value) fun s => ?_
  have hstore : (s.allow bytes).store = s.store := rfl
  rw [assign_apply, assign_apply, hstore]
  cases s.store.assign name value <;> rfl

end Widens

end Action

def widening (bytes : Nat) : Accord Action Action where
  Rel _ x y Q := Action.Widens bytes Q x y
  pure := Action.Widens.pure
  bind := Action.Widens.bind
  weaken := Action.Widens.weaken
  giveUp := Action.Widens.giveUp
  announce := Action.Widens.announce
  mark _ := Action.Widens.emit _

section

open Machine

variable {bytes : Nat}

theorem Expr.widening_agrees (node : Expr) (d : Nat) :
    node.Agrees (widening bytes) (fun _ _ => True) d := by
  cases node with
  | literal l p =>
    simp only [Agrees, recover_action]
    exact Action.Widens.recover p _ _
  | var name p =>
    simp only [Agrees, recover_action]
    exact (Action.Widens.of_quiet (.lookup name) fun _ => rfl).bind fun r _ =>
      Action.Widens.recover p _ r
  | binary op l r p =>
    cases hop : op.isLogical with
    | true =>
      simp only [Agrees, hop, if_true]
      exact ⟨fun _ _ fault _ => Action.Widens.report p fault, fun _ => trivial⟩
    | false =>
      simp only [Agrees, hop, recover_action]
      exact fun a b _ _ => Action.Widens.combine op p a b
  | unary op e p =>
    simp only [Agrees, recover_action]
    exact fun a _ => Action.Widens.recover p _ _
  | paren e p => exact fun _ _ => trivial

theorem Expr.widening_eval (e : Expr) (d : Nat) :
    (widening bytes).Rel d (e.evalIn Action) (e.evalIn Action) fun _ => True :=
  Expr.eval_agrees (Q := fun _ _ => True) e d fun k node _ =>
    ⟨Action.Widens.nested, node.widening_agrees (k + 1)⟩

theorem widening_declareAll (ty : Ty) (names : List Ident) (d : Nat) :
    (widening bytes).Rel d (declareAll ty names) (declareAll ty names) fun _ => True := by
  induction names with
  | nil => exact Action.Widens.pure trivial
  | cons x rest ih =>
    refine (Action.Widens.declare x.name ty).bind fun r _ => ?_
    cases r with
    | ok u => exact ih
    | error fault => exact (Action.Widens.report x.position fault).bind fun _ _ => ih

theorem widening_assignTo (target : Ident) (value : Value) (d : Nat) :
    (widening bytes).Rel d (assignTo target value) (assignTo target value) fun _ => True := by
  refine (Action.Widens.assign target.name value).bind fun r _ => ?_
  cases r with
  | ok stored => exact Action.Widens.pure trivial
  | error fault =>
    exact (Action.Widens.report target.position fault).bind fun _ _ => Action.Widens.pure trivial

theorem Task.widening_agrees (task : Task) (d : Nat) :
    task.Agrees (widening bytes) (fun _ => True) d := by
  cases task with
  | start => exact ⟨fun _ => Action.Widens.checkInterrupt, Action.Widens.nested⟩
  | give e => exact e.widening_eval d
  | test e =>
    exact Accord.truthOf (e.widening_eval d) fun _ _ fault _ => Action.Widens.report _ fault
  | assign target e =>
    refine (e.widening_eval d).bind fun value _ => ?_
    exact (widening_assignTo target value d).weaken fun _ _ _ _ => trivial
  | declare ty names p =>
    cases ty with
    | none => exact Action.Widens.halt (.missingType p)
    | some ty => exact widening_declareAll ty names d

end

/-! Whole runs. -/

namespace Stmt

theorem exec_widens (bytes turns : Nat) (stmt : Stmt) :
    Action.Widens bytes (fun _ => True) (stmt.exec turns) (stmt.exec turns) := by
  have hexec := exec_agrees (widening bytes) (fun _ => True) turns stmt 0 fun k task _ =>
    task.widening_agrees k
  rw [execIn_action] at hexec
  exact hexec.weaken fun _ _ => trivial

theorem handOver_allow (stopAfter : Option Nat) (outputs : Array Value) (s : Session)
    (value : Option Value) (bytes : Nat) :
    handOver stopAfter outputs (s.allow bytes) value =
      ((handOver stopAfter outputs s value).1,
        (handOver stopAfter outputs s value).2.allow bytes) := by
  cases value with
  | none => rfl
  | some v =>
    simp only [handOver]
    split <;> rfl

theorem overlong_handOver (stopAfter : Option Nat) (outputs : Array Value) (s : Session)
    (value : Option Value) : (handOver stopAfter outputs s value).2.overlong = s.overlong := by
  obtain h | h := session_handOver stopAfter outputs s value <;> rw [h]
  rfl

theorem feed_widens (bytes turns : Nat) (stopAfter : Option Nat) (stmts : List Stmt)
    (outputs : Array Value) (s : Session) :
    feed turns stopAfter outputs stmts (s.allow bytes) =
        (feed turns stopAfter outputs stmts s).mapSession (·.allow bytes) ∨
      ∀ t, (feed turns stopAfter outputs stmts s).outcome.session? = some t →
        s.overlong < t.overlong := by
  induction stmts generalizing outputs s with
  | nil => exact .inl rfl
  | cons stmt rest ih =>
    have hfirst := (exec_widens bytes turns stmt).outcome s
    rw [feed_cons, feed_cons]
    generalize stmt.exec turns s = o at hfirst
    generalize stmt.exec turns (s.allow bytes) = o' at hfirst
    cases hfirst with
    | same hsame =>
      cases o with
      | done value t =>
        have hrest := ih (handOver stopAfter outputs t (stmt.output? value)).1
          (handOver stopAfter outputs t (stmt.output? value)).2
        rw [overlong_handOver, hsame t rfl] at hrest
        simp only [Outcome.mapSession, handOver_allow]
        exact hrest
      | halted fault t => exact .inl rfl
      | unfinished => exact .inl rfl
    | exceeded hmore =>
      refine .inr fun u hu => ?_
      cases o with
      | done value t =>
        have hrest := (precedes_feed hu).overlong_le
        rw [overlong_handOver] at hrest
        exact Nat.lt_of_lt_of_le (hmore t rfl) hrest
      | halted fault t => exact hmore u hu
      | unfinished => cases hu

end Stmt

namespace Program

theorem runWith_widens (bytes turns : Nat) (stopAfter : Option Nat) (p : Program) (s : Session) :
    p.runWith turns stopAfter (s.allow bytes) =
        (p.runWith turns stopAfter s).mapSession (·.allow bytes) ∨
      ∀ t, (p.runWith turns stopAfter s).outcome.session? = some t → s.overlong < t.overlong := by
  have hfeed := Stmt.feed_widens bytes turns stopAfter p.stmts #[]
    (s.emit (.runStarted p.stmts.length))
  have hemit : (s.allow bytes).emit (.runStarted p.stmts.length) =
      (s.emit (.runStarted p.stmts.length)).allow bytes := rfl
  simp only [runWith, hemit]
  generalize Stmt.feed turns stopAfter #[] p.stmts (s.emit (.runStarted p.stmts.length)) = run
    at hfeed ⊢
  obtain ⟨outputs, outcome⟩ := run
  obtain hsame | hmore := hfeed
  · rw [hsame]
    refine .inl ?_
    cases outcome <;> rfl
  · refine .inr fun t ht => ?_
    cases outcome with
    | done u v =>
      cases ht
      exact hmore v rfl
    | halted fault v => exact hmore t ht
    | unfinished => cases ht

/-- A run that ends, and has recorded no string as too long, ends in the same way with more bytes
for a string: with the same outputs, and with a session that differs in the limit only. -/
theorem run_with_longer_strings (p : Program) (stopAfter : Option Nat) (s : Session) (bytes : Nat)
    {run : Run} (hrun : p.Ends stopAfter s run)
    (hspared : ∀ t, run.outcome.session? = some t →
      ∀ d ∈ t.diagnostics.toList.drop s.diagnostics.size, ∀ max, d.fault ≠ .stringTooLong max) :
    p.Ends stopAfter (s.allow bytes) (run.mapSession (·.allow bytes)) := by
  obtain ⟨hend, turns, rfl⟩ := hrun
  obtain ⟨t, ht⟩ := Outcome.exists_session hend
  have hcount : t.overlong = s.overlong := by
    refine (precedes_runWith ht).overlong_eq fun d hd => ?_
    have hfault := hspared t ht d hd
    cases hd : d.fault with
    | stringTooLong max => exact absurd hd (hfault max)
    | _ => rfl
  obtain hsame | hmore := p.runWith_widens bytes turns stopAfter s
  · exact ⟨Outcome.mapSession_ne_unfinished hend _, turns, hsame⟩
  · exact absurd hcount (Nat.ne_of_gt (hmore t ht))

/-- `string s; int i; while (i < 3) { s = s + "ab"; i = i + 1; } s; y;` -/
def gatheringPairs : Program :=
  ⟨[.declare (some .string) [⟨"s", ⟨1, 8⟩⟩] ⟨1, 1⟩, .declare (some .int) [⟨"i", ⟨2, 5⟩⟩] ⟨2, 1⟩,
    .whileDo (.binary .lt (.var "i" ⟨3, 8⟩) (.literal ⟨.int, "3"⟩ ⟨3, 12⟩) ⟨3, 10⟩)
      (.block [
        .assign ⟨"s", ⟨4, 1⟩⟩
          (.binary .add (.var "s" ⟨4, 5⟩) (.literal ⟨.string, "ab"⟩ ⟨4, 9⟩) ⟨4, 7⟩),
        .assign ⟨"i", ⟨5, 1⟩⟩
          (.binary .add (.var "i" ⟨5, 5⟩) (.literal ⟨.int, "1"⟩ ⟨5, 9⟩) ⟨5, 7⟩)] ⟨3, 15⟩) ⟨3, 1⟩,
    .expr (.var "s" ⟨6, 1⟩), .expr (.var "y" ⟨7, 1⟩)]⟩

/-- Six bytes for a string, and one already recorded as too long. -/
def sixBytes : Session :=
  { settings := { maxStringLen := 6 }, diagnostics := #[⟨⟨1, 1⟩, .stringTooLong 6⟩] }

theorem run_with_longer_strings_gatheringPairs :
    ∃ run t, gatheringPairs.Ends none sixBytes run ∧ run.outcome = .done () t ∧
      run.outputs = #[.string "ababab", .int 0] ∧
      t.diagnostics = #[⟨⟨1, 1⟩, .stringTooLong 6⟩, ⟨⟨7, 1⟩, .undeclaredVariable "y"⟩] ∧
      gatheringPairs.Ends none (sixBytes.allow 10) (run.mapSession (·.allow 10)) := by
  have hdone : ∃ t, (gatheringPairs.runWith 4 none sixBytes).outcome = .done () t ∧
      t.diagnostics = #[⟨⟨1, 1⟩, .stringTooLong 6⟩, ⟨⟨7, 1⟩, .undeclaredVariable "y"⟩] :=
    ⟨(gatheringPairs.runWith 4 none sixBytes).outcome.session?.getD {}, by decide +kernel,
      by decide +kernel⟩
  obtain ⟨t, hdone, hdiagnostics⟩ := hdone
  have hends : gatheringPairs.Ends none sixBytes (gatheringPairs.runWith 4 none sixBytes) :=
    ⟨by simp [hdone], 4, rfl⟩
  have hspared : ∀ u, (gatheringPairs.runWith 4 none sixBytes).outcome.session? = some u →
      ∀ d ∈ u.diagnostics.toList.drop sixBytes.diagnostics.size,
        ∀ max, d.fault ≠ .stringTooLong max := by
    intro u hu d hd
    rw [hdone] at hu
    cases hu
    rw [hdiagnostics] at hd
    rw [List.mem_singleton.mp hd]
    simp
  exact ⟨_, t, hends, hdone, by decide +kernel, hdiagnostics,
    run_with_longer_strings gatheringPairs none sixBytes 10 hends hspared⟩

end Program

end TolerantScript
