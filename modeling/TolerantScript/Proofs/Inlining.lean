import TolerantScript.Proofs.Deeper
import TolerantScript.Proofs.Independence

/-!
Blocks open no scope. The statements of a block can stand in the place of the block, and all that
this changes is that they are one level less deep.
-/

namespace TolerantScript

/-! Executions that nobody has asked to stop by the time they end. -/

namespace Action

variable {α : Type} {x : Action α} {s t : Session}

def Heeds (x : Action α) : Prop :=
  ∀ s t, s.depth ≤ s.settings.maxDepth → x s = .halted .interrupted t → s.Raised t

theorem apply_unasked (hx : Curb.request.Holds x x) (hheeds : Heeds x)
    (hs : s.depth ≤ s.settings.maxDepth) (ht : (x s).session? = some t) (hflag : ¬s.Raised t) :
    x s.unasked = (x s).mapSession Session.unasked := by
  obtain hsame | ⟨fault, u, hcut, rfl, -⟩ := hx.2 s
  · exact hsame
  · rw [hcut] at ht
    cases ht
    exact absurd (hheeds s t hs hcut) hflag

theorem apply_of_unasked (hx : Curb.request.Holds x x) (hheeds : Heeds x)
    (hs : s.depth ≤ s.settings.maxDepth) (ht : (x s.unasked).session? = some t)
    (hflag : ¬s.Raised t) : x s.unasked = (x s).mapSession Session.unasked := by
  obtain hsame | ⟨fault, u, hcut, rfl, hbefore⟩ := hx.2 s
  · exact hsame
  · have hprecedes : u.Precedes t := hbefore t ht
    exact absurd ((hheeds s u hs hcut).mono hprecedes.events.length_le) hflag

end Action

namespace Outcome

variable {α : Type}

def value? : Outcome α → Option α
  | .done a _ => some a
  | _ => none

namespace Deeper

variable {β : Type} {levels d : Nat} {flag : Bool} {V : α → β → Prop} {o : Outcome α}
  {o' : Outcome β}

theorem session?_right {t : Session} (h : o.Deeper levels flag d V o') (ht : o.session? = some t) :
    ∃ u, o'.session? = some u ∧ u.events.size ≤ t.events.size := by
  cases h with
  | done _ h _ =>
    cases ht
    exact ⟨_, rfl, h.events⟩
  | halted fault h _ =>
    cases ht
    exact ⟨_, rfl, h.events⟩
  | unfinished => cases ht

theorem value?_eq {W : α → α → Prop} {o' : Outcome α} (h : o.Deeper levels flag d W o')
    (heq : ∀ a b, W a b → a = b) : o.value? = o'.value? := by
  cases h with
  | done hab _ _ => rw [value?, value?, heq _ _ hab]
  | halted fault _ _ => rfl
  | unfinished => rfl

end Deeper

theorem session?_mapSession (f : Session → Session) (o : Outcome α) :
    (o.mapSession f).session? = o.session?.map f := by
  cases o <;> rfl

theorem ending_unasked (o : Outcome α) : (o.mapSession Session.unasked).ending = o.ending := by
  cases o <;> rfl

theorem value?_mapSession (f : Session → Session) (o : Outcome α) :
    (o.mapSession f).value? = o.value? := by
  cases o <;> rfl

theorem lacksLevels_of_mapSession {f : Session → Session} {o : Outcome α}
    (h : (o.mapSession f).LacksLevels) : o.LacksLevels := by
  obtain ⟨depth, max, s, hs⟩ := h
  cases o with
  | halted fault t =>
    cases hs
    exact ⟨depth, max, t, rfl⟩
  | done a t => cases hs
  | unfinished => cases hs

end Outcome

namespace Stmt

open TolerantScript.Action

theorem execAll_holds (c : Curb) (turns : Nat) (last : Option Value) (stmts : List Stmt) :
    c.Holds (execAll turns last stmts) (execAll turns last stmts) := by
  have h := c.simulation.composition.execAll turns stmts last
  rw [execAllIn_action] at h
  exact h

theorem execAll_heeds (turns : Nat) (last : Option Value) (stmts : List Stmt) :
    Heeds (execAll turns last stmts) := by
  intro s t hs h
  have hkeeps := execAll_keeps
    (lasting s False True ((tasksAll s.depth stmts).map (·.2)) (s.depth + heightAll stmts))
    (fun _ => True) turns stmts last s.depth (fun _ _ => trivial) fun k task hk =>
      Task.lasting_keeps trivial (List.mem_map_of_mem hk) (height_of_mem_tasksAll stmts _ k task hk)
  have hend := hkeeps s rfl (.refl hs not_false)
  rw [h] at hend
  obtain hstructural | ⟨-, -, hraised⟩ := cause_of_halted hend
  · cases hstructural
  · exact hraised.resolve_right not_false

theorem execAll_of_deep {s : Session} (hflag : s.interrupted = false)
    (hdeep : s.settings.maxDepth ≤ s.depth) (turns : Nat) (last : Option Value) (stmt : Stmt)
    (rest : List Stmt) : (execAll turns last (stmt :: rest) s).LacksLevels := by
  have hcheck : checkInterrupt s = .done () s := if_neg (by simp [hflag])
  have hexec : stmt.exec turns s =
      .halted (.nestingTooDeep (s.depth + 1) s.settings.maxDepth) s := by
    rw [exec.eq_def, begin, bind_apply, hcheck]
    exact if_pos hdeep
  rw [execAll, bind_apply, hexec]
  exact ⟨_, _, _, rfl⟩

/-! The statements of a block in its place. -/

theorem execAll_append (turns : Nat) (last : Option Value) (stmts more : List Stmt) :
    execAll turns last (stmts ++ more) =
      execAll turns last stmts >>= fun value => execAll turns value more := by
  funext s
  induction stmts generalizing last s with
  | nil =>
    rw [List.nil_append, execAll]
    rfl
  | cons stmt rest ih =>
    rw [List.cons_append, execAll, execAll, bind_apply, bind_apply, bind_apply]
    cases stmt.exec turns s with
    | done value t =>
      simp only [ih value t, bind_apply]
    | halted fault t => rfl
    | unfinished => rfl

theorem block_sinks (turns : Nat) (last : Option Value) (b : List Stmt) (p : Position) :
    Sinks True 0 false (fun v w => (b = [] → none = last) → v = w) (exec turns (.block b p))
      (execAll turns last b) := by
  have hinside : Sinks True 1 false (fun v w => (b = [] → none = last) → v = w)
      (execAll turns none b) (execAll turns last b) :=
    execAll_sinks (fun _ => trivial) turns none last b
  rw [exec]
  exact hinside.begin_left trivial _ _

/-- What the statements after the block have to do with it is the value it gives, and only if there
are none of them. -/
theorem inline_sinks (turns : Nat) (last : Option Value) (b c : List Stmt) (p : Position) :
    Sinks True 0 false (fun v w => ¬(b = [] ∧ c = []) → v = w)
      (execAll turns last (.block b p :: c)) (execAll turns last (b ++ c)) := by
  rw [execAll, execAll_append]
  refine (block_sinks turns last b p).bind fun v w hvw => ?_
  refine (execAll_sinks (by omega) turns v w c).weaken fun v' w' hlast hsome => ?_
  exact hlast fun hc => hvw fun hb => absurd ⟨hb, hc⟩ hsome

theorem inline_after_sinks (turns : Nat) (a b c : List Stmt) (p : Position) :
    Sinks True 0 false (fun v w => ¬(b = [] ∧ c = []) → v = w)
      (execAll turns none (a ++ [.block b p] ++ c)) (execAll turns none (a ++ b ++ c)) := by
  rw [List.append_assoc, List.append_assoc, execAll_append, execAll_append turns none a]
  refine (execAll_sinks (by omega) turns none none a).bind fun v w hvw => ?_
  rw [hvw fun _ => rfl]
  exact inline_sinks turns w b c p

theorem depth_le_of_execAll {turns : Nat} {last : Option Value} {stmts : List Stmt} {s : Session}
    (hsome : stmts ≠ []) (hflag : s.interrupted = false)
    (hlevels : ¬(execAll turns last stmts s).LacksLevels) : s.depth ≤ s.settings.maxDepth := by
  cases stmts with
  | nil => exact absurd rfl hsome
  | cons stmt rest =>
    refine Nat.le_of_not_le fun hdeep => ?_
    exact hlevels (execAll_of_deep hflag hdeep turns last stmt rest)

/-- If statements with a block among them come to an end, and neither for lack of levels nor after a
request to stop, then with the statements of the block in its place they come to an end too, with
the same variables, diagnostics and fatal fault, and with the same value unless the block was empty
and the last of them. -/
theorem inline_block {turns : Nat} {a b c : List Stmt} {p : Position} {s t : Session}
    (ht : (execAll turns none (a ++ [.block b p] ++ c) s).session? = some t)
    (hlevels : ¬(execAll turns none (a ++ [.block b p] ++ c) s).LacksLevels)
    (hflag : ¬s.Raised t) :
    execAll turns none (a ++ b ++ c) s ≠ .unfinished ∧
    (execAll turns none (a ++ b ++ c) s).ending =
      (execAll turns none (a ++ [.block b p] ++ c) s).ending ∧
    (¬(b = [] ∧ c = []) → (execAll turns none (a ++ b ++ c) s).value? =
      (execAll turns none (a ++ [.block b p] ++ c) s).value?) := by
  have hs : s.depth ≤ s.settings.maxDepth :=
    depth_le_of_execAll (by simp) (Bool.eq_false_iff.mpr fun h => hflag (.inl h)) hlevels
  have hnested :=
    apply_unasked (execAll_holds .request turns none _) (execAll_heeds turns none _) hs
    ht hflag
  have hlevels' : ¬(execAll turns none (a ++ [.block b p] ++ c) s.unasked).LacksLevels := by
    rw [hnested]
    exact fun h => hlevels (Outcome.lacksLevels_of_mapSession h)
  have hsteady : s.unasked.Steady := .inr fun n hn => nomatch hn
  -- with no request in sight the two do the same, the second with no more events than the first
  have hsame := (inline_after_sinks turns a b c p s.unasked s.unasked (.refl hsteady)).resolve_right
    fun h => hlevels' h.2
  obtain ⟨u, hu, hle⟩ := hsame.session?_right (t := t.unasked) (by
    rw [hnested, Outcome.session?_mapSession, ht]
    rfl)
  -- so the request is not made in the second either
  have hflat :=
    apply_of_unasked (execAll_holds .request turns none _) (execAll_heeds turns none _) hs
    hu fun hraised => hflag (hraised.mono hle)
  have hending := hsame.ending_eq
  rw [hnested, hflat, Outcome.ending_unasked, Outcome.ending_unasked] at hending
  refine ⟨fun hunfinished => ?_, hending.symm, fun hsome => ?_⟩
  · rw [hflat, hunfinished] at hu
    cases hu
  · have hvalue := hsame.value?_eq fun v w hvw => hvw hsome
    rw [hnested, hflat, Outcome.value?_mapSession, Outcome.value?_mapSession] at hvalue
    exact hvalue.symm

/-- `int n;` -/
def countDeclared : List Stmt := [.declare (some .int) [⟨"n", ⟨1, 5⟩⟩] ⟨1, 1⟩]

/-- `string s; y; while (n < 2) n = n + 1;`, where nothing declares `y`. -/
def declareAndCount : List Stmt :=
  [.declare (some .string) [⟨"s", ⟨3, 10⟩⟩] ⟨3, 3⟩, .expr (.var "y" ⟨4, 3⟩),
    .whileDo (.binary .lt (.var "n" ⟨5, 10⟩) (.literal ⟨.int, "2"⟩ ⟨5, 14⟩) ⟨5, 12⟩)
      (.assign ⟨"n", ⟨5, 17⟩⟩
        (.binary .add (.var "n" ⟨5, 21⟩) (.literal ⟨.int, "1"⟩ ⟨5, 25⟩) ⟨5, 23⟩)) ⟨5, 3⟩]

/-- `s . "!";` -/
def appended : List Stmt :=
  [.expr (.binary .concat (.var "s" ⟨7, 1⟩) (.literal ⟨.string, "!"⟩ ⟨7, 5⟩) ⟨7, 3⟩)]

def patient : Session := { settings := { trace := true, maxDepth := 6 }, stopAt := some 50 }

theorem inline_block_declareAndCount :
    (∃ t, (execAll 3 none (countDeclared ++ [.block declareAndCount ⟨2, 1⟩] ++ appended)
        patient).session? = some t ∧ ¬patient.Raised t) ∧
    (execAll 3 none (countDeclared ++ declareAndCount ++ appended) patient).ending =
      some (none, ⟨[⟨"n", .int, .int 2⟩, ⟨"s", .string, .string ""⟩]⟩,
        #[⟨⟨4, 3⟩, .undeclaredVariable "y"⟩]) ∧
    (execAll 3 none (countDeclared ++ declareAndCount ++ appended) patient).value? =
      some (some (.string "!")) := by
  have hending : (execAll 3 none (countDeclared ++ [.block declareAndCount ⟨2, 1⟩] ++ appended)
      patient).ending = some (none, ⟨[⟨"n", .int, .int 2⟩, ⟨"s", .string, .string ""⟩]⟩,
        #[⟨⟨4, 3⟩, .undeclaredVariable "y"⟩]) := by decide +kernel
  have hvalue : (execAll 3 none (countDeclared ++ [.block declareAndCount ⟨2, 1⟩] ++ appended)
      patient).value? = some (some (.string "!")) := by decide +kernel
  have hevents : (execAll 3 none (countDeclared ++ [.block declareAndCount ⟨2, 1⟩] ++ appended)
      patient).session?.map (·.events.size) = some 14 := by decide +kernel
  obtain ⟨t, ht, hsize⟩ := Option.map_eq_some_iff.mp hevents
  have hflag : ¬patient.Raised t := by
    rintro (hflag | ⟨n, hn, -, hle⟩)
    · cases hflag
    · cases hn
      omega
  obtain ⟨-, hending', hvalue'⟩ := inline_block ht (fun hlevels => by
    obtain ⟨depth, max, s, hs⟩ := hlevels
    rw [hs] at hending
    cases hending) hflag
  exact ⟨⟨t, ht, hflag⟩, hending'.trans hending,
    (hvalue' (by simp [declareAndCount])).trans hvalue⟩

end Stmt

end TolerantScript
