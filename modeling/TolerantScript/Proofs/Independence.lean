import TolerantScript.Proofs.Agreement
import TolerantScript.Proofs.FatalFault
import TolerantScript.Proofs.Truncation
import TolerantScript.Proofs.WellTyped

/-!
Statements that have nothing to do with each other can change places: without declarations, and with
no variable that one assigns mentioned in the other, either order ends with the same variables, and
each statement records the same.
-/

namespace TolerantScript

/-! What a statement leaves alone. -/

/-- A session some way on from `start`, in which only variables of the names in `touched` may have
changed. -/
structure Session.Framed (start : Session) (touched : List String) (s : Session) : Prop where
  settings : s.settings = start.settings
  interrupted : s.interrupted = start.interrupted
  stopAt : s.stopAt = none
  store (name : String) : name ∉ touched → s.store.view name = start.store.view name

namespace Session.Framed

variable {start s : Session} {touched : List String}

theorem refl (touched : List String) (h : s.stopAt = none) : s.Framed touched s :=
  ⟨rfl, rfl, h, fun _ _ => rfl⟩

theorem emit (h : start.Framed touched s) (e : Event) : start.Framed touched (s.emit e) where
  settings := h.settings
  interrupted := by simp [Session.emit, h.stopAt, h.interrupted]
  stopAt := h.stopAt
  store := h.store

theorem record (h : start.Framed touched s) (d : Diagnostic) :
    start.Framed touched (s.record d) :=
  { h with interrupted := (h.emit (.recorded d)).interrupted }

theorem put (h : start.Framed touched s) {name : String} (hname : name ∈ touched) (value : Value) :
    start.Framed touched { s with store := s.store.put name value } where
  settings := h.settings
  interrupted := h.interrupted
  stopAt := h.stopAt
  store other hother := by
    have hne : name ≠ other := by
      rintro rfl
      exact hother hname
    exact (Store.view_put_of_ne s.store hne value).trans (h.store other hother)

end Session.Framed

def framing (start : Session) (touched : List String) : Regime where
  Inv := start.Framed touched
  Fatal _ _ := True
  inv_enter _ _ h := { h with }
  inv_leave _ h := { h with }
  inv_mark _ e _ h := h.emit e
  fatal_leave _ _ _ := trivial

section

variable {start : Session} {touched : List String}

theorem framing_records (p : Position) (fault : Fault) : (framing start touched).Records p fault :=
  fun _ h => h.record ⟨p, fault⟩

theorem Task.framing_keeps {task : Task} (hdeclares : task.declares = false)
    (htarget : ∀ name, task.target? = some name → name ∈ touched) (d : Nat) :
    task.Keeps (framing start touched) (fun _ => True) d := by
  refine Task.keeps_of_records (fun _ _ => trivial) framing_records ?_ ?_ d
  · rintro target e rfl s value stored store hs hassign
    obtain ⟨-, rfl⟩ := Store.assign_eq_ok hassign
    exact (hs.put (htarget _ rfl) stored).emit (.assigned target.name stored)
  · rintro ty names p rfl
    cases hdeclares

end

namespace Stmt

variable {stmt first second : Stmt} {turns m n : Nat} {s t u : Session} {v w : Option Value}

theorem framed_of_exec (hdeclares : stmt.declares = false) (hstop : s.stopAt = none)
    (h : stmt.exec turns s = .done v t) : t.depth = s.depth ∧ s.Framed stmt.targets t := by
  have hkeeps := exec_keeps (framing s stmt.targets) (fun _ => True) turns stmt s.depth
    fun k task hk => by
      have htask := mem_work hk
      have htask' := declares_of_mem_work hdeclares htask
      exact Task.framing_keeps htask' (fun name hname => mem_targets htask hname) k
  have hend := hkeeps s rfl (.refl _ hstop)
  rw [h] at hend
  exact ⟨hend.1, hend.2.1⟩

/-- Nothing that the first statement assigns is read or assigned anywhere in the second. -/
def Spares (first second : Stmt) : Prop :=
  ∀ name ∈ first.targets, name ∉ second.reads ∧ name ∉ second.targets

instance (first second : Stmt) : Decidable (first.Spares second) :=
  inferInstanceAs (Decidable (∀ name ∈ first.targets, name ∉ second.reads ∧ name ∉ second.targets))

/-- A statement cannot tell whether another one that spares it was executed before. -/
theorem exec_across (hsecond : second.declares = false) (hspares : first.Spares second)
    (hstop : s.stopAt = none) (hframe : s.Framed first.targets t) (hdepth : t.depth = s.depth)
    (n : Nat) :
    Outcome.Beside (fun name => name ∉ first.targets) s t (fun _ => True) (second.exec n s)
      (second.exec n t) := by
  have hstart : Session.Beside (fun name => name ∉ first.targets) s t s t :=
    { settings := hframe.settings
      depth := hdepth
      interrupted := hframe.interrupted
      stopAt := ⟨hstop, hframe.stopAt⟩
      store := hframe.store
      events := ⟨[], by simp⟩
      diagnostics := ⟨[], by simp⟩ }
  have hmentioned : ∀ name, name ∈ second.reads ∨ name ∈ second.targets →
      name ∉ first.targets := by
    intro name hname htarget
    obtain ⟨hreads, htargets⟩ := hspares name htarget
    exact hname.elim hreads htargets
  exact exec_beside hsecond (fun name h => hmentioned name (.inl h))
    (fun name h => hmentioned name (.inr h)) s t n s t hstart

end Stmt

/-- Two ways from `s`, over `t` to `u` and over `t'` to `u'`: the same is added on both, in one
order on the one and in the other order on the other, and both come to the same variables. -/
structure Session.Swapped (s t u t' u' : Session) : Prop where
  store : u'.store = u.store
  events : ∃ a b, t.events.toList = s.events.toList ++ a ∧
    u.events.toList = s.events.toList ++ (a ++ b) ∧ t'.events.toList = s.events.toList ++ b ∧
    u'.events.toList = s.events.toList ++ (b ++ a)
  diagnostics : ∃ a b, t.diagnostics.toList = s.diagnostics.toList ++ a ∧
    u.diagnostics.toList = s.diagnostics.toList ++ (a ++ b) ∧
    t'.diagnostics.toList = s.diagnostics.toList ++ b ∧
    u'.diagnostics.toList = s.diagnostics.toList ++ (b ++ a)

namespace Stmt

variable {first second : Stmt} {m n : Nat} {s t u : Session} {v w : Option Value}

theorem swapped_of_stopAt (hfirst : first.declares = false) (hsecond : second.declares = false)
    (hspares : first.Spares second) (hspares' : second.Spares first) (hstop : s.stopAt = none)
    (ht : first.exec m s = .done v t) (hu : second.exec n t = .done w u) :
    ∃ t' u', second.exec n s = .done w t' ∧ first.exec m t' = .done v u' ∧
      s.Swapped t u t' u' := by
  obtain ⟨hdepth, hframe⟩ := framed_of_exec hfirst hstop ht
  have hboth := exec_across hsecond hspares hstop hframe hdepth n
  rw [hu] at hboth
  generalize ht' : second.exec n s = o at hboth
  cases hboth with
  | @done _ t' _ _ hb =>
    obtain ⟨hdepth', hframe'⟩ := framed_of_exec hsecond hstop ht'
    have hboth' := exec_across hfirst hspares' hstop hframe' hdepth' m
    rw [ht] at hboth'
    generalize hu' : first.exec m t' = o' at hboth'
    cases hboth' with
    | @done _ _ u' _ ha =>
      refine ⟨t', u', rfl, hu', ?_, ?_, ?_⟩
      · refine Store.eq_of_view fun name => ?_
        -- As far as the second statement sees, the first one assigns last in either order.
        by_cases hname : name ∈ first.targets
        · have hother : name ∉ second.targets := (hspares name hname).2
          have hlast := (framed_of_exec hsecond hframe.stopAt hu).2
          rw [ha.store name hother, hlast.store name hother]
        · have hlast := (framed_of_exec hfirst hframe'.stopAt hu').2
          rw [hb.store name hname, hlast.store name hname]
      · obtain ⟨a, hat, hau'⟩ := ha.events
        obtain ⟨b, hbt', hbu⟩ := hb.events
        exact ⟨a, b, hat, by rw [hbu, hat, List.append_assoc], hbt',
          by rw [hau', hbt', List.append_assoc]⟩
      · obtain ⟨a, hat, hau'⟩ := ha.diagnostics
        obtain ⟨b, hbt', hbu⟩ := hb.diagnostics
        exact ⟨a, b, hat, by rw [hbu, hat, List.append_assoc], hbt',
          by rw [hau', hbt', List.append_assoc]⟩

end Stmt

/-! Requests to stop that are not made. -/

namespace Session

variable {s t u : Session}

theorem Raised.mono (h : s.Raised t) (hle : t.events.size ≤ u.events.size) : s.Raised u := by
  obtain hflag | ⟨n, hn, hlt, hn'⟩ := h
  · exact .inl hflag
  · exact .inr ⟨n, hn, hlt, by omega⟩

theorem Follows.raised (h : s.Follows False t) (hraised : t.Raised u)
    (hle : t.events.size ≤ u.events.size) : s.Raised u := by
  obtain hflag | ⟨n, hn, hlt, hn'⟩ := hraised
  · have hbefore : s.Raised t := (h.interrupted.mp hflag).resolve_right not_false
    exact hbefore.mono hle
  · have hsize := h.events
    exact .inr ⟨n, by rw [← h.stopAt, hn], by omega, hn'⟩

theorem Swapped.size_le {t' u' : Session} (h : s.Swapped t u t' u') :
    t'.events.size ≤ u'.events.size ∧ u'.events.size = u.events.size := by
  obtain ⟨a, b, -, hu, ht', hu'⟩ := h.events
  have hu := congrArg List.length hu
  have ht' := congrArg List.length ht'
  have hu' := congrArg List.length hu'
  simp only [List.length_append, Array.length_toList] at hu ht' hu'
  omega

end Session

namespace Stmt

variable {stmt : Stmt} {turns : Nat} {s t : Session} {v : Option Value}

theorem depth_of_exec (h : stmt.exec turns s = .done v t) : s.depth ≤ s.settings.maxDepth := by
  rw [exec.eq_def, Action.begin] at h
  obtain ⟨_, s', hcheck, hnested⟩ := Action.bind_eq_done h
  have hsame : s' = s := by
    simp only [Action.checkInterrupt] at hcheck
    split at hcheck <;> cases hcheck
    rfl
  rw [hsame, Action.nested] at hnested
  split at hnested
  · cases hnested
  · omega

theorem exec_unasked (h : stmt.exec turns s = .done v t) :
    stmt.exec turns s.unasked = .done v t.unasked := by
  obtain hsame | ⟨fault, s', hcut, -⟩ := (stmt.exec_holds .request turns).2 s
  · rw [h] at hsame
    exact hsame
  · rw [h] at hcut
    cases hcut

theorem exec_of_unasked (hs : s.depth ≤ s.settings.maxDepth)
    (h : stmt.exec turns s.unasked = .done v t) (hflag : ¬s.Raised t) :
    ∃ t', stmt.exec turns s = .done v t' ∧ t'.unasked = t ∧ s.Follows False t' := by
  have hkeeps : (lasting s False True stmt.work (s.depth + stmt.height)).Keeps s.depth
      (stmt.exec turns) fun _ => True := lasting_exec turns stmt s.depth
  have hend := hkeeps s rfl (.refl hs not_false)
  obtain hsame | ⟨fault, s', hcut, hfault, hbefore⟩ := (stmt.exec_holds .request turns).2 s
  · have hlift : stmt.exec turns s.unasked = (stmt.exec turns s).mapSession Session.unasked := hsame
    rw [h] at hlift
    cases hexec : stmt.exec turns s with
    | done v' t' =>
      rw [hexec] at hlift hend
      cases hlift
      exact ⟨t', rfl, rfl, hend.2.1⟩
    | halted fault t' =>
      rw [hexec] at hlift
      cases hlift
    | unfinished =>
      rw [hexec] at hlift
      cases hlift
  · -- cut short by a request, which then was made no later than the end
    have hlift : stmt.exec turns (Curb.request.lift s) = .done v t := h
    have hprecedes : s'.Precedes t := hbefore t (by rw [hlift]; rfl)
    have hsize : s'.events.size ≤ t.events.size := hprecedes.events.length_le
    cases hfault
    rw [hcut] at hend
    obtain hstructural | ⟨-, -, hraised⟩ := cause_of_halted hend
    · cases hstructural
    · exact absurd ((hraised.resolve_right not_false).mono hsize) hflag

/-- Two statements without declarations, with no variable that one assigns mentioned in the other:
if they can be executed in one order, and nobody asks to stop on the way, they can in the other.
They come to the same values and variables, and each adds the same diagnostics. -/
theorem independent_commute {first second : Stmt} {m n : Nat} {s t u : Session} {v w : Option Value}
    (hfirst : first.declares = false) (hsecond : second.declares = false)
    (hspares : first.Spares second) (hspares' : second.Spares first)
    (ht : first.exec m s = .done v t) (hu : second.exec n t = .done w u) (hflag : ¬s.Raised u) :
    ∃ t' u', second.exec n s = .done w t' ∧ first.exec m t' = .done v u' ∧ u'.store = u.store ∧
      ∃ added added', t.diagnostics.toList = s.diagnostics.toList ++ added ∧
        u.diagnostics.toList = s.diagnostics.toList ++ (added ++ added') ∧
        t'.diagnostics.toList = s.diagnostics.toList ++ added' ∧
        u'.diagnostics.toList = s.diagnostics.toList ++ (added' ++ added) := by
  obtain ⟨t₀, u₀, ht₀, hu₀, hswapped⟩ := swapped_of_stopAt hfirst hsecond hspares hspares' rfl
    (exec_unasked ht) (exec_unasked hu)
  obtain ⟨hle, hsize⟩ := hswapped.size_le
  have hdepth : s.depth ≤ s.settings.maxDepth := depth_of_exec ht
  have hflag₀ : ¬s.Raised u₀ := fun h => hflag (h.mono (Nat.le_of_eq hsize))
  obtain ⟨t', ht', rfl, hfollows⟩ := exec_of_unasked hdepth ht₀ fun h => hflag₀ (h.mono hle)
  have hflag' : ¬t'.Raised u₀ := fun h => hflag₀ (hfollows.raised h hle)
  obtain ⟨u', hu', rfl, -⟩ := exec_of_unasked hfollows.depth hu₀ hflag'
  exact ⟨t', u', ht', hu', hswapped.store, hswapped.diagnostics⟩

/-- `while (x < 2) { x = x + 1; 1 / 0; }` -/
def countTwice : Stmt :=
  .whileDo (.binary .lt (.var "x" ⟨1, 8⟩) (.literal ⟨.int, "2"⟩ ⟨1, 12⟩) ⟨1, 10⟩)
    (.block
      [.assign ⟨"x", ⟨1, 17⟩⟩
        (.binary .add (.var "x" ⟨1, 21⟩) (.literal ⟨.int, "1"⟩ ⟨1, 25⟩) ⟨1, 23⟩),
      .expr (.binary .div (.literal ⟨.int, "1"⟩ ⟨1, 28⟩) (.literal ⟨.int, "0"⟩ ⟨1, 32⟩) ⟨1, 30⟩)]
      ⟨1, 15⟩) ⟨1, 1⟩

/-- `do y = y + z; while (y < 0);` -/
def addUnknown : Stmt :=
  .doWhile (.assign ⟨"y", ⟨2, 4⟩⟩ (.binary .add (.var "y" ⟨2, 8⟩) (.var "z" ⟨2, 12⟩) ⟨2, 10⟩))
    (.binary .lt (.var "y" ⟨2, 22⟩) (.literal ⟨.int, "0"⟩ ⟨2, 26⟩) ⟨2, 24⟩) ⟨2, 1⟩

/-- Two variables, and a stop at an event that neither order comes to. -/
def twoCounters : Session :=
  { store := ⟨[⟨"x", .int, .int 0⟩, ⟨"y", .float, .initial .float⟩]⟩, stopAt := some 9 }

theorem independent_commute_countTwice :
    ∃ t u t' u', countTwice.exec 3 twoCounters = .done none t ∧
      addUnknown.exec 1 t = .done none u ∧ ¬twoCounters.Raised u ∧
      addUnknown.exec 1 twoCounters = .done none t' ∧ countTwice.exec 3 t' = .done none u' ∧
      u'.store = u.store ∧
      u.diagnostics.toList = [⟨⟨1, 30⟩, .divisionByZero⟩, ⟨⟨1, 30⟩, .divisionByZero⟩,
        ⟨⟨2, 12⟩, .undeclaredVariable "z"⟩] ∧
      u'.diagnostics.toList = [⟨⟨2, 12⟩, .undeclaredVariable "z"⟩, ⟨⟨1, 30⟩, .divisionByZero⟩,
        ⟨⟨1, 30⟩, .divisionByZero⟩] := by
  have ht : countTwice.exec 3 twoCounters =
      .done none ((countTwice.exec 3 twoCounters).session?.getD {}) := by
    decide +kernel
  generalize htwice : (countTwice.exec 3 twoCounters).session?.getD {} = t at ht
  have hu : addUnknown.exec 1 t = .done none ((addUnknown.exec 1 t).session?.getD {}) := by
    rw [← htwice]
    decide +kernel
  generalize hunknown : (addUnknown.exec 1 t).session?.getD {} = u at hu
  have hsize : u.events.size = 8 := by
    rw [← hunknown, ← htwice]
    decide +kernel
  have hflag : ¬twoCounters.Raised u := by
    rintro (hflag | ⟨n, hn, -, hle⟩)
    · cases hflag
    · cases hn
      omega
  obtain ⟨t', u', ht', hu', hstore, added, added', hadded, hadded', -, hswapped⟩ :=
    independent_commute (by decide) (by decide) (by decide) (by decide) ht hu hflag
  have hfirst : added = [⟨⟨1, 30⟩, .divisionByZero⟩, ⟨⟨1, 30⟩, .divisionByZero⟩] := by
    rw [← htwice] at hadded
    refine Eq.trans hadded.symm ?_
    decide +kernel
  have hboth : u.diagnostics.toList = [⟨⟨1, 30⟩, .divisionByZero⟩, ⟨⟨1, 30⟩, .divisionByZero⟩,
      ⟨⟨2, 12⟩, .undeclaredVariable "z"⟩] := by
    rw [← hunknown, ← htwice]
    decide +kernel
  have hsecond : added' = [⟨⟨2, 12⟩, .undeclaredVariable "z"⟩] := by
    rw [hboth, hfirst] at hadded'
    simpa [twoCounters] using hadded'.symm
  refine ⟨t, u, t', u', ht, hu, hflag, ht', hu', hstore, hboth, ?_⟩
  rw [hswapped, hfirst, hsecond]
  rfl

end Stmt

end TolerantScript
