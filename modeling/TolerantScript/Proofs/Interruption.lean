import TolerantScript.Proofs.FatalFault
import TolerantScript.Proofs.Journal
import TolerantScript.Proofs.Truncation

/-!
Requests to stop, at an event or at an output. A run that sees one is cut short: it is the first
part of the run that nobody has asked to stop, and no statement starts in it once the flag is up.
-/

namespace TolerantScript

/-- A statement that is come to with the flag up does nothing at all. -/
theorem Stmt.exec_of_interrupted (turns : Nat) (stmt : Stmt) {s : Session}
    (h : s.interrupted = true) : stmt.exec turns s = .halted .interrupted s := by
  have hcheck : Action.checkInterrupt s = .halted .interrupted s := if_pos h
  rw [Stmt.exec.eq_def, Action.begin, Action.bind_apply, hcheck]

theorem exists_split_filterMap {α β : Type} {f : α → Option β} {l : List α} {k : Nat}
    (hpos : 0 < k) (hle : k ≤ (l.filterMap f).length) :
    ∃ early a b after, l = early ++ a :: after ∧ f a = some b ∧
      (early.filterMap f).length + 1 = k ∧ ((early ++ [a]).filterMap f).length = k := by
  have hlast : k - 1 < (l.filterMap f).length := by omega
  have hall := (List.take_append_drop (k - 1) (l.filterMap f)).symm
  rw [List.drop_eq_getElem_cons hlast] at hall
  obtain ⟨front, back, rfl, hfront, hback⟩ := List.filterMap_eq_append_iff.mp hall
  obtain ⟨skipped, a, after, rfl, hskipped, ha, -⟩ := List.filterMap_eq_cons_iff.mp hback
  have hcount : ((front ++ skipped).filterMap f).length + 1 = k := by
    rw [List.filterMap_append, List.filterMap_eq_nil_iff.mpr hskipped, List.append_nil, hfront,
      List.length_take]
    omega
  refine ⟨front ++ skipped, a, _, after, (List.append_assoc ..).symm, ha, hcount, ?_⟩
  rw [List.filterMap_append, List.filterMap_cons_some ha, List.length_append]
  exact hcount

namespace Chronicle

variable {stopAfter : Option Nat} {x y : Array Value × Session} {notes : List Note}

theorem prompted {start : Session} (h : Chronicle stopAfter x notes y)
    (hx : start.Prompted (Asked stopAfter x.1) x.2) :
    start.Prompted (Asked stopAfter y.1) y.2 := by
  induction h with
  | refl x => exact hx
  | emit store e _ _ _ ih => exact ih ((hx.setStore store).emit e)
  | pass _ _ _ _ ih => exact ih hx
  | output v _ ih => exact ih (hx.handOver (some v))
  | silent hs _ ih =>
    refine ih ⟨hs.stopAt.trans hx.stopAt, hs.events ▸ hx.events, ?_⟩
    rw [hs.interrupted, hx.interrupted, Session.Raised, Session.Raised, hs.events]

theorem late_of_interrupted (h : Chronicle stopAfter x notes y) (hflag : x.2.interrupted = true) :
    ∀ m ∈ notes, m.late = true := by
  induction h with
  | refl x => exact fun m hm => absurd hm List.not_mem_nil
  | @emit outputs s y notes store e _ _ _ ih =>
    have hup : ({ s with store }.emit e).interrupted = true := by
      simp [Session.emit, show s.interrupted = true from hflag]
    exact List.forall_mem_cons.mpr ⟨hflag, ih hup⟩
  | pass _ _ _ _ ih => exact List.forall_mem_cons.mpr ⟨hflag, ih hflag⟩
  | @output outputs s y notes v _ ih =>
    refine List.forall_mem_cons.mpr ⟨hflag, ih ?_⟩
    obtain h | h := Stmt.session_handOver stopAfter outputs s (some v) <;> rw [h]
    · exact hflag
    · rfl
  | silent hs _ ih => exact ih (hs.interrupted.trans hflag)

/-- All is late after a note that gives a reason for the flag. -/
theorem late_after {s : Session} {early after : List Note} {m : Note}
    (h : Chronicle stopAfter (#[], s) (early ++ m :: after) y)
    (hreason : ∀ z, Chronicle stopAfter (#[], s) (early ++ [m]) z →
      s.Raised z.2 ∨ Asked stopAfter z.1) : ∀ m ∈ after, m.late = true := by
  rw [List.append_cons] at h
  obtain ⟨z, hz, hafter⟩ := h.split
  refine hafter.late_of_interrupted ?_
  rw [(hz.prompted (.refl (not_asked_empty stopAfter))).interrupted]
  exact hreason z hz

theorem size_events {s : Session} (h : Chronicle stopAfter (#[], s) notes y) :
    y.2.events.size = s.events.size + (shown s.settings.trace notes).length := by
  simpa using congrArg List.length h.toList_events

theorem size_outputs {s : Session} (h : Chronicle stopAfter (#[], s) notes y) :
    y.1.size = (handed notes).length := by
  simpa using congrArg List.length h.toList_outputs

theorem split_at_event {s : Session} {n : Nat} (h : Chronicle stopAfter (#[], s) notes y)
    (hstop : s.stopAt = some n) (hbefore : s.events.size < n) (hafter : n ≤ y.2.events.size) :
    ∃ early e late after, notes = early ++ ⟨.event e, late⟩ :: after ∧
      s.events.size + (shown s.settings.trace early).length + 1 = n ∧
      ∀ m ∈ after, m.late = true := by
  have hcount := h.size_events
  obtain ⟨early, ⟨what, late⟩, e, after, rfl, he, hearly, hfront⟩ :=
    exists_split_filterMap (k := n - s.events.size) (by omega)
      (show _ ≤ (shown s.settings.trace notes).length by omega)
  cases what with
  | output v => cases he
  | event e' =>
    rw [← shown] at hearly hfront
    refine ⟨early, e', late, after, rfl, by omega, h.late_after fun z hz => ?_⟩
    refine .inl (.inr ⟨n, hstop, hbefore, ?_⟩)
    rw [hz.size_events, hfront]
    omega

theorem split_at_output {s : Session} {n : Nat} (h : Chronicle (some n) (#[], s) notes y)
    (hpos : 0 < n) (hafter : n ≤ y.1.size) :
    ∃ early v late after, notes = early ++ ⟨.output v, late⟩ :: after ∧
      (handed early).length + 1 = n ∧ ∀ m ∈ after, m.late = true := by
  obtain ⟨early, ⟨what, late⟩, v, after, rfl, hv, hearly, hfront⟩ :=
    exists_split_filterMap (f := Note.output?) hpos (h.size_outputs ▸ hafter)
  cases what with
  | event e => cases hv
  | output w =>
    refine ⟨early, w, late, after, rfl, hearly, h.late_after fun z hz => ?_⟩
    exact .inr ⟨n, rfl, hpos, Nat.le_of_eq (hfront.symm.trans hz.size_outputs.symm)⟩

theorem size_le_of_output {s : Session} {n : Nat} {last : Option Stmt.Kind}
    (h : Chronicle (some n) (#[], s) notes y) (hnotes : isOrderly last notes = true)
    (hpos : 0 < n) : y.1.size ≤ n := by
  refine Nat.le_of_not_lt fun hover => ?_
  obtain ⟨early, v, late, after, rfl, hcount, hlate⟩ := h.split_at_output hpos (Nat.le_of_lt hover)
  have hwork := isWork_of_late (isOrderly_after hnotes) hlate
  have hnone : handed after = [] := by
    refine List.filterMap_eq_nil_iff.mpr fun m hm => ?_
    have hm := hwork m hm
    obtain ⟨what, _⟩ := m
    cases what with
    | event e => rfl
    | output w => cases hm
  have hall : handed (early ++ ⟨.output v, late⟩ :: after) = handed early ++ [v] := by
    have hv : Note.output? ⟨.output v, late⟩ = some v := rfl
    rw [handed, List.filterMap_append, List.filterMap_cons_some hv, ← handed, ← handed, hnone]
  rw [h.size_outputs, hall, List.length_append, List.length_singleton, hcount] at hover
  exact Nat.lt_irrefl n hover

/-- Since the flag goes up with event number `n`, no start is announced after it. -/
theorem isTrace_of_stopAt {s : Session} {n : Nat} {last : Option Stmt.Kind}
    (h : Chronicle stopAfter (#[], s) notes y) (hnotes : isOrderly last notes = true)
    (hstop : s.stopAt = some n) (hbefore : s.events.size < n) :
    ∀ i e, n ≤ i → y.2.events.toList[i]? = some e → e.isTrace = false := by
  intro i e hi he
  have hlt : i < y.2.events.size := by
    rw [← Array.length_toList]
    exact (List.getElem?_eq_some_iff.mp he).1
  obtain ⟨early, first, late, after, rfl, hcount, hlate⟩ :=
    h.split_at_event hstop hbefore (by omega)
  have hquiet := isStart_of_late (isOrderly_after hnotes) hlate
  -- the event stands behind the one that raised the flag
  have hmem : e ∈ shown s.settings.trace after := by
    have hfront : (shown s.settings.trace (early ++ [⟨.event first, late⟩])).length ≤
        (shown s.settings.trace early).length + 1 := by
      rw [shown, List.filterMap_append, List.length_append, ← shown]
      exact Nat.add_le_add_left (List.length_filterMap_le _ _) _
    rw [h.toList_events, List.append_cons, shown, List.filterMap_append, ← shown, ← shown,
      ← List.append_assoc, List.getElem?_append_right] at he
    · exact List.mem_of_getElem? he
    · rw [List.length_append, Array.length_toList]
      simp only
      omega
  obtain ⟨m, hm, hevent⟩ := List.mem_filterMap.mp hmem
  have hstart := hquiet m hm
  rwa [Note.isStart, (Option.filter_eq_some_iff.mp hevent).1] at hstart

end Chronicle

namespace Program

variable {p : Program} {turns : Nat} {s : Session}

theorem ends_of_ends_unasked (stopAfter : Option Nat)
    (h : (p.runWith turns none s.unasked).outcome ≠ .unfinished) :
    (p.runWith turns stopAfter s).outcome ≠ .unfinished := by
  intro hcut
  obtain hsame | ⟨fault, c, hhalt, -⟩ := Curb.request.shortensRun_runWith turns stopAfter p s
  · have hwhole : (p.runWith turns none s.unasked).outcome =
        (p.runWith turns stopAfter s).outcome.mapSession Session.unasked :=
      congrArg Run.outcome hsame
    rw [hcut] at hwhole
    exact h hwhole
  · rw [hhalt] at hcut
    cases hcut

theorem precedes_unasked {stopAfter : Option Nat} {c w : Session}
    (hc : (p.runWith turns stopAfter s).outcome.session? = some c)
    (hw : (p.runWith turns none s.unasked).outcome.session? = some w) :
    c.Precedes w ∧
      (p.runWith turns stopAfter s).outputs.toList <+:
        (p.runWith turns none s.unasked).outputs.toList ∧
      ((p.runWith turns stopAfter s).outcome = .halted .interrupted c ∨
        p.runWith turns none s.unasked =
          (p.runWith turns stopAfter s).mapSession Session.unasked) := by
  obtain hsame | ⟨fault, t, hhalt, rfl, houtputs, hbefore⟩ :=
    Curb.request.shortensRun_runWith turns stopAfter p s
  · have hsame : p.runWith turns none s.unasked =
        (p.runWith turns stopAfter s).mapSession Session.unasked := hsame
    rw [hsame] at hw ⊢
    refine ⟨?_, List.prefix_rfl, .inr rfl⟩
    simp only [Run.mapSession] at hw
    generalize (p.runWith turns stopAfter s).outcome = o at hc hw
    cases o with
    | done a t =>
      cases hc
      cases hw
      exact ⟨List.prefix_rfl, List.prefix_rfl⟩
    | halted fault t =>
      cases hc
      cases hw
      exact ⟨List.prefix_rfl, List.prefix_rfl⟩
    | unfinished => cases hc
  · rw [hhalt] at hc
    cases hc
    exact ⟨hbefore w hw, houtputs, .inl hhalt⟩

theorem outputs_reach {n : Nat} {w c : Session} (hdepth : s.depth = 0)
    (hflag : s.interrupted = false) (hstop : s.stopAt = none)
    (hc : (p.runWith turns (some n) s).outcome.session? = some c)
    (hw : (p.runWith turns none s.unasked).outcome.session? = some w) :
    n ≤ (p.runWith turns (some n) s).outputs.size ∨
      (p.runWith turns (some n) s).outputs.size =
        (p.runWith turns none s.unasked).outputs.size := by
  obtain ⟨-, -, hhalted | hsame⟩ := precedes_unasked hc hw
  · obtain hfault | ⟨-, hraised | ⟨m, hm, -, hle⟩⟩ := fault_of_runWith hdepth hhalted
    · cases hfault
    · obtain hup | ⟨m, hm, -⟩ := hraised
      · rw [hflag] at hup
        cases hup
      · rw [hstop] at hm
        cases hm
    · cases hm
      exact .inl hle
  · rw [hsame]
    exact .inr rfl

/-- If the run comes to an end when nobody asks it to stop, it does so with a request at any event
or output too. What it has announced, recorded and handed over by then is the first part of what it
would have without the request, or it is all the same to the end. The flag is up exactly if such a
request was made. No statement starts in the run once it is, and what changes a variable then
belongs to a statement that had started before. A request at an output comes between two statements,
so that it is the last output, and no start and no change follows. -/
theorem request_cuts_short (p : Program) (stopAfter : Option Nat) (s : Session) {whole : Run}
    (h : p.Ends none s.unasked whole) :
    ∃ cut c w, p.Ends stopAfter s cut ∧ cut.outcome.session? = some c ∧
      whole.outcome.session? = some w ∧ s.Precedes c ∧ c.Precedes w ∧
      cut.outputs.toList <+: whole.outputs.toList ∧
      (cut.outcome = .halted .interrupted c ∨ whole = cut.mapSession Session.unasked) ∧
      (∀ turns, p.runWith turns stopAfter s = cut →
        (p.runJournaled turns stopAfter s).1 = cut ∧
        Chronicle stopAfter (#[], s) (p.runJournaled turns stopAfter s).2 (cut.outputs, c) ∧
        isOrderly none (p.runJournaled turns stopAfter s).2 = true) ∧
      (∀ turns stmt t, t.interrupted = true → Stmt.exec turns stmt t = .halted .interrupted t) ∧
      (c.interrupted = true ↔ s.Raised c ∨ Asked stopAfter cut.outputs) ∧
      (∀ n, s.stopAt = some n → s.events.size < n →
        (∀ i e, n ≤ i → c.events.toList[i]? = some e → e.isTrace = false) ∧
        (n ≤ c.events.size → ∀ turns, p.runWith turns stopAfter s = cut →
          ∃ early e late after,
            (p.runJournaled turns stopAfter s).2 = early ++ ⟨.event e, late⟩ :: after ∧
            s.events.size + (shown s.settings.trace early).length + 1 = n ∧
            ∀ m ∈ after, m.late = true ∧ m.isStart = false)) ∧
      ∀ n, stopAfter = some n → 0 < n →
        cut.outputs.size ≤ n ∧
        (s.depth = 0 → s.interrupted = false → s.stopAt = none →
          cut.outputs.size = min n whole.outputs.size) ∧
        (cut.outputs.size = n → ∀ turns, p.runWith turns stopAfter s = cut →
          ∃ early v late after,
            (p.runJournaled turns stopAfter s).2 = early ++ ⟨.output v, late⟩ :: after ∧
            (handed early).length + 1 = n ∧ ∀ m ∈ after, m.late = true ∧ m.isWork = false) := by
  obtain ⟨hend, turns, rfl⟩ := h
  have hcut := ends_of_ends_unasked stopAfter hend
  obtain ⟨c, hc⟩ := Outcome.exists_session hcut
  obtain ⟨w, hw⟩ := Outcome.exists_session hend
  obtain ⟨hcw, houtputs, hfork⟩ := precedes_unasked hc hw
  have hnotes (turns' : Nat) (hsame : p.runWith turns' stopAfter s = p.runWith turns stopAfter s) :
      Chronicle stopAfter (#[], s) (p.runJournaled turns' stopAfter s).2
        ((p.runWith turns stopAfter s).outputs, c) := by
    have hfollows := (runJournaled_follows turns' stopAfter p s).2 c
    rw [hsame] at hfollows
    exact hfollows hc
  have horderly (turns' : Nat) := isOrderly_runJournaled turns' stopAfter p s
  refine ⟨_, c, w, ⟨hcut, turns, rfl⟩, hc, hw, precedes_runWith hc, hcw, houtputs, hfork,
    fun turns' hsame => ⟨?journal, hnotes turns' hsame, horderly turns'⟩,
    fun turns stmt t ht => stmt.exec_of_interrupted turns ht, ?flag, ?event, ?output⟩
  case journal => rw [← hsame, (runJournaled_follows turns' stopAfter p s).1]
  case flag => exact ((hnotes turns rfl).prompted (.refl (not_asked_empty stopAfter))).interrupted
  case event =>
    intro n hstop hlater
    refine ⟨(hnotes turns rfl).isTrace_of_stopAt (horderly turns) hstop hlater, ?_⟩
    intro hpassed turns' hsame
    obtain ⟨early, e, late, after, hsplit, hcount, hlate⟩ :=
      (hnotes turns' hsame).split_at_event hstop hlater hpassed
    have horder := horderly turns'
    rw [hsplit] at horder
    have hquiet := isStart_of_late (isOrderly_after horder) hlate
    exact ⟨early, e, late, after, hsplit, hcount, fun m hm => ⟨hlate m hm, hquiet m hm⟩⟩
  case output =>
    rintro n rfl hpos
    have hmost := (hnotes turns rfl).size_le_of_output (horderly turns) hpos
    refine ⟨hmost, fun hdepth hflag hstop => ?_, fun hall turns' hsame => ?_⟩
    · have hprefix := houtputs.length_le
      simp only [Array.length_toList] at hprefix
      have hreach := outputs_reach hdepth hflag hstop hc hw
      simp only at hmost
      omega
    · obtain ⟨early, v, late, after, hsplit, hcount, hlate⟩ :=
        (hnotes turns' hsame).split_at_output hpos (Nat.le_of_eq hall.symm)
      have horder := horderly turns'
      rw [hsplit] at horder
      have hidle := isWork_of_late (isOrderly_after horder) hlate
      exact ⟨early, v, late, after, hsplit, hcount, fun m hm => ⟨hlate m hm, hidle m hm⟩⟩

/-- `int x, y; x; x = 1; x;` -/
def twoNames : Program :=
  ⟨[.declare (some .int) [⟨"x", ⟨1, 5⟩⟩, ⟨"y", ⟨1, 8⟩⟩] ⟨1, 1⟩,
    .expr (.var "x" ⟨2, 1⟩),
    .assign ⟨"x", ⟨3, 1⟩⟩ (.literal ⟨.int, "1"⟩ ⟨3, 5⟩),
    .expr (.var "x" ⟨4, 1⟩)]⟩

/-- A session that is asked to stop when the first name is declared. -/
def stopsAtFirstName : Session := { settings := { trace := true }, stopAt := some 3 }

/-- The declaration has started and goes on to its second name; nothing starts after it. If the
request comes with the first output instead, the assignment that follows is not made. -/
theorem request_cuts_short_twoNames :
    (∃ whole cut c w, twoNames.Ends none stopsAtFirstName.unasked whole ∧
      twoNames.Ends none stopsAtFirstName cut ∧ cut.outcome = .halted .interrupted c ∧
      whole.outcome.session? = some w ∧ whole.outputs.size = 2 ∧ cut.outputs.size = 0 ∧
      c.events.toList = [.runStarted 4, .started .declare ⟨1, 1⟩, .declared "x" .int,
        .declared "y" .int] ∧
      c.Precedes w ∧ (∀ i e, 3 ≤ i → c.events.toList[i]? = some e → e.isTrace = false) ∧
      ∃ early e late after,
        (twoNames.runJournaled 1 none stopsAtFirstName).2 = early ++ ⟨.event e, late⟩ :: after ∧
        (shown true early).length + 1 = 3 ∧ ∀ m ∈ after, m.late = true ∧ m.isStart = false) ∧
    ∃ whole cut c, twoNames.Ends none ({} : Session).unasked whole ∧
      twoNames.Ends (some 1) {} cut ∧ cut.outcome = .halted .interrupted c ∧
      c.interrupted = true ∧ cut.outputs.size = min 1 whole.outputs.size ∧
      c.events.toList = [.runStarted 4, .declared "x" .int, .declared "y" .int] ∧
      ∃ early v late after,
        (twoNames.runJournaled 1 (some 1) {}).2 = early ++ ⟨.output v, late⟩ :: after ∧
        (handed early).length + 1 = 1 ∧ ∀ m ∈ after, m.late = true ∧ m.isWork = false := by
  refine ⟨?_, ?_⟩
  · have hwhole : twoNames.Ends none stopsAtFirstName.unasked
        (twoNames.runWith 1 none stopsAtFirstName.unasked) := ⟨by decide +kernel, 1, rfl⟩
    obtain ⟨cut, c, w, hcut, hc, hw, -, hcw, -, -, -, -, -, hquiet, -⟩ :=
      request_cuts_short twoNames none stopsAtFirstName hwhole
    have hsame : cut = twoNames.runWith 1 none stopsAtFirstName :=
      hcut.unique ⟨by decide +kernel, 1, rfl⟩
    subst hsame
    have hhalt : (twoNames.runWith 1 none stopsAtFirstName).outcome = .halted .interrupted
        ((twoNames.runWith 1 none stopsAtFirstName).outcome.session?.getD {}) := by
      decide +kernel
    have hevents :
        ((twoNames.runWith 1 none stopsAtFirstName).outcome.session?.getD {}).events.toList =
          [.runStarted 4, .started .declare ⟨1, 1⟩, .declared "x" .int, .declared "y" .int] := by
      decide +kernel
    rw [hc] at hhalt hevents
    have hpassed : 3 ≤ c.events.size := by
      rw [← Array.length_toList, show c.events.toList = _ from hevents]
      decide
    obtain ⟨hnumber, hjournal⟩ := hquiet 3 rfl (by decide)
    obtain ⟨early, e, late, after, hsplit, hcount, hlate⟩ := hjournal hpassed 1 rfl
    exact ⟨_, _, c, w, hwhole, hcut, hhalt, hw, by decide +kernel, by decide +kernel, hevents, hcw,
      hnumber, early, e, late, after, hsplit, (Nat.zero_add _).symm.trans hcount, hlate⟩
  · have hwhole : twoNames.Ends none ({} : Session).unasked
        (twoNames.runWith 1 none ({} : Session).unasked) := ⟨by decide +kernel, 1, rfl⟩
    obtain ⟨cut, c, w, hcut, hc, -, -, -, -, -, -, -, hflag, -, houtput⟩ :=
      request_cuts_short twoNames (some 1) {} hwhole
    have hsame : cut = twoNames.runWith 1 (some 1) {} := hcut.unique ⟨by decide +kernel, 1, rfl⟩
    subst hsame
    have hhalt : (twoNames.runWith 1 (some 1) {}).outcome = .halted .interrupted
        ((twoNames.runWith 1 (some 1) {}).outcome.session?.getD {}) := by
      decide +kernel
    have hevents : ((twoNames.runWith 1 (some 1) {}).outcome.session?.getD {}).events.toList =
        [.runStarted 4, .declared "x" .int, .declared "y" .int] := by
      decide +kernel
    rw [hc] at hhalt hevents
    have hone : (twoNames.runWith 1 (some 1) {}).outputs.size = 1 := by decide +kernel
    obtain ⟨-, hsize, hidle⟩ := houtput 1 rfl Nat.one_pos
    exact ⟨_, _, c, hwhole, hcut, hhalt,
      hflag.mpr (.inr ⟨1, rfl, Nat.one_pos, Nat.le_of_eq hone.symm⟩),
      hsize rfl rfl rfl, hevents, hidle hone 1 rfl⟩

end Program

end TolerantScript
