import TolerantScript.Proofs.Loop

/-!
Declarations of several names at once. Each name of the list either becomes a variable or is
reported, by whether it stands there for the first time and no variable had it before.
-/

namespace TolerantScript

def Ident.toVariable (ty : Ty) (x : Ident) : Variable := ⟨x.name, ty, .initial ty⟩

def Ident.duplicate (x : Ident) : Diagnostic := ⟨x.position, .duplicateDeclaration x.name⟩

namespace Store

/-- Whether the name at the index is new: no variable's, and not in the list before. -/
def introduces (s : Store) (names : List Ident) (entry : Ident × Nat) : Bool :=
  !(s.contains entry.1.name || (names.take entry.2).any (·.name == entry.1.name))

def newcomers (s : Store) (names : List Ident) : List Ident :=
  (names.zipIdx.filter (s.introduces names)).map (·.1)

def repeats (s : Store) (names : List Ident) : List Ident :=
  (names.zipIdx.filter (!s.introduces names ·)).map (·.1)

theorem length_newcomers_add_repeats (s : Store) (names : List Ident) :
    (s.newcomers names).length + (s.repeats names).length = names.length := by
  simp only [newcomers, repeats, List.length_map, ← List.countP_eq_length_filter]
  have hsplit := List.length_eq_countP_add_countP (s.introduces names) (l := names.zipIdx)
  simpa using hsplit.symm

/-! One name of the list. -/

def add (s : Store) (x : Variable) : Store := ⟨s.variables ++ [x]⟩

theorem contains_add (s : Store) (x : Variable) (name : String) :
    (s.add x).contains name = (s.contains name || x.name == name) := by
  simp only [contains, find?, add, List.isSome_find?]
  simp

theorem introduces_known {s : Store} {x : Ident} (hx : s.contains x.name = true) (rest : List Ident)
    (y : Ident) (i : Nat) : s.introduces (x :: rest) (y, i + 1) = s.introduces rest (y, i) := by
  by_cases hname : x.name = y.name
  · rw [hname] at hx
    simp [introduces, hx]
  · have hbeq : (x.name == y.name) = false := beq_false_of_ne hname
    simp [introduces, hbeq]

theorem introduces_new (s : Store) (ty : Ty) (x : Ident) (rest : List Ident) (y : Ident) (i : Nat) :
    s.introduces (x :: rest) (y, i + 1) = (s.add (x.toVariable ty)).introduces rest (y, i) := by
  simp [introduces, contains_add, Ident.toVariable, Bool.or_assoc]

theorem map_filter_zipIdx_succ {p q : Ident × Nat → Bool} (h : ∀ y i, p (y, i + 1) = q (y, i))
    (names : List Ident) :
    ((names.zipIdx 1).filter p).map (·.1) = (names.zipIdx.filter q).map (·.1) := by
  rw [List.zipIdx_succ, List.filter_map, List.map_map]
  have hpq : (p ∘ fun entry => (entry.1, entry.2 + 1)) = q := funext fun entry => h entry.1 entry.2
  rw [← hpq]
  rfl

section

variable {s : Store} {x : Ident}

theorem newcomers_known (hx : s.contains x.name = true) (rest : List Ident) :
    s.newcomers (x :: rest) = s.newcomers rest := by
  have hfirst : s.introduces (x :: rest) (x, 0) = false := by simp [introduces, hx]
  simp only [newcomers, List.zipIdx_cons, List.filter_cons, hfirst]
  exact map_filter_zipIdx_succ (introduces_known hx rest) rest

theorem repeats_known (hx : s.contains x.name = true) (rest : List Ident) :
    s.repeats (x :: rest) = x :: s.repeats rest := by
  have hfirst : s.introduces (x :: rest) (x, 0) = false := by simp [introduces, hx]
  simp only [repeats, List.zipIdx_cons, List.filter_cons, hfirst]
  refine congrArg (x :: ·) (map_filter_zipIdx_succ (fun y i => ?_) rest)
  rw [introduces_known hx]

theorem newcomers_new (hx : s.contains x.name = false) (ty : Ty) (rest : List Ident) :
    s.newcomers (x :: rest) = x :: (s.add (x.toVariable ty)).newcomers rest := by
  have hfirst : s.introduces (x :: rest) (x, 0) = true := by simp [introduces, hx]
  simp only [newcomers, List.zipIdx_cons, List.filter_cons, hfirst]
  exact congrArg (x :: ·) (map_filter_zipIdx_succ (s.introduces_new ty x rest) rest)

theorem repeats_new (hx : s.contains x.name = false) (ty : Ty) (rest : List Ident) :
    s.repeats (x :: rest) = (s.add (x.toVariable ty)).repeats rest := by
  have hfirst : s.introduces (x :: rest) (x, 0) = true := by simp [introduces, hx]
  simp only [repeats, List.zipIdx_cons, List.filter_cons, hfirst]
  refine map_filter_zipIdx_succ (fun y i => ?_) rest
  rw [s.introduces_new ty x rest]

end

theorem repeats_of_known {s : Store} {names : List Ident}
    (h : ∀ x ∈ names, s.contains x.name = true) :
    s.newcomers names = [] ∧ s.repeats names = names := by
  induction names with
  | nil => exact ⟨rfl, rfl⟩
  | cons x rest ih =>
    have hx := h x (by simp)
    obtain ⟨hnew, hrep⟩ := ih fun y hy => h y (List.mem_cons_of_mem x hy)
    rw [newcomers_known hx, repeats_known hx, hrep]
    exact ⟨hnew, rfl⟩

theorem known_or_newcomer {s : Store} {names : List Ident} {x : Ident} (hx : x ∈ names) :
    s.contains x.name = true ∨ ∃ y ∈ s.newcomers names, y.name = x.name := by
  induction names generalizing s with
  | nil => cases hx
  | cons z rest ih =>
    cases hz : s.contains z.name with
    | true =>
      rw [newcomers_known hz]
      obtain rfl | hx := List.mem_cons.mp hx
      · exact .inl hz
      · exact ih hx
    | false =>
      -- the type makes no difference to which names are known
      rw [newcomers_new hz .int]
      obtain rfl | hx := List.mem_cons.mp hx
      · exact .inr ⟨x, by simp, rfl⟩
      · obtain hknown | ⟨y, hy, hname⟩ := ih (s := s.add (z.toVariable .int)) hx
        · rw [contains_add, Bool.or_eq_true, beq_iff_eq] at hknown
          exact hknown.imp id fun hname => ⟨z, by simp, hname⟩
        · exact .inr ⟨y, List.mem_cons_of_mem z hy, hname⟩

end Store

namespace Session

/-- The other session is this one with the first occurrences of new names added as variables, and
with all other occurrences reported. -/
structure Declares (s : Session) (ty : Ty) (names : List Ident) (t : Session) : Prop where
  «variables» : t.store.variables =
    s.store.variables ++ (s.store.newcomers names).map (Ident.toVariable ty)
  diagnostics : t.diagnostics.toList =
    s.diagnostics.toList ++ (s.store.repeats names).map Ident.duplicate

theorem Declares.contains {s t : Session} {ty : Ty} {names : List Ident} (h : s.Declares ty names t)
    {x : Ident} (hx : x ∈ names) : t.store.contains x.name = true := by
  rw [Store.contains, Store.find?, List.find?_isSome, h.variables]
  obtain hknown | ⟨y, hy, hname⟩ := s.store.known_or_newcomer hx
  · rw [Store.contains, Store.find?, List.find?_isSome] at hknown
    obtain ⟨z, hz, hname⟩ := hknown
    exact ⟨z, List.mem_append_left _ hz, hname⟩
  · exact ⟨y.toVariable ty, List.mem_append_right _ (List.mem_map_of_mem hy), beq_iff_eq.mpr hname⟩

theorem Declares.size_add_size {s t : Session} {ty : Ty} {names : List Ident}
    (h : s.Declares ty names t) :
    t.store.size + t.diagnostics.size = s.store.size + s.diagnostics.size + names.length := by
  have hvariables := congrArg List.length h.variables
  have hdiagnostics := congrArg List.length h.diagnostics
  simp only [List.length_append, List.length_map, Array.length_toList] at hvariables hdiagnostics
  have hlength := s.store.length_newcomers_add_repeats names
  simp only [Store.size]
  omega

end Session

namespace Action

variable {s : Session} {ty : Ty} {x : Ident} {rest : List Ident}

theorem declareAll_known (hx : s.store.contains x.name = true) :
    declareAll ty (x :: rest) s = declareAll ty rest (s.record x.duplicate) := by
  simp only [declareAll, bind_apply, store, Store.declare, hx]
  rfl

theorem declareAll_new (hx : s.store.contains x.name = false) :
    declareAll ty (x :: rest) s = declareAll ty rest
      ({ s with store := s.store.add (x.toVariable ty) }.emit (.declared x.name ty)) := by
  simp only [declareAll, bind_apply, store, Store.declare, hx]
  rfl

theorem declareAll_declares (ty : Ty) (names : List Ident) (s : Session) :
    ∃ t, declareAll ty names s = .done () t ∧ s.Declares ty names t := by
  induction names generalizing s with
  | nil => exact ⟨s, rfl, by simp [Store.newcomers], by simp [Store.repeats]⟩
  | cons x rest ih =>
    cases hx : s.store.contains x.name with
    | true =>
      obtain ⟨t, ht, hdeclares⟩ := ih (s.record x.duplicate)
      refine ⟨t, (declareAll_known hx).trans ht, ?_, ?_⟩
      · rw [Store.newcomers_known hx]
        exact hdeclares.variables
      · rw [Store.repeats_known hx, hdeclares.diagnostics, Session.toList_diagnostics_record]
        exact List.append_assoc ..
    | false =>
      obtain ⟨t, ht, hdeclares⟩ :=
        ih ({ s with store := s.store.add (x.toVariable ty) }.emit (.declared x.name ty))
      refine ⟨t, (declareAll_new hx).trans ht, ?_, ?_⟩
      · rw [Store.newcomers_new hx ty, hdeclares.variables]
        exact List.append_assoc ..
      · rw [Store.repeats_new hx ty]
        exact hdeclares.diagnostics

end Action

namespace Stmt

theorem exec_declare {s : Session} (h : s.refusal? = none) (turns : Nat) (ty : Ty)
    (names : List Ident) (p : Position) :
    ∃ t, (Stmt.declare (some ty) names p).exec turns s = .done none t ∧ s.Declares ty names t := by
  obtain ⟨hflag, hroom⟩ := s.refusal?_eq_none_iff.mp h
  obtain ⟨t, ht, hdeclares⟩ := Action.declareAll_declares ty names (s.inside .declare p)
  refine ⟨Action.leave t, ?_, ?_, ?_⟩
  · have hwork : (do Action.declareAll ty names; return none : Action (Option Value))
        (s.inside .declare p) = .done none t := by
      rw [Action.bind_apply, ht]
      rfl
    rw [exec]
    exact (Action.begin_apply hflag hroom .declare p _).trans
      (congrArg (Outcome.mapSession Action.leave) hwork)
  · have hvariables := hdeclares.variables
    rw [Session.inside_store] at hvariables
    exact hvariables
  · have hdiagnostics := hdeclares.diagnostics
    rw [Session.inside_store, Session.inside_diagnostics] at hdiagnostics
    exact hdiagnostics

/-- A declaration of names with a type. It does nothing in a session that was asked to stop or has
no level left. In any other it gives no value, and all variables stay as they are. After them it
adds, in the order of the list, the names that stand there for the first time and that no variable
has, with the type and its initial value; every other occurrence is reported where it stands, also
in the order of the list. So each name is added or reported, and once more the same declaration adds
none and reports them all. -/
theorem declaration_list (turns : Nat) (ty : Ty) (names : List Ident) (p : Position) (s : Session) :
    (∀ fault, s.refusal? = some fault →
      (Stmt.declare (some ty) names p).exec turns s = .halted fault s) ∧
    (s.refusal? = none → ∃ t, (Stmt.declare (some ty) names p).exec turns s = .done none t ∧
      t.store.variables = s.store.variables ++ (s.store.newcomers names).map (Ident.toVariable ty) ∧
      t.diagnostics.toList = s.diagnostics.toList ++ (s.store.repeats names).map Ident.duplicate ∧
      t.store.size + t.diagnostics.size = s.store.size + s.diagnostics.size + names.length ∧
      ∀ t', t'.store = t.store → t'.refusal? = none →
        ∃ u, (Stmt.declare (some ty) names p).exec turns t' = .done none u ∧ u.store = t'.store ∧
          u.diagnostics.toList = t'.diagnostics.toList ++ names.map Ident.duplicate) := by
  constructor
  · intro fault h
    exact exec_of_refusal h turns _
  · intro h
    obtain ⟨t, ht, hdeclares⟩ := exec_declare h turns ty names p
    refine ⟨t, ht, hdeclares.variables, hdeclares.diagnostics, hdeclares.size_add_size, ?_⟩
    intro t' hstore h'
    obtain ⟨u, hu, hagain⟩ := exec_declare h' turns ty names p
    have hknown : ∀ x ∈ names, t'.store.contains x.name = true := by
      rw [hstore]
      exact fun x hx => hdeclares.contains hx
    obtain ⟨hnew, hrep⟩ := Store.repeats_of_known hknown
    have hvariables := hagain.variables
    have hdiagnostics := hagain.diagnostics
    rw [hnew, List.map_nil, List.append_nil] at hvariables
    rw [hrep] at hdiagnostics
    exact ⟨u, hu, congrArg Store.mk hvariables, hdiagnostics⟩

/-- The list of `string a, x, a, b, x, b;` -/
def sixNames : List Ident :=
  [⟨"a", ⟨1, 8⟩⟩, ⟨"x", ⟨1, 11⟩⟩, ⟨"a", ⟨1, 14⟩⟩, ⟨"b", ⟨1, 17⟩⟩, ⟨"x", ⟨1, 20⟩⟩, ⟨"b", ⟨1, 23⟩⟩]

/-- A session that knows `x`, traces, has one level, and is asked to stop in the middle of the
list. -/
def knowsOneName : Session :=
  { settings := { maxDepth := 1, trace := true }
    store := ⟨[⟨"x", .int, .int 5⟩]⟩
    stopAt := some 3 }

/-- Two names are added and four occurrences reported; the flag that went up on the way stops only
the next declaration, which reports all six once the flag is down again. -/
theorem declaration_list_sixNames :
    knowsOneName.refusal? = none ∧
    ∃ t, (Stmt.declare (some .string) sixNames ⟨1, 1⟩).exec 0 knowsOneName = .done none t ∧
      t.store.variables =
        [⟨"x", .int, .int 5⟩, ⟨"a", .string, .string ""⟩, ⟨"b", .string, .string ""⟩] ∧
      t.diagnostics.toList =
        [⟨⟨1, 11⟩, .duplicateDeclaration "x"⟩, ⟨⟨1, 14⟩, .duplicateDeclaration "a"⟩,
        ⟨⟨1, 20⟩, .duplicateDeclaration "x"⟩, ⟨⟨1, 23⟩, .duplicateDeclaration "b"⟩] ∧
      (Stmt.declare (some .string) sixNames ⟨1, 1⟩).exec 0 t = .halted .interrupted t ∧
      ∃ u, (Stmt.declare (some .string) sixNames ⟨1, 1⟩).exec 0 t.resetInterrupt = .done none u ∧
        u.store = t.store ∧ u.diagnostics.size = 10 := by
  have hstart : knowsOneName.refusal? = none := rfl
  obtain ⟨t, ht, hvariables, hdiagnostics, -, hagain⟩ :=
    (declaration_list 0 .string sixNames ⟨1, 1⟩ knowsOneName).2 hstart
  have hend : ((Stmt.declare (some .string) sixNames ⟨1, 1⟩).exec 0 knowsOneName).session?.map
      (fun t => (t.refusal?, t.resetInterrupt.refusal?, t.diagnostics.size)) =
      some (some .interrupted, none, 4) := by
    decide +kernel
  rw [ht] at hend
  obtain ⟨hflag, hend⟩ := Prod.mk.inj (Option.some.inj hend)
  obtain ⟨hdown, hsize⟩ := Prod.mk.inj hend
  have hhalted := (declaration_list 0 .string sixNames ⟨1, 1⟩ t).1 .interrupted hflag
  obtain ⟨u, hu, hstore, hreported⟩ := hagain t.resetInterrupt rfl hdown
  refine ⟨hstart, t, ht, hvariables, hdiagnostics, hhalted, u, hu, hstore, ?_⟩
  rw [← Array.length_toList, hreported, List.length_append, Array.length_toList]
  exact congrArg (· + 6) hsize

end Stmt

end TolerantScript
