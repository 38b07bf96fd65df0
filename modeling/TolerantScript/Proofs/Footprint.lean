import Mathlib.Data.List.Forall2
import TolerantScript.Proofs.Agreement
import TolerantScript.Proofs.FatalFault
import TolerantScript.Proofs.WellTyped

/-!
What the text of a program says about its effects. However an execution ends, it has changed the
values of variables only that some assignment in the text names, and has added variables only that
some declaration in the text lists.
-/

namespace TolerantScript

def Task.declarations : Task → List (String × Ty)
  | .declare (some ty) names _ => names.map fun x => (x.name, ty)
  | _ => []

namespace Program

def targets (p : Program) : List String := p.work.filterMap Task.target?

def declarations (p : Program) : List (String × Ty) := p.work.flatMap Task.declarations

end Program

structure Variable.Kept (targets : List String) (x y : Variable) : Prop where
  name : y.name = x.name
  ty : y.ty = x.ty
  value : x.name ∉ targets → y.value = x.value

structure Variable.Added (start : Store) (targets : List String) (declarations : List (String × Ty))
    (x : Variable) : Prop where
  new : start.contains x.name = false
  listed : (x.name, x.ty) ∈ declarations
  value : x.name ∉ targets → x.value = .initial x.ty

def Store.Extends (targets : List String) (declarations : List (String × Ty)) (start s : Store) :
    Prop :=
  ∃ kept added, s.variables = kept ++ added ∧
    List.Forall₂ (Variable.Kept targets) start.variables kept ∧
    ∀ x ∈ added, x.Added start targets declarations

section

variable {targets : List String} {declarations : List (String × Ty)} {name : String}

theorem Variable.Kept.put {x y : Variable} (h : x.Kept targets y) (hname : name ∈ targets)
    (value : Value) : x.Kept targets (if y.name == name then { y with value } else y) := by
  by_cases htarget : y.name = name
  · rw [if_pos (by simpa using htarget)]
    have hmem : x.name ∈ targets := by
      rw [← h.name, htarget]
      exact hname
    exact ⟨h.name, h.ty, fun hnot => absurd hmem hnot⟩
  · rw [if_neg (by simpa using htarget)]
    exact h

theorem Variable.Added.put {start : Store} {x : Variable} (h : x.Added start targets declarations)
    (hname : name ∈ targets) (value : Value) :
    (if x.name == name then { x with value } else x).Added start targets declarations := by
  by_cases htarget : x.name = name
  · rw [if_pos (by simpa using htarget)]
    exact ⟨h.new, h.listed, fun hnot => absurd (htarget ▸ hname) hnot⟩
  · rw [if_neg (by simpa using htarget)]
    exact h

theorem Variable.Kept.names {old kept : List Variable}
    (h : List.Forall₂ (Variable.Kept targets) old kept) : kept.map (·.name) = old.map (·.name) := by
  induction h with
  | nil => rfl
  | cons hx _ ih => rw [List.map_cons, List.map_cons, hx.name, ih]

theorem Variable.Kept.eq_of_not_mem {x y : Variable} (h : x.Kept targets y)
    (hname : x.name ∉ targets) : y = x := by
  have hvalue := h.value hname
  obtain ⟨hname, hty, -⟩ := h
  cases x
  cases y
  simp_all

theorem Variable.Kept.find? {old kept : List Variable}
    (h : List.Forall₂ (Variable.Kept targets) old kept) (hname : name ∉ targets) :
    kept.find? (·.name == name) = old.find? (·.name == name) := by
  induction h with
  | nil => rfl
  | @cons x y old kept hx _ ih =>
    by_cases hfound : x.name = name
    · rw [hx.eq_of_not_mem (hfound ▸ hname), List.find?_cons_of_pos (by simpa using hfound),
        List.find?_cons_of_pos (by simpa using hfound)]
    · rw [List.find?_cons_of_neg (by simpa [hx.name] using hfound), ih,
        List.find?_cons_of_neg (by simpa using hfound)]

namespace Store.Extends

variable {start s : Store}

theorem refl (s : Store) : s.Extends targets declarations s := by
  refine ⟨s.variables, [], (List.append_nil _).symm, ?_, by simp⟩
  exact List.forall₂_same.mpr fun _ _ => ⟨rfl, rfl, fun _ => rfl⟩

theorem put (h : start.Extends targets declarations s) (hname : name ∈ targets) (value : Value) :
    start.Extends targets declarations (s.put name value) := by
  obtain ⟨kept, added, hvariables, hkept, hadded⟩ := h
  refine ⟨_, _, (congrArg (List.map _) hvariables).trans List.map_append, ?_, ?_⟩
  · rw [List.forall₂_map_right_iff]
    exact hkept.imp fun _ _ hx => hx.put hname value
  · intro y hy
    obtain ⟨x, hx, rfl⟩ := List.mem_map.mp hy
    exact (hadded x hx).put hname value

theorem contains_of_start (h : start.Extends targets declarations s)
    (hname : start.contains name = true) : s.contains name = true := by
  obtain ⟨kept, added, hvariables, hkept, -⟩ := h
  rw [contains, find?, List.find?_isSome] at hname ⊢
  obtain ⟨x, hx, hxname⟩ := hname
  have hmem : x.name ∈ kept.map (·.name) := by
    rw [Variable.Kept.names hkept]
    exact List.mem_map_of_mem hx
  obtain ⟨y, hy, hyname⟩ := List.mem_map.mp hmem
  refine ⟨y, ?_, by rw [hyname]; exact hxname⟩
  rw [hvariables]
  exact List.mem_append_left added hy

theorem declare {s' : Store} {ty : Ty} (h : start.Extends targets declarations s)
    (hlisted : (name, ty) ∈ declarations) (hdeclare : s.declare name ty = .ok s') :
    start.Extends targets declarations s' := by
  have hnew : start.contains name = false := by
    cases hcontains : start.contains name with
    | false => rfl
    | true =>
      rw [Store.declare, if_pos (h.contains_of_start hcontains)] at hdeclare
      cases hdeclare
  obtain ⟨kept, added, hvariables, hkept, hadded⟩ := h
  refine ⟨kept, added ++ [⟨name, ty, .initial ty⟩], ?_, hkept, ?_⟩
  · rw [variables_declare s s' name ty hdeclare, hvariables, List.append_assoc]
  · intro x hx
    obtain hx | hx := List.mem_append.mp hx
    · exact hadded x hx
    · rw [List.mem_singleton.mp hx]
      exact ⟨hnew, hlisted, fun _ => rfl⟩

theorem find?_of_start (h : start.Extends targets declarations s) (hname : name ∉ targets)
    (hstart : start.contains name = true) : s.find? name = start.find? name := by
  obtain ⟨kept, added, hvariables, hkept, -⟩ := h
  obtain ⟨x, hx⟩ := Option.isSome_iff_exists.mp hstart
  have hfind : kept.find? (·.name == name) = some x := (Variable.Kept.find? hkept hname).trans hx
  rw [hx, Store.find?, hvariables, List.find?_append, hfind, Option.some_or]

end Store.Extends

end

/-- A session that executing the program, or any part of it, may lead to from `start`. -/
structure Program.Affects (p : Program) (start s : Session) : Prop where
  settings : s.settings = start.settings
  store : start.store.Extends p.targets p.declarations s.store

def affecting (p : Program) (start : Session) : Regime where
  Inv := p.Affects start
  Fatal _ _ := True
  inv_enter _ _ h := { h with }
  inv_leave _ h := { h with }
  inv_mark _ _ _ h := { h with }
  fatal_leave _ _ _ := trivial

section

variable {p : Program} {start : Session}

theorem affecting_records (position : Position) (fault : Fault) :
    (affecting p start).Records position fault :=
  fun _ h => { h with }

theorem Task.affecting_keeps {task : Task} (htask : task ∈ p.work) (d : Nat) :
    task.Keeps (affecting p start) (fun _ => True) d := by
  refine Task.keeps_of_records (fun _ _ => trivial) affecting_records ?_ ?_ d
  · rintro target e rfl s value stored store hs hassign
    obtain ⟨-, rfl⟩ := Store.assign_eq_ok hassign
    have htarget : target.name ∈ p.targets := List.mem_filterMap.mpr ⟨_, htask, rfl⟩
    exact ⟨hs.settings, hs.store.put htarget stored⟩
  · rintro ty names position rfl x hx s store hs hdeclare
    have hlisted : (x.name, ty) ∈ p.declarations :=
      List.mem_flatMap.mpr ⟨_, htask, List.mem_map_of_mem hx⟩
    exact ⟨hs.settings, hs.store.declare hlisted hdeclare⟩

end

namespace Program

variable {p : Program} {s t : Session} {turns : Nat}

theorem affects_of_execAll {last : Option Value}
    (h : (Stmt.execAll turns last p.stmts s).session? = some t) : p.Affects s t := by
  have hall := Stmt.execAll_keeps (affecting p s) (fun _ => True) turns p.stmts last s.depth
    (fun _ _ => trivial) fun k task hk => by
      have htask : task ∈ p.work := by
        rw [work, Stmt.map_snd_tasksAll p.stmts 0 s.depth]
        exact List.mem_map_of_mem hk
      exact Task.affecting_keeps htask k
  exact ((hall s rfl ⟨rfl, .refl _⟩).session h).2

theorem affects_of_runWith {stopAfter : Option Nat}
    (h : (p.runWith turns stopAfter s).outcome.session? = some t) : p.Affects s t := by
  have hexec (stmt : Stmt) (hstmt : stmt ∈ p.stmts) :
      (affecting p s).Keeps s.depth (stmt.exec turns) fun _ => True := by
    refine (Stmt.exec_keeps _ (fun _ => True) turns stmt s.depth fun k task hk => ?_).weaken
      fun _ _ => trivial
    exact Task.affecting_keeps (mem_work hstmt (Stmt.mem_work hk)) k
  exact inv_of_runWith hexec (fun _ ht => { ht with }) ⟨rfl, .refl _⟩ h

/-- However the statements are executed, as a block or as a program, and however that ends: the
settings stay; all variables there were keep their names, types and places, and those that no
assignment names keep their values; and each variable after them is listed with its type in some
declaration, and holds the initial value of that type if no assignment names it. -/
theorem effects_bounded_by_text (p : Program) (turns : Nat) (s t : Session)
    (h : (∃ last, (Stmt.execAll turns last p.stmts s).session? = some t) ∨
      ∃ stopAfter, (p.runWith turns stopAfter s).outcome.session? = some t) :
    t.settings = s.settings ∧ s.store.Extends p.targets p.declarations t.store ∧
      ∀ name, s.store.contains name = true → name ∉ p.targets →
        t.store.find? name = s.store.find? name := by
  have haffects : p.Affects s t := by
    obtain ⟨last, h⟩ | ⟨stopAfter, h⟩ := h
    · exact affects_of_execAll h
    · exact affects_of_runWith h
  exact ⟨haffects.settings, haffects.store,
    fun _ hstart hname => haffects.store.find?_of_start hname hstart⟩

/-- `float w, y; while (x < 7) x = x + 1; if (false) int n; else bool b;`, and then a declaration
without a type, so that `z = w;` is not reached. -/
def abandoned : Program :=
  ⟨[.declare (some .float) [⟨"w", ⟨1, 7⟩⟩, ⟨"y", ⟨1, 10⟩⟩] ⟨1, 1⟩,
    .whileDo (.binary .lt (.var "x" ⟨2, 8⟩) (.literal ⟨.int, "7"⟩ ⟨2, 12⟩) ⟨2, 10⟩)
      (.assign ⟨"x", ⟨2, 15⟩⟩
        (.binary .add (.var "x" ⟨2, 19⟩) (.literal ⟨.int, "1"⟩ ⟨2, 23⟩) ⟨2, 21⟩)) ⟨2, 1⟩,
    .branch (.literal ⟨.bool, "false"⟩ ⟨3, 5⟩) (.declare (some .int) [⟨"n", ⟨3, 16⟩⟩] ⟨3, 12⟩)
      (some (.declare (some .bool) [⟨"b", ⟨3, 29⟩⟩] ⟨3, 24⟩)) ⟨3, 1⟩,
    .declare none [⟨"v", ⟨4, 1⟩⟩] ⟨4, 1⟩,
    .assign ⟨"z", ⟨5, 1⟩⟩ (.var "w" ⟨5, 5⟩)]⟩

def abandonedStart : Session :=
  { settings := { trace := true },
    store := ⟨[⟨"x", .int, .int 5⟩, ⟨"y", .string, .string "k"⟩, ⟨"z", .bool, .bool true⟩]⟩ }

theorem effects_bounded_by_text_abandoned :
    abandoned.targets = ["x", "z"] ∧
    abandoned.declarations = [("w", .float), ("y", .float), ("n", .int), ("b", .bool)] ∧
    ∃ t, (Stmt.execAll 3 none abandoned.stmts abandonedStart).session? = some t ∧
      t.store.variables = [⟨"x", .int, .int 7⟩, ⟨"y", .string, .string "k"⟩,
        ⟨"z", .bool, .bool true⟩, ⟨"w", .float, .initial .float⟩, ⟨"b", .bool, .bool false⟩] ∧
      t.settings = abandonedStart.settings ∧
      abandonedStart.store.Extends abandoned.targets abandoned.declarations t.store ∧
      t.store.find? "y" = abandonedStart.store.find? "y" := by
  refine ⟨by decide +kernel, by decide +kernel, ?_⟩
  have hend : ((Stmt.execAll 3 none abandoned.stmts abandonedStart).session?).map
      (·.store.variables) = some [⟨"x", .int, .int 7⟩, ⟨"y", .string, .string "k"⟩,
        ⟨"z", .bool, .bool true⟩, ⟨"w", .float, .initial .float⟩, ⟨"b", .bool, .bool false⟩] := by
    decide +kernel
  obtain ⟨t, ht, hvariables⟩ := Option.map_eq_some_iff.mp hend
  obtain ⟨hsettings, hstore, hkept⟩ :=
    effects_bounded_by_text abandoned 3 abandonedStart t (.inl ⟨none, ht⟩)
  exact ⟨t, ht, hvariables, hsettings, hstore, hkept "y" (by decide +kernel) (by decide +kernel)⟩

end Program

end TolerantScript
