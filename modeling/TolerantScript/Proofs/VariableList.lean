import Mathlib.Data.List.Nodup
import TolerantScript.Proofs.Call
import TolerantScript.Proofs.FatalFault
import TolerantScript.Proofs.WellTyped

/-!
The variables of a session. Through all the calls that it serves no two of them have one name, each
holds a value of its type, and the list of their names and types only grows at its end.
-/

namespace TolerantScript

namespace Store

def signature (s : Store) : List (String × Ty) := s.variables.map fun x => (x.name, x.ty)

structure WellFormed (s : Store) : Prop where
  nodup : (s.variables.map (·.name)).Nodup
  typed : ∀ x ∈ s.variables, x.value.ty = x.ty

theorem wellFormed_empty : ({} : Store).WellFormed where
  nodup := List.nodup_nil
  typed := by simp

theorem map_fst_signature (s : Store) : s.signature.map (·.1) = s.variables.map (·.name) := by
  simp [signature]

theorem find?_eq_some_iff {s : Store} (h : (s.variables.map (·.name)).Nodup) (name : String)
    (x : Variable) : s.find? name = some x ↔ x ∈ s.variables ∧ x.name = name := by
  have hsound (y : Variable) (hy : s.find? name = some y) : y ∈ s.variables ∧ y.name = name :=
    ⟨List.mem_of_find?_eq_some hy, by simpa using List.find?_some hy⟩
  refine ⟨hsound x, fun ⟨hx, hname⟩ => ?_⟩
  have hfound : (s.find? name).isSome = true := by
    rw [find?, List.find?_isSome]
    exact ⟨x, hx, by simpa using hname⟩
  obtain ⟨y, hy⟩ := Option.isSome_iff_exists.mp hfound
  obtain ⟨hmem, hsame⟩ := hsound y hy
  rw [hy, List.inj_on_of_nodup_map h hmem hx (hsame.trans hname.symm)]

theorem name_ne_of_declare {s s' : Store} {name : String} {ty : Ty}
    (h : s.declare name ty = .ok s') : ∀ x ∈ s.variables, x.name ≠ name := by
  unfold declare at h
  split at h
  case isTrue => cases h
  case isFalse hnew =>
    intro x hx hname
    refine hnew ?_
    rw [contains, find?, List.find?_isSome]
    exact ⟨x, hx, by simpa using hname⟩

theorem signature_declare {s s' : Store} {name : String} {ty : Ty}
    (h : s.declare name ty = .ok s') : s'.signature = s.signature ++ [(name, ty)] := by
  rw [signature, variables_declare s s' name ty h, List.map_append]
  rfl

theorem WellFormed.declare {s s' : Store} {name : String} {ty : Ty} (h : s.WellFormed)
    (hdeclare : s.declare name ty = .ok s') : s'.WellFormed := by
  have hvariables := variables_declare s s' name ty hdeclare
  constructor
  · have hnew : name ∉ s.variables.map (·.name) := by
      intro hmem
      obtain ⟨x, hx, hname⟩ := List.mem_map.mp hmem
      exact name_ne_of_declare hdeclare x hx hname
    rw [hvariables, List.map_append]
    exact h.nodup.append (List.nodup_singleton name) (by simpa using hnew)
  · intro x hx
    rw [hvariables, List.mem_append, List.mem_singleton] at hx
    obtain hx | rfl := hx
    · exact h.typed x hx
    · exact Value.ty_initial ty

theorem WellFormed.put {s : Store} {name : String} {value : Value} (h : s.WellFormed)
    (hty : s.tyOf? name = some value.ty) : (s.put name value).WellFormed := by
  constructor
  · have hnames : (s.put name value).variables.map (·.name) = s.variables.map (·.name) := by
      rw [← map_fst_signature, ← map_fst_signature]
      exact congrArg (List.map (·.1)) (signature_put s name value)
    rw [hnames]
    exact h.nodup
  · intro x hx
    obtain ⟨y, hy, rfl⟩ := List.mem_map.mp hx
    by_cases hname : (y.name == name) = true
    · -- the variable that was assigned to, so the value has its type
      have hfind := (find?_eq_some_iff h.nodup name y).mpr ⟨hy, by simpa using hname⟩
      rw [tyOf?, hfind] at hty
      rw [if_pos hname]
      exact (Option.some.inj hty).symm
    · rw [if_neg hname]
      exact h.typed y hy

end Store

def growing (start : List (String × Ty)) : Regime where
  Inv s := s.store.WellFormed ∧ start <+: s.store.signature
  Fatal _ _ := True
  inv_enter _ _ h := h
  inv_leave _ h := h
  inv_mark _ _ _ h := h
  fatal_leave _ _ _ := trivial

section

variable {start : List (String × Ty)}

theorem growing_records (p : Position) (fault : Fault) : (growing start).Records p fault :=
  fun _ hs => hs

theorem Task.growing_keeps (task : Task) (d : Nat) :
    task.Keeps (growing start) (fun _ => True) d := by
  refine Task.keeps_of_records (fun _ _ => trivial) growing_records ?_ ?_ d
  · rintro target - - s value stored store hs hassign
    obtain ⟨hty, rfl⟩ := Store.assign_eq_ok hassign
    have hsignature : (s.store.put target.name stored).signature = s.store.signature :=
      Store.signature_put s.store target.name stored
    exact ⟨hs.1.put hty, hsignature ▸ hs.2⟩
  · rintro ty - - - x - s store hs hdeclare
    have hprefix : s.store.signature <+: store.signature := by
      rw [Store.signature_declare hdeclare]
      exact List.prefix_append _ _
    exact ⟨hs.1.declare hdeclare, hs.2.trans hprefix⟩

end

namespace Call

theorem growing_of_leads {c : Call} {s t : Session} (h : c.Leads s t) (hs : s.store.WellFormed) :
    t.store.WellFormed ∧ s.store.signature <+: t.store.signature :=
  inv_of_leads (R := growing s.store.signature) Task.growing_keeps (fun _ _ _ h => h)
    (fun _ _ h => h) h ⟨hs, List.prefix_rfl⟩

theorem wellFormed_of_serves {s t : Session} {calls : List Call} (h : s.Serves calls t)
    (hs : s.store.WellFormed) : t.store.WellFormed := by
  induction h with
  | nil s => exact hs
  | cons hfirst _ ih => exact ih (growing_of_leads hfirst hs).1

/-- Whatever calls a new session has served, and however they ended, the next one leaves variables
of different names, each to be found under its own and with a value of its type; and those there
were before come first, in the same order and with the same types. -/
theorem variables_only_grow (settings : Settings) (stopAt : Option Nat) {calls : List Call}
    {call : Call} {s t : Session} (hs : Session.Serves { settings, stopAt } calls s)
    (ht : call.Leads s t) :
    (t.store.variables.map (·.name)).Nodup ∧
    (∀ name x, t.store.find? name = some x ↔ x ∈ t.store.variables ∧ x.name = name) ∧
    (∀ x ∈ t.store.variables, x.value.ty = x.ty) ∧
    s.store.signature <+: t.store.signature := by
  have hbefore := wellFormed_of_serves hs Store.wellFormed_empty
  obtain ⟨hafter, hprefix⟩ := growing_of_leads ht hbefore
  exact ⟨hafter.nodup, Store.find?_eq_some_iff hafter.nodup, hafter.typed, hprefix⟩

/-- `int x, y;`, then `x = "a"; float x;` and a declaration without a type, which ends the run. -/
def abortedCalls : List Call :=
  [.exec (.declare (some .int) [⟨"x", ⟨1, 5⟩⟩, ⟨"y", ⟨1, 8⟩⟩] ⟨1, 1⟩),
    .run ⟨[.assign ⟨"x", ⟨2, 1⟩⟩ (.literal ⟨.string, "a"⟩ ⟨2, 5⟩),
      .declare (some .float) [⟨"x", ⟨3, 7⟩⟩] ⟨3, 1⟩,
      .declare none [⟨"w", ⟨4, 1⟩⟩] ⟨4, 1⟩]⟩,
    .takeDiagnostics]

/-- `float y, z; z = 1;`, where one name is taken. -/
def oneNameTaken : Call :=
  .execAll [.declare (some .float) [⟨"y", ⟨1, 7⟩⟩, ⟨"z", ⟨1, 10⟩⟩] ⟨1, 1⟩,
    .assign ⟨"z", ⟨2, 1⟩⟩ (.literal ⟨.int, "1"⟩ ⟨2, 5⟩)]

theorem variables_only_grow_oneNameTaken :
    ∃ s t, Session.Serves {} abortedCalls s ∧ oneNameTaken.Leads s t ∧
      s.store.signature = [("x", .int), ("y", .int)] ∧
      t.store.signature = [("x", .int), ("y", .int), ("z", .float)] ∧
      (∀ x ∈ t.store.variables, x.value.ty = x.ty) ∧
      s.store.signature <+: t.store.signature := by
  have hbefore : (Session.serve 1 {} abortedCalls).map (·.store.signature) =
      some [("x", .int), ("y", .int)] := by
    decide +kernel
  have hafter : ((Session.serve 1 {} abortedCalls).bind (oneNameTaken.session? 1)).map
      (·.store.signature) = some [("x", .int), ("y", .int), ("z", .float)] := by
    decide +kernel
  obtain ⟨t, ht, hafter⟩ := Option.map_eq_some_iff.mp hafter
  obtain ⟨s, hs, ht⟩ := Option.bind_eq_some_iff.mp ht
  rw [hs] at hbefore
  have hbefore := Option.some.inj hbefore
  have hlast : oneNameTaken.Leads s t := ⟨1, ht⟩
  obtain ⟨-, -, htyped, hprefix⟩ :=
    variables_only_grow {} none (Session.serves_of_serve hs) hlast
  exact ⟨s, t, Session.serves_of_serve hs, hlast, hbefore, hafter, htyped, hprefix⟩

end Call

end TolerantScript
