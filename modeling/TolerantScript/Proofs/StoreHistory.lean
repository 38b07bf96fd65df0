import Mathlib.Data.List.Nodup
import TolerantScript.Proofs.Provenance
import TolerantScript.Proofs.VariableList

/-!
A store and the requests that were made of it. What a store holds, and so each of its answers, is
decided by the history of requests and answers: declared is what a declaration has added since the
last clearing, and a variable holds what was stored in it last.
-/

namespace TolerantScript.Store

inductive Request where
  | declare (name : String) (ty : Ty)
  | assign (name : String) (value : Value)
  | get (name : String)
  | clear
  deriving DecidableEq

/-- The answer to a request, a value where there is one to give, and the store that is left. -/
def serve (s : Store) : Request → Except Fault (Option Value) × Store
  | .declare name ty =>
    match s.declare name ty with
    | .ok extended => (.ok none, extended)
    | .error fault => (.error fault, s)
  | .assign name value =>
    match s.assign name value with
    | .ok (stored, changed) => (.ok (some stored), changed)
    | .error fault => (.error fault, s)
  | .get name => ((s.get name).map some, s)
  | .clear => (.ok none, empty)

structure Entry where
  request : Request
  answer : Except Fault (Option Value)

/-- The store that the requests lead to, with what was asked and answered before in `log`, and all
entries, the latest first. -/
def replay (s : Store) (log : List Entry) : List Request → Store × List Entry
  | [] => (s, log)
  | request :: requests =>
    let (answer, next) := s.serve request
    next.replay (⟨request, answer⟩ :: log) requests

def after (requests : List Request) : Store := (empty.replay [] requests).1

def history (requests : List Request) : List Entry := (empty.replay [] requests).2

def answer (requests : List Request) (request : Request) : Except Fault (Option Value) :=
  ((after requests).serve request).1

/-! What can be read off a history. -/

namespace Entry

def declared? : Entry → Option (String × Ty)
  | ⟨.declare name ty, .ok _⟩ => some (name, ty)
  | _ => none

def stored? (name : String) : Entry → Option Value
  | ⟨.assign target _, .ok answer⟩ => if target = name then answer else none
  | _ => none

def declares (name : String) (entry : Entry) : Bool := entry.declared?.any (·.1 == name)

end Entry

def sinceClear (log : List Entry) : List Entry := log.takeWhile (·.request != .clear)

def declarations (log : List Entry) : List (String × Ty) :=
  (sinceClear log).reverse.filterMap Entry.declared?

def Declared (log : List Entry) (name : String) : Prop := ∃ ty, (name, ty) ∈ declarations log

/-- What was stored last in the variable of the name, if anything was since its declaration. -/
def lastStored? (log : List Entry) (name : String) : Option Value :=
  ((sinceClear log).takeWhile (!·.declares name)).findSome? (Entry.stored? name)

def variableOf (log : List Entry) (declaration : String × Ty) : Variable :=
  ⟨declaration.1, declaration.2, (lastStored? log declaration.1).getD (.initial declaration.2)⟩

structure Tells (log : List Entry) (s : Store) : Prop where
  nodup : ((declarations log).map (·.1)).Nodup
  contents : s.variables = (declarations log).map (variableOf log)

/-! One more entry. -/

section

variable {log : List Entry} {entry : Entry}

theorem sinceClear_cons (h : entry.request ≠ .clear) :
    sinceClear (entry :: log) = entry :: sinceClear log := by
  simp [sinceClear, h]

theorem declarations_cons (h : entry.request ≠ .clear) :
    declarations (entry :: log) = declarations log ++ entry.declared?.toList := by
  rw [declarations, sinceClear_cons h, List.reverse_cons, List.filterMap_append, declarations]
  cases hd : entry.declared? <;> simp [hd]

theorem lastStored?_of_declares {name : String} (h : entry.request ≠ .clear)
    (hd : entry.declares name = true) : lastStored? (entry :: log) name = none := by
  simp [lastStored?, sinceClear_cons h, hd]

theorem lastStored?_of_not_declares {name : String} (h : entry.request ≠ .clear)
    (hd : entry.declares name = false) :
    lastStored? (entry :: log) name = (entry.stored? name).or (lastStored? log name) := by
  simp only [lastStored?, sinceClear_cons h, List.takeWhile_cons, hd, Bool.not_false, if_true,
    List.findSome?_cons]
  cases entry.stored? name <;> rfl

theorem Tells.still {s : Store} (h : Tells log s) (hclear : entry.request ≠ .clear)
    (hdeclared : entry.declared? = none) (hstored : ∀ name, entry.stored? name = none) :
    Tells (entry :: log) s := by
  have hnames (name : String) : entry.declares name = false := by simp [Entry.declares, hdeclared]
  have hdeclarations : declarations (entry :: log) = declarations log := by
    simp [declarations_cons hclear, hdeclared]
  have hvariable : variableOf (entry :: log) = variableOf log := by
    funext d
    simp [variableOf, lastStored?_of_not_declares hclear (hnames d.1), hstored]
  constructor
  · rw [hdeclarations]
    exact h.nodup
  · rw [hdeclarations, hvariable]
    exact h.contents

end

/-! What a store that the history tells of has under a name. -/

namespace Tells

variable {log : List Entry} {s s' : Store} {name : String}

theorem names (h : Tells log s) : s.variables.map (·.name) = (declarations log).map (·.1) := by
  rw [h.contents, List.map_map]
  rfl

theorem find?_eq_some (h : Tells log s) {ty : Ty} (hty : (name, ty) ∈ declarations log) :
    s.find? name = some (variableOf log (name, ty)) := by
  have hnodup : (s.variables.map (·.name)).Nodup := by
    rw [h.names]
    exact h.nodup
  rw [find?_eq_some_iff hnodup, h.contents]
  exact ⟨List.mem_map_of_mem hty, rfl⟩

theorem find?_eq_none (h : Tells log s) (hname : ¬Declared log name) : s.find? name = none := by
  rw [find?, List.find?_eq_none, h.contents]
  intro x hx hsame
  obtain ⟨d, hd, rfl⟩ := List.mem_map.mp hx
  have hsame : d.1 = name := by simpa [variableOf] using hsame
  exact hname ⟨d.2, hsame ▸ hd⟩

/-! Each request leaves a store that the history tells of. -/

theorem declare {ty : Ty} (h : Tells log s) (hs : s.declare name ty = .ok s') :
    Tells (⟨.declare name ty, .ok none⟩ :: log) s' := by
  have hnew : ∀ d ∈ declarations log, d.1 ≠ name := by
    intro d hd
    exact name_ne_of_declare hs (variableOf log d) (h.contents ▸ List.mem_map_of_mem hd)
  have hdeclarations : declarations (⟨.declare name ty, .ok none⟩ :: log) =
      declarations log ++ [(name, ty)] := declarations_cons (by simp)
  have hold : ∀ d ∈ declarations log,
      variableOf (⟨.declare name ty, .ok none⟩ :: log) d = variableOf log d := by
    intro d hd
    have hother : Entry.declares d.1 ⟨.declare name ty, .ok none⟩ = false := by
      simpa [Entry.declares, Entry.declared?] using (hnew d hd).symm
    rw [variableOf, lastStored?_of_not_declares (by simp) hother]
    rfl
  have hlast : variableOf (⟨.declare name ty, .ok none⟩ :: log) (name, ty) =
      ⟨name, ty, .initial ty⟩ := by
    rw [variableOf, lastStored?_of_declares (by simp) (by simp [Entry.declares, Entry.declared?])]
    rfl
  constructor
  · have hfresh : name ∉ (declarations log).map (·.1) := by
      intro hmem
      obtain ⟨d, hd, hname⟩ := List.mem_map.mp hmem
      exact hnew d hd hname
    rw [hdeclarations, List.map_append]
    exact h.nodup.append (List.nodup_singleton name) (by simpa using hfresh)
  · rw [variables_declare s s' name ty hs, hdeclarations, List.map_append, List.map_congr_left hold,
      ← h.contents, List.map_singleton, hlast]

theorem put (h : Tells log s) (value stored : Value) :
    Tells (⟨.assign name value, .ok (some stored)⟩ :: log) (s.put name stored) := by
  have hdeclarations : declarations (⟨.assign name value, .ok (some stored)⟩ :: log) =
      declarations log := by
    simp [declarations_cons, Entry.declared?]
  constructor
  · rw [hdeclarations]
    exact h.nodup
  · rw [hdeclarations, Store.put, h.contents, List.map_map]
    refine List.map_congr_left fun d _ => ?_
    rw [Function.comp_apply, variableOf, variableOf, lastStored?_of_not_declares (by simp) rfl]
    by_cases hname : d.1 = name
    · simp [Entry.stored?, hname]
    · have hother : ¬name = d.1 := fun hsame => hname hsame.symm
      simp [Entry.stored?, hname, hother]

theorem clear (log : List Entry) (answer : Except Fault (Option Value)) :
    Tells (⟨.clear, answer⟩ :: log) empty := by
  have hnone : declarations (⟨.clear, answer⟩ :: log) = [] := by simp [declarations, sinceClear]
  constructor
  · rw [hnone]
    exact List.nodup_nil
  · rw [hnone]
    rfl

theorem serve (h : Tells log s) (request : Request) :
    Tells (⟨request, (s.serve request).1⟩ :: log) (s.serve request).2 := by
  cases request with
  | declare name ty =>
    simp only [Store.serve]
    cases hs : s.declare name ty with
    | ok s' => exact h.declare hs
    | error fault => exact h.still (by simp) rfl fun _ => rfl
  | assign name value =>
    simp only [Store.serve]
    cases hs : s.assign name value with
    | ok r =>
      obtain ⟨-, hput⟩ := assign_eq_ok hs
      rw [hput]
      exact h.put value r.1
    | error fault => exact h.still (by simp) rfl fun _ => rfl
  | get name => exact h.still (by simp) rfl fun _ => rfl
  | clear => exact clear log _

theorem replay (h : Tells log s) (requests : List Request) :
    Tells (s.replay log requests).2 (s.replay log requests).1 := by
  induction requests generalizing s log with
  | nil => exact h
  | cons request requests ih => exact ih (h.serve request)

end Tells

theorem tells_history (requests : List Request) : Tells (history requests) (after requests) := by
  have hnew : Tells [] empty := ⟨List.nodup_nil, rfl⟩
  exact hnew.replay requests

/-! Answers of such a store. -/

namespace Tells

variable {log : List Entry} {s : Store} {name : String}

theorem declare_of_declared (h : Tells log s) (hname : Declared log name) (ty : Ty) :
    (s.serve (.declare name ty)).1 = .error (.duplicateDeclaration name) := by
  obtain ⟨_, hty⟩ := hname
  simp [Store.serve, Store.declare, contains, h.find?_eq_some hty]

theorem declare_of_not_declared (h : Tells log s) (hname : ¬Declared log name) (ty : Ty) :
    (s.serve (.declare name ty)).1 = .ok none := by
  simp [Store.serve, Store.declare, contains, h.find?_eq_none hname]

theorem get_of_declared (h : Tells log s) {ty : Ty} (hty : (name, ty) ∈ declarations log) :
    (s.serve (.get name)).1 = .ok (some ((lastStored? log name).getD (.initial ty))) := by
  rw [Store.serve, get, h.find?_eq_some hty]
  rfl

theorem get_of_not_declared (h : Tells log s) (hname : ¬Declared log name) :
    (s.serve (.get name)).1 = .error (.undeclaredVariable name) := by
  rw [Store.serve, get, h.find?_eq_none hname]
  rfl

theorem assign_of_declared (h : Tells log s) {ty : Ty} (hty : (name, ty) ∈ declarations log)
    (value : Value) :
    (s.serve (.assign name value)).1 = (value.convert ty (some name)).map some := by
  simp only [Store.serve, assign, h.find?_eq_some hty, variableOf]
  cases value.convert ty (some name) <;> rfl

theorem assign_of_not_declared (h : Tells log s) (hname : ¬Declared log name) (value : Value) :
    (s.serve (.assign name value)).1 = .error (.undeclaredVariable name) := by
  simp only [Store.serve, assign, h.find?_eq_none hname]

end Tells

theorem serve_of_error {s : Store} {request : Request} {fault : Fault}
    (h : (s.serve request).1 = .error fault) : (s.serve request).2 = s := by
  cases request with
  | declare name ty =>
    simp only [serve] at h ⊢
    cases hs : s.declare name ty with
    | ok s' => simp [hs] at h
    | error fault => rfl
  | assign name value =>
    simp only [serve] at h ⊢
    cases hs : s.assign name value with
    | ok r => simp [hs] at h
    | error fault => rfl
  | get name => rfl
  | clear => cases h

/-- Whatever was asked of a new store, what it answers next is decided by what it was asked and has
answered before. A name can be declared if it is not, and only then. A variable that is declared
holds what was stored in it last, or else the initial value of its type, and stores a value as its
type converts it; one that is not declared is refused. The names are listed in the order of their
declarations, and a request that fails leaves the store as it was. -/
theorem answers_by_history (requests : List Request) :
    (∀ name ty,
      (answer requests (.declare name ty) = .ok none ↔ ¬Declared (history requests) name) ∧
      (Declared (history requests) name →
        answer requests (.declare name ty) = .error (.duplicateDeclaration name))) ∧
    (∀ name,
      (answer requests (.get name) = .error (.undeclaredVariable name) ↔
        ¬Declared (history requests) name) ∧
      ∀ ty, (name, ty) ∈ declarations (history requests) →
        answer requests (.get name) =
          .ok (some ((lastStored? (history requests) name).getD (.initial ty)))) ∧
    (∀ name value,
      (answer requests (.assign name value) = .error (.undeclaredVariable name) ↔
        ¬Declared (history requests) name) ∧
      ∀ ty, (name, ty) ∈ declarations (history requests) →
        answer requests (.assign name value) = (value.convert ty (some name)).map some) ∧
    (after requests).variables.map (·.name) = (declarations (history requests)).map (·.1) ∧
    ((declarations (history requests)).map (·.1)).Nodup ∧
    ∀ request fault, answer requests request = .error fault →
      ((after requests).serve request).2 = after requests := by
  have h := tells_history requests
  refine ⟨fun name ty => ⟨⟨?declare, fun hname => h.declare_of_not_declared hname ty⟩,
      fun hname => h.declare_of_declared hname ty⟩,
    fun name => ⟨⟨?get, h.get_of_not_declared⟩, fun ty => h.get_of_declared⟩,
    fun name value => ⟨⟨?assign, fun hname => h.assign_of_not_declared hname value⟩,
      fun ty hty => h.assign_of_declared hty value⟩,
    h.names, h.nodup, fun request fault => serve_of_error⟩
  case declare =>
    intro hok hname
    rw [answer, h.declare_of_declared hname ty] at hok
    cases hok
  case get =>
    rintro hget ⟨ty, hty⟩
    rw [answer, h.get_of_declared hty] at hget
    cases hget
  case assign =>
    rintro hassign ⟨ty, hty⟩
    rw [answer, h.assign_of_declared hty value] at hassign
    cases hconvert : value.convert ty (some name) with
    | ok stored =>
      rw [hconvert] at hassign
      cases hassign
    | error fault =>
      rw [hconvert] at hassign
      cases hassign
      cases Value.fault_of_convert hconvert

/-- A refused declaration and a refused assignment between others, and a name that a clearing
took. -/
def mixedRequests : List Request :=
  [.declare "y" .int, .clear, .declare "x" .float, .declare "x" .int, .assign "x" (.int 2),
    .assign "x" (.string "a"), .get "y"]

/-- `x` is declared and holds the integer as a float; `y` is not declared any more. -/
theorem answers_by_history_mixedRequests :
    declarations (history mixedRequests) = [("x", .float)] ∧
    lastStored? (history mixedRequests) "x" = some (.float (Single.ofInt 2)) ∧
    answer mixedRequests (.declare "x" .int) = .error (.duplicateDeclaration "x") ∧
    answer mixedRequests (.declare "y" .int) = .ok none ∧
    answer mixedRequests (.get "x") = .ok (some (.float (Single.ofInt 2))) ∧
    answer mixedRequests (.get "y") = .error (.undeclaredVariable "y") ∧
    answer mixedRequests (.assign "x" (.string "a")) =
      ((Value.string "a").convert .float (some "x")).map some := by
  have hall : declarations (history mixedRequests) = [("x", .float)] := by decide
  have hlast : lastStored? (history mixedRequests) "x" = some (.float (Single.ofInt 2)) := by
    decide +kernel
  have hx : ("x", Ty.float) ∈ declarations (history mixedRequests) := by simp [hall]
  have hy : ¬Declared (history mixedRequests) "y" := by simp [Declared, hall]
  obtain ⟨hdeclare, hget, hassign, -⟩ := answers_by_history mixedRequests
  refine ⟨hall, hlast, (hdeclare "x" .int).2 ⟨.float, hx⟩, (hdeclare "y" .int).1.mpr hy, ?_,
    (hget "y").1.mpr hy, (hassign "x" (.string "a")).2 .float hx⟩
  rw [(hget "x").2 .float hx, hlast]
  rfl

end TolerantScript.Store
