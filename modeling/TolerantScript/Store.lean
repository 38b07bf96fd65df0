import TolerantScript.Value.Convert

/-!
The variables of a program: typed, in the order of their declarations, all in one scope.

A variable is kept under its own name, which is its only key: there is no second copy of the name
that could differ from it. It keeps its type. Assigning to it converts the value to that type or
leaves the store as it was.
-/

namespace TolerantScript

structure Variable where
  name : String
  ty : Ty
  value : Value
  deriving DecidableEq

structure Store where
  «variables» : List Variable := []
  deriving DecidableEq

namespace Store

def empty : Store := {}

def find? (s : Store) (name : String) : Option Variable :=
  s.variables.find? (·.name == name)

def contains (s : Store) (name : String) : Bool := (s.find? name).isSome

def size (s : Store) : Nat := s.variables.length

def declare (s : Store) (name : String) (ty : Ty) : Except Fault Store :=
  if s.contains name then .error (.duplicateDeclaration name)
  else .ok { «variables» := s.variables ++ [⟨name, ty, .initial ty⟩] }

def get (s : Store) (name : String) : Except Fault Value :=
  match s.find? name with
  | some x => .ok x.value
  | none => .error (.undeclaredVariable name)

def put (s : Store) (name : String) (value : Value) : Store :=
  { «variables» := s.variables.map fun x => if x.name == name then { x with value } else x }

/-- Stores the value, converted to the variable's type, and gives what was stored. -/
def assign (s : Store) (name : String) (value : Value) : Except Fault (Value × Store) :=
  match s.find? name with
  | some x => do
    let stored ← value.convert x.ty (some name)
    return (stored, s.put name stored)
  | none => .error (.undeclaredVariable name)

theorem variables_declare (s s' : Store) (name : String) (ty : Ty)
    (h : s.declare name ty = .ok s') :
    s'.variables = s.variables ++ [⟨name, ty, .initial ty⟩] := by
  unfold declare at h
  split at h
  · simp at h
  · cases h
    rfl

theorem signature_put (s : Store) (name : String) (value : Value) :
    (s.put name value).variables.map (fun x => (x.name, x.ty)) =
      s.variables.map (fun x => (x.name, x.ty)) := by
  simp only [put, List.map_map]
  apply List.map_congr_left
  intro x _
  simp only [Function.comp_apply]
  split <;> rfl

theorem find?_put (s : Store) (name other : String) (value : Value) :
    (s.put name value).find? other =
      (s.find? other).map fun x => if x.name == name then { x with value } else x := by
  simp only [find?, put, List.find?_map]
  congr 2
  funext x
  simp only [Function.comp_apply]
  split <;> rfl

end Store

end TolerantScript
