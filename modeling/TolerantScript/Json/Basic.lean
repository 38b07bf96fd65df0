/-! JSON values, and the three ways in which reading them from text can fail. -/

namespace TolerantScript

/-- A JSON value. Of numbers only the natural ones are kept; a tree has no use for any other. -/
inductive Json where
  | null
  | bool (b : Bool)
  | natural (n : Nat)
  | number
  | string (s : String)
  | array (items : List Json)
  | object (members : List (String × Json))

inductive ReadError where
  /-- The text is not JSON. -/
  | malformed
  /-- The text ends inside a value. -/
  | truncated
  /-- The text is JSON, but not of the shape asked for. -/
  | misshapen
  deriving DecidableEq

abbrev Reader (α : Type) : Type := List Char → Except ReadError (α × List Char)

namespace ReadError

variable {α β : Type}

@[simp] theorem ok_bind (a : α) (f : α → Except ReadError β) : (Except.ok a >>= f) = f a := rfl

@[simp] theorem error_bind (error : ReadError) (f : α → Except ReadError β) :
    (Except.error error >>= f) = .error error := rfl

@[simp] theorem pure_eq_ok (a : α) : (pure a : Except ReadError α) = .ok a := rfl

end ReadError

end TolerantScript
