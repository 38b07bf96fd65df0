import TolerantScript.Json.Basic

/-!
JSON values taken apart. A record is an object with named parts, or an array of the parts in order.
A node is a record whose first part says what kind of node it is.
-/

namespace TolerantScript.Json

def string? : Json → Option String
  | .string s => some s
  | _ => none

def items? : Json → Option (List Json)
  | .array items => some items
  | _ => none

def word? : Json → Option UInt32
  | .natural n => if n < UInt32.size then some (UInt32.ofNat n) else none
  | _ => none

/-- One of a set of names, as a string or as an object with that one member and nothing in it. -/
def symbol? {α : Type} (ofName? : String → Option α) : Json → Option α
  | .string s => ofName? s
  | .object [(s, .null)] | .object [(s, .object [])] => ofName? s
  | _ => none

/-- The parts with the given names. In an object other members do not count and no part is given
twice; an array has at least `least` parts and none beyond the names. -/
def record? (names : List String) (least : Nat) : Json → Option (List (String × Json))
  | .object members =>
    let known := members.filter fun m => names.contains m.1
    if (known.map Prod.fst).Nodup then some known else none
  | .array items =>
    if least ≤ items.length ∧ items.length ≤ names.length then some (names.zip items) else none
  | _ => none

/-- A kind by its name or by its place among all kinds. -/
def kind? {κ : Type} (all : List κ) (tag : κ → String) (j : Json) : Option κ :=
  match j with
  | .string s => all.find? fun k => tag k == s
  | .natural n => all[n]?
  | _ => none

def node? {κ : Type} (all : List κ) (tag : κ → String) : Json → Option (κ × Json)
  | .object members =>
    match members.filter fun m => m.1 == "kind" with
    | [(_, v)] =>
      (kind? all tag v).map fun k => (k, .object (members.filter fun m => m.1 != "kind"))
    | _ => none
  | .array (v :: parts) => (kind? all tag v).map fun k => (k, .array parts)
  | _ => none

end TolerantScript.Json
