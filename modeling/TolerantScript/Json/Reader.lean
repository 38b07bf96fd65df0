import TolerantScript.Json.Number
import TolerantScript.Json.Quoted

/-!
JSON values from text. No more than so many arrays and objects may be open at once, which also
bounds the recursion; the items of each are counted against a number that the length of the text
supplies.
-/

namespace TolerantScript.Json

def isSpace (c : Char) : Bool := c = ' ' || c = '\n' || c = '\t' || c = '\r'

def skipSpace (cs : List Char) : List Char := cs.dropWhile isSpace

def readWord : (word : List Char) → List Char → Except ReadError (List Char)
  | [], cs => .ok cs
  | _ :: _, [] => .error .truncated
  | w :: word, c :: cs => if c = w then readWord word cs else .error .malformed

def readNumber (ranged : Bool) (negative : Bool) (cs : List Char) :
    Except ReadError (Json × List Char) := do
  let (n, rest) ← Numeral.read (if ranged then .truncated else .malformed) negative cs
  if ranged && !n.inRange then .error .malformed else return (n.value, rest)

def readScalar : Reader Json
  | [] => .error .truncated
  | 'n' :: cs => do return (.null, ← readWord ['u', 'l', 'l'] cs)
  | 't' :: cs => do return (.bool true, ← readWord ['r', 'u', 'e'] cs)
  | 'f' :: cs => do return (.bool false, ← readWord ['a', 'l', 's', 'e'] cs)
  | '"' :: cs => do
    let (s, rest) ← Quoted.read cs
    return (.string s, rest)
  | '-' :: cs => readNumber true true cs
  | c :: cs => if c.isDigit then readNumber true false (c :: cs) else .error .malformed

inductive Next where
  | item (cs : List Char)
  | closed (rest : List Char)

/-- Looks for the next item of a container that ends with `close`. All but the first come after a
comma, and no comma stands before the end. -/
def next (close : Char) (first : Bool) (cs : List Char) : Except ReadError Next :=
  match skipSpace cs with
  | [] => .error .truncated
  | c :: rest =>
    if c = close then .ok (.closed rest)
    else if first then .ok (.item (c :: rest))
    else if c = ',' then
      match skipSpace rest with
      | [] => .error .truncated
      | d :: rest => if d = close then .error .malformed else .ok (.item (d :: rest))
    else .error .malformed

def readItems {σ : Type} (close : Char) (item : σ → Reader σ) :
    (most : Nat) → (first : Bool) → σ → Reader σ
  | 0, _, _, _ => .error .truncated
  | most + 1, first, acc, cs => do
    match ← next close first cs with
    | .closed rest => return (acc, rest)
    | .item cs =>
      let (acc, rest) ← item acc cs
      readItems close item most false acc rest

def readMember {σ : Type} (value : σ → String → Reader σ) (acc : σ) : Reader σ
  | '"' :: cs => do
    let (key, rest) ← Quoted.read cs
    value acc key rest
  | _ => .error .malformed

def readColon (cs : List Char) : Except ReadError (List Char) :=
  match skipSpace cs with
  | [] => .error .truncated
  | c :: rest => if c = ':' then .ok rest else .error .malformed

/-- A value in which at most `levels` arrays and objects are open at once, none of them with `most`
items or more. -/
def readValue (most : Nat) : (levels : Nat) → Reader Json
  | 0, cs =>
    match skipSpace cs with
    | '[' :: _ | '{' :: _ => .error .malformed
    | cs => readScalar cs
  | levels + 1, cs =>
    match skipSpace cs with
    | '[' :: cs => do
      let item acc cs := do
        let (v, rest) ← readValue most levels cs
        return (v :: acc, rest)
      let (items, rest) ← readItems ']' item most true [] cs
      return (.array items.reverse, rest)
    | '{' :: cs => do
      let member acc key cs := do
        let (v, rest) ← readValue most levels (← readColon cs)
        return ((key, v) :: acc, rest)
      let (members, rest) ← readItems '}' (readMember member) most true [] cs
      return (.object members.reverse, rest)
    | cs => readScalar cs

end TolerantScript.Json
