import TolerantScript.Json.Skip
import TolerantScript.Tree.Decoding

/-!
Programs from text. A program is an object with the member `stmts`, or an array with that list
alone; other members are skipped. The statements are taken from the text one by one, so a statement
of the wrong shape is refused before the text after it is looked at, and the kind of a statement is
judged as soon as it is met.
-/

namespace TolerantScript

open Json

/-- How many arrays and objects of a program's text may be open at once. -/
def maxOpen : Nat := 127

/-- Levels left inside a statement of the program, which is the third thing open. -/
def stmtLevels : Nat := maxOpen - 3

/-- What is wrong where another kind of value is asked for. A value that is no array and no object
is still read, since its text may be at fault. -/
def refuse {α : Type} (cs : List Char) : Except ReadError α :=
  match skipSpace cs with
  | '[' :: _ | '{' :: _ => .error .misshapen
  | cs => do
    let _ ← readScalar cs
    .error .misshapen

def shaped {α : Type} : Option α → Except ReadError α
  | some a => .ok a
  | none => .error .misshapen

namespace Stmt

/-- The kind of a statement of the program, which only its name can give. -/
def readKind (cs : List Char) : Except ReadError (Kind × List Char) :=
  match skipSpace cs with
  | '"' :: cs => do
    let (name, rest) ← Quoted.read cs
    return (← shaped (Kind.all.find? fun k => k.tag == name), rest)
  | cs => refuse cs

/-- A member of a statement of the program, after the kind, if it was met, and the parts so far. -/
def readPart (most : Nat) : Option Kind × List (String × Json) → String →
    Reader (Option Kind × List (String × Json))
  | (kind, parts), key, cs =>
    if key = "kind" then
      if kind.isSome then .error .misshapen
      else do
        let (kind, rest) ← readKind (← readColon cs)
        return ((some kind, parts), rest)
    else do
      let (v, rest) ← readValue most stmtLevels (← readColon cs)
      return ((kind, (key, v) :: parts), rest)

def ofParts (kind : Kind) (parts : Json) : Except ReadError Stmt :=
  shaped (ofNode? (Expr.ofJson? stmtLevels) (ofJson? stmtLevels) kind parts)

def read (most : Nat) (cs : List Char) : Except ReadError (Stmt × List Char) :=
  match skipSpace cs with
  | '{' :: cs => do
    let ((kind, parts), rest) ← readItems '}' (readMember (readPart most)) most true (none, []) cs
    return (← ofParts (← shaped kind) (.object parts.reverse), rest)
  | '[' :: cs => do
    match ← next ']' true cs with
    | .closed _ => .error .misshapen
    | .item cs =>
      let (kind, cs) ← readKind cs
      let item acc cs := do
        let (v, rest) ← readValue most stmtLevels cs
        return (v :: acc, rest)
      let (parts, rest) ← readItems ']' item most false [] cs
      return (← ofParts kind (.array parts.reverse), rest)
  | cs => refuse cs

def readAll (most : Nat) (cs : List Char) : Except ReadError (List Stmt × List Char) :=
  match skipSpace cs with
  | '[' :: cs => do
    let item acc cs := do
      let (stmt, rest) ← read most cs
      return (stmt :: acc, rest)
    let (stmts, rest) ← readItems ']' item most true [] cs
    return (stmts.reverse, rest)
  | cs => refuse cs

end Stmt

namespace Program

def readPart (most : Nat) : Option (List Stmt) → String → Reader (Option (List Stmt))
  | stmts, key, cs =>
    if key = "stmts" then
      if stmts.isSome then .error .misshapen
      else do
        let (stmts, rest) ← Stmt.readAll most (← readColon cs)
        return (some stmts, rest)
    else do return (stmts, ← skipValue (← readColon cs))

def readFront (most : Nat) (cs : List Char) : Except ReadError (Program × List Char) :=
  match skipSpace cs with
  | '{' :: cs => do
    let (stmts, rest) ← readItems '}' (readMember (readPart most)) most true none cs
    return (⟨← shaped stmts⟩, rest)
  | '[' :: cs => do
    match ← next ']' true cs with
    | .closed _ => .error .misshapen
    | .item cs =>
      let (stmts, rest) ← Stmt.readAll most cs
      match skipSpace rest with
      | [] => .error .truncated
      | c :: rest => if c = ']' then return (⟨stmts⟩, rest) else .error .malformed
  | cs => refuse cs

/-- The program that a text writes, with nothing but space after it. -/
def read (text : String) : Except ReadError Program := do
  let cs := text.toList
  let (program, rest) ← readFront (cs.length + 1) cs
  if (skipSpace rest).isEmpty then return program else .error .malformed

end Program

end TolerantScript
