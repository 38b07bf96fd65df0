import TolerantScript.Json.Basic
import TolerantScript.Text.Digits

/-!
JSON text on many lines: two blanks of indentation a level, every item and every member on a line of
its own, an empty array or object without a line break.
-/

namespace TolerantScript.Json

def controlEscape (c : Char) : List Char :=
  ['\\', 'u', '0', '0', Nat.digitChar (c.toNat / 16), Nat.digitChar (c.toNat % 16)]

def escape (c : Char) : List Char :=
  if c = '"' then ['\\', '"']
  else if c = '\\' then ['\\', '\\']
  else if c = '\n' then ['\\', 'n']
  else if c = '\r' then ['\\', 'r']
  else if c = '\t' then ['\\', 't']
  else if c.toNat = 0x08 then ['\\', 'b']
  else if c.toNat = 0x0C then ['\\', 'f']
  else if c.toNat < 0x20 then controlEscape c
  else [c]

def quoted (s : String) (rest : List Char) : List Char :=
  '"' :: s.toList.foldr (fun c cs => escape c ++ cs) ('"' :: rest)

def newLine (indent : Nat) (rest : List Char) : List Char :=
  '\n' :: (List.replicate (2 * indent) ' ' ++ rest)

mutual

/-- The text of a value at a level of indentation, in front of `rest`. -/
def write (indent : Nat) (rest : List Char) : Json → List Char
  | .null => 'n' :: 'u' :: 'l' :: 'l' :: rest
  | .bool true => 't' :: 'r' :: 'u' :: 'e' :: rest
  | .bool false => 'f' :: 'a' :: 'l' :: 's' :: 'e' :: rest
  | .natural n => Text.decimal n ++ rest
  | .number => '0' :: '.' :: '0' :: rest
  | .string s => quoted s rest
  | .array [] => '[' :: ']' :: rest
  | .array (item :: items) =>
    '[' :: newLine (indent + 1)
      (write (indent + 1) (writeItems (indent + 1) (newLine indent (']' :: rest)) items) item)
  | .object [] => '{' :: '}' :: rest
  | .object ((key, value) :: members) =>
    '{' :: newLine (indent + 1) (quoted key (':' :: ' ' ::
      write (indent + 1) (writeMembers (indent + 1) (newLine indent ('}' :: rest)) members) value))

def writeItems (indent : Nat) (rest : List Char) : List Json → List Char
  | [] => rest
  | item :: items => ',' :: newLine indent (write indent (writeItems indent rest items) item)

def writeMembers (indent : Nat) (rest : List Char) : List (String × Json) → List Char
  | [] => rest
  | (key, value) :: members =>
    ',' :: newLine indent (quoted key (':' :: ' ' ::
      write indent (writeMembers indent rest members) value))

end

def text (j : Json) : String := String.ofList (j.write 0 [])

end TolerantScript.Json
