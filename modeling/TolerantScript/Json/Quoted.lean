import TolerantScript.Json.Basic
import TolerantScript.Text.Digits

/-!
Strings in JSON text, read one character at a time. Characters outside the basic plane may be
written as two numbered escapes, a leading and a trailing half.
-/

namespace TolerantScript.Json.Quoted

inductive Mode where
  | plain
  /-- After a backslash. -/
  | escape
  /-- In a numbered escape, after the digits given, and after a leading half if there is one. -/
  | code (lead : Option Nat) (digits : List Char)
  /-- After a leading half, where a backslash has to follow. -/
  | half (lead : Nat)
  /-- After a leading half and a backslash. -/
  | halfEscape (lead : Nat)

def unescape (c : Char) : Option Char :=
  if c = '"' ∨ c = '\\' ∨ c = '/' then some c
  else if c = 'b' then some (Char.ofNat 0x08)
  else if c = 'f' then some (Char.ofNat 0x0C)
  else if c = 'n' then some '\n'
  else if c = 'r' then some '\r'
  else if c = 't' then some '\t'
  else none

def isLeading (n : Nat) : Bool := 0xD800 ≤ n && n ≤ 0xDBFF

def isTrailing (n : Nat) : Bool := 0xDC00 ≤ n && n ≤ 0xDFFF

def combine (lead trail : Nat) : Char :=
  Char.ofNat ((lead - 0xD800) * 0x400 + (trail - 0xDC00) + 0x10000)

/-- What the number of an escape leads to. With `pairs`, halves have to come in pairs. -/
def afterCode (pairs : Bool) (lead : Option Nat) (n : Nat) (read : List Char) :
    Except ReadError (Mode × List Char) :=
  if !pairs then .ok (.plain, Char.ofNat n :: read)
  else
    match lead with
    | none =>
      if isTrailing n then .error .malformed
      else if isLeading n then .ok (.half n, read)
      else .ok (.plain, Char.ofNat n :: read)
    | some h => if isTrailing n then .ok (.plain, combine h n :: read) else .error .malformed

/-- The next mode, and what was read with the newest character first. The digits of a numbered
escape are looked at once they fill four bytes. -/
def step (pairs : Bool) (mode : Mode) (read : List Char) (c : Char) :
    Except ReadError (Mode × List Char) :=
  match mode with
  | .plain =>
    if c = '\\' then .ok (.escape, read)
    else if c.toNat < 0x20 then .error .malformed
    else .ok (.plain, c :: read)
  | .escape =>
    if c = 'u' then .ok (.code none [], read)
    else
      match unescape c with
      | some d => .ok (.plain, d :: read)
      | none => .error .malformed
  | .code lead digits =>
    let digits := digits ++ [c]
    if (String.ofList digits).utf8ByteSize < 4 then .ok (.code lead digits, read)
    else
      match Text.numeral? 16 digits with
      | some n => afterCode pairs lead n read
      | none => .error .malformed
  | .half lead => if c = '\\' then .ok (.halfEscape lead, read) else .error .malformed
  | .halfEscape lead => if c = 'u' then .ok (.code (some lead) [], read) else .error .malformed

def isPlain : Mode → Bool
  | .plain => true
  | _ => false

def readFrom (pairs : Bool) (mode : Mode) (read : List Char) : Reader (List Char)
  | [] => .error .truncated
  | c :: cs =>
    if c = '"' && isPlain mode then .ok (read.reverse, cs)
    else
      match step pairs mode read c with
      | .ok (mode, read) => readFrom pairs mode read cs
      | .error e => .error e

def read (cs : List Char) : Except ReadError (String × List Char) := do
  let (content, rest) ← readFrom true .plain [] cs
  return (String.ofList content, rest)

/-- The text after a string whose content does not matter, not even whether its halves pair. -/
def skip (cs : List Char) : Except ReadError (List Char) := do
  let (_, rest) ← readFrom false .plain [] cs
  return rest

end TolerantScript.Json.Quoted
