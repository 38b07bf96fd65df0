import TolerantScript.Json.Reader

/-!
Values that are skipped. Only the form of the text matters: arrays and objects may be nested to any
depth, numbers may have any size, and halves of characters may stand alone.
-/

namespace TolerantScript.Json

def skipScalar (cs : List Char) : Except ReadError (List Char) :=
  match cs with
  | '"' :: cs => Quoted.skip cs
  | '-' :: cs => do return (← readNumber false true cs).2
  | c :: cs' =>
    if c.isDigit then do return (← readNumber false false cs).2
    else do return (← readScalar (c :: cs')).2
  | [] => .error .truncated

/-- The start of the value of the next item: in an object its name and colon come first. -/
def itemStart (close : Char) (cs : List Char) : Except ReadError (List Char) :=
  if close = '}' then
    match skipSpace cs with
    | [] => .error .truncated
    | c :: rest => if c = '"' then do readColon (← Quoted.skip rest) else .error .malformed
  else .ok cs

/-- Skips from the start of a value, or from the end of one, to the end of the outermost. The open
containers are listed by the characters that close them, the innermost first. -/
def skipFrom : (steps : Nat) → (inside : List Char) → (atValue : Bool) → List Char →
    Except ReadError (List Char)
  | 0, _, _, _ => .error .truncated
  | _ + 1, [], false, cs => .ok cs
  | steps + 1, close :: outer, false, cs =>
    match skipSpace cs with
    | [] => .error .truncated
    | c :: rest =>
      if c = ',' then do skipFrom steps (close :: outer) true (← itemStart close rest)
      else if c = close then skipFrom steps outer false rest
      else .error .malformed
  | steps + 1, inside, true, cs =>
    match skipSpace cs with
    | [] => .error .truncated
    | c :: rest =>
      if c = '[' ∨ c = '{' then
        let close := if c = '[' then ']' else '}'
        match skipSpace rest with
        | [] => .error .truncated
        | d :: rest' =>
          if d = close then skipFrom steps inside false rest'
          else do skipFrom steps (close :: inside) true (← itemStart close (d :: rest'))
      else do skipFrom steps inside false (← skipScalar (c :: rest))

def skipValue (cs : List Char) : Except ReadError (List Char) :=
  skipFrom (2 * cs.length + 2) [] true cs

end TolerantScript.Json
