import TolerantScript.Session.Basic

/-!
Actions on a session. An action gives a value, or is halted by a fatal fault, or is unfinished
because a loop has used up the turns it was allowed. What it did to the session before a fault stays
done.
-/

namespace TolerantScript

inductive Outcome (α : Type) where
  | done (value : α) (session : Session)
  | halted (fault : Fault) (session : Session)
  | unfinished
  deriving DecidableEq

def Action (α : Type) : Type := Session → Outcome α

namespace Action

variable {α β : Type}

instance : Monad Action where
  pure a := fun s => .done a s
  bind x f := fun s =>
    match x s with
    | .done a s' => f a s'
    | .halted fault s' => .halted fault s'
    | .unfinished => .unfinished

theorem pure_apply (a : α) (s : Session) : (pure a : Action α) s = .done a s := rfl

theorem bind_apply (x : Action α) (f : α → Action β) (s : Session) :
    (x >>= f) s =
      match x s with
      | .done a s' => f a s'
      | .halted fault s' => .halted fault s'
      | .unfinished => .unfinished := rfl

def halt (fault : Fault) : Action α := fun s => .halted fault s

def giveUp : Action α := fun _ => .unfinished

def store : Action Store := fun s => .done s.store s

def settings : Action Settings := fun s => .done s.settings s

def setStore (store : Store) : Action Unit := fun s => .done () { s with store }

def emit (e : Event) : Action Unit := fun s => .done () (s.emit e)

def report (position : Position) (fault : Fault) : Action Unit :=
  fun s => .done () (s.record ⟨position, fault⟩)

/-- The value of a result; for a fault that is not fatal, the fallback, and the fault is
reported. -/
def recover (position : Position) (fallback : Value) : Except Fault Value → Action Value
  | .ok v => pure v
  | .error fault => if fault.isFatal then halt fault else do
    report position fault
    return fallback

/-- The truth of the value an action gives. A value that has none is reported and counts as
false. -/
def truthOf (position : Position) (x : Action Value) : Action Bool := do
  match (← x).truth with
  | .ok b => return b
  | .error fault =>
    report position fault
    return false

def checkInterrupt : Action Unit := fun s =>
  if s.interrupted then .halted .interrupted s else .done () s

def leave (s : Session) : Session := { s with depth := s.depth - 1 }

/-- The action one level further in, if there is a level left. However it ends, that level is
left. -/
def nested (x : Action α) : Action α := fun s =>
  if s.settings.maxDepth ≤ s.depth then
    .halted (.nestingTooDeep (s.depth + 1) s.settings.maxDepth) s
  else
    match x { s with depth := s.depth + 1 } with
    | .done a s' => .done a (leave s')
    | .halted fault s' => .halted fault (leave s')
    | .unfinished => .unfinished

end Action

end TolerantScript
