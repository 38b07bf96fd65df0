import TolerantScript.Event
import TolerantScript.Store

/-!
Sessions: everything that lasts from one call to the next while programs run.

A session can be asked to stop. The request is a flag that the next statement or loop turn sees; it
is raised from outside, or by the session itself when it emits the event with the number `stopAt`.
-/

namespace TolerantScript

structure Settings where
  maxDepth : Nat := 1000
  /-- The most bytes of a string that an operator builds. -/
  maxStringLen : Nat := 16777216
  trace : Bool := false
  deriving DecidableEq

structure Session where
  settings : Settings := {}
  store : Store := {}
  diagnostics : Array Diagnostic := #[]
  /-- All events so far, the oldest first. -/
  events : Array Event := #[]
  /-- How many nodes of a tree are being worked on, each inside the one before. -/
  depth : Nat := 0
  interrupted : Bool := false
  /-- The number of the event, counted from one, that raises the flag. -/
  stopAt : Option Nat := none
  deriving DecidableEq

namespace Session

def emit (s : Session) (e : Event) : Session :=
  let raised := s.stopAt == some (s.events.size + 1)
  { s with interrupted := s.interrupted || raised, events := s.events.push e }

def record (s : Session) (d : Diagnostic) : Session :=
  let s := s.emit (.recorded d)
  { s with diagnostics := s.diagnostics.push d }

theorem toList_events_emit (s : Session) (e : Event) :
    (s.emit e).events.toList = s.events.toList ++ [e] := by
  simp [emit]

theorem toList_diagnostics_record (s : Session) (d : Diagnostic) :
    (s.record d).diagnostics.toList = s.diagnostics.toList ++ [d] := by
  simp [record, emit]

theorem toList_events_record (s : Session) (d : Diagnostic) :
    (s.record d).events.toList = s.events.toList ++ [.recorded d] := by
  simp [record, emit]

def interrupt (s : Session) : Session := { s with interrupted := true }

def resetInterrupt (s : Session) : Session := { s with interrupted := false }

def clearDiagnostics (s : Session) : Session := { s with diagnostics := #[] }

end Session

end TolerantScript
