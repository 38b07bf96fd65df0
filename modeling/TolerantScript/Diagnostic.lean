import TolerantScript.Fault

/-! Faults recorded at a position, and their text, one to a line. -/

namespace TolerantScript

structure Diagnostic where
  position : Position
  fault : Fault
  deriving DecidableEq

namespace Diagnostic

def text (d : Diagnostic) : String := s!"{d.position.text} - {d.fault.message}"

def listText (ds : List Diagnostic) : String := "\n".intercalate (ds.map text)

end Diagnostic

end TolerantScript
