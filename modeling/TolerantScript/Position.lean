/-! Places in the text of a program. -/

namespace TolerantScript

structure Position where
  line : UInt32
  column : UInt32
  deriving DecidableEq

namespace Position

def unknown : Position := ⟨0, 0⟩

instance : Inhabited Position := ⟨unknown⟩

def text (p : Position) : String := s!"{p.line.toNat}:{p.column.toNat}"

end Position

end TolerantScript
