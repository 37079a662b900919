/-!
# Emitted lines

Some instructions emit a line of text. A sink takes the lines; a transcript is
the sink that keeps them all in order, and there is one that keeps none.
-/

namespace FacilityIsa

class LineSink (ω : Type) where
  emit : ω → String → ω

/-- The lines emitted so far, in order. -/
structure Transcript where
  lines : Array String := #[]
  deriving DecidableEq

instance : LineSink Transcript where
  emit transcript line := ⟨transcript.lines.push line⟩

/-- A sink that keeps nothing. -/
structure Discard where
  deriving DecidableEq

instance : LineSink Discard where
  emit discard _ := discard

end FacilityIsa
