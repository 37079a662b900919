import FacilityIsa.Draws.Source

/-!
# Scripted draws

A script replays a list of numbers in a circle, one per draw, and counts the
draws. It either reduces each number modulo the bound or hands it out as it
stands, whatever the bound. An empty script draws zeros.
-/

namespace FacilityIsa

structure Script where
  values : List Word
  /-- Whether the bound is ignored. -/
  raw : Bool := false
  taken : Nat := 0
  deriving DecidableEq

namespace Script

/-- The number that the script holds for the next draw. -/
def current (script : Script) : Word :=
  script.values.getD (script.taken % script.values.length) 0

def draw (script : Script) (bound : Word) : Word × Script :=
  (if script.raw then script.current else script.current % bound,
   { script with taken := script.taken + 1 })

instance : DrawSource Script := ⟨draw⟩

theorem taken_draw (script : Script) (bound : Word) :
    (script.draw bound).2.taken = script.taken + 1 := rfl

end Script
end FacilityIsa
