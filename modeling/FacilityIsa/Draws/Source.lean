import FacilityIsa.Word

/-!
# Sources of draws

Some instructions draw a number below a bound. Where the numbers come from is
left open: a source answers each draw and becomes the source of the next one.
An instruction may not rely on the bound being kept.
-/

namespace FacilityIsa

class DrawSource (ρ : Type) where
  /-- Draws a number meant to be below the bound, and the source for later draws. -/
  below : ρ → Word → Word × ρ

end FacilityIsa
