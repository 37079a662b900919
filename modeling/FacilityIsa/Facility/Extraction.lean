import FacilityIsa.CheckedSum
import FacilityIsa.Facility.RiskTier

/-!
# Extraction

An extraction draws one of ten outcomes and makes one attempt more than the
draw. What the attempts yield is scaled by the risk tier in rounded binary
arithmetic and cut off to an integer, and one more is added. Neither sum is
meant to wrap, and no draw below the bound is too great for them; where one is,
there is no amount.
-/

namespace FacilityIsa

/-- How many outcomes an extraction draws from. -/
def extractionBound : Word := 10

/-- The attempts that a draw stands for. -/
def extractionAttempts? (draw : Word) : Option Word :=
  addUnsigned? 1 draw

/-- What attempts yield at a risk tier, cut off to an integer. -/
def scaledYield (tier : RiskTier) (attempts : Word) : Word :=
  (tier.extractionMultiplier.mul (Binary32.ofNat attempts.toNat)).toSignedWord

/-- The amount that an extraction adds. -/
def extractionYield? (tier : RiskTier) (draw : Word) : Option Word :=
  (extractionAttempts? draw).bind fun attempts => addSigned? 1 (scaledYield tier attempts)

end FacilityIsa
