import FacilityIsa.Binary32

/-!
# Risk tiers

Abnormalities are ranked in five tiers, from least to most dangerous. A number
outside the range stands for the tier at the nearer end. Riskier abnormalities
yield less per extraction and are harder to suppress: their power is scaled by
an exact ratio and the threshold is cut off toward zero.
-/

namespace FacilityIsa

inductive RiskTier where
  | zayin
  | teth
  | he
  | waw
  | aleph
  deriving DecidableEq, Repr

namespace RiskTier

def index : RiskTier → Nat
  | zayin => 0
  | teth => 1
  | he => 2
  | waw => 3
  | aleph => 4

/-- The tier of a number, the nearer end for one out of range. -/
def clamped (number : Word) : RiskTier :=
  match number.toInt.toNat with
  | 0 => zayin
  | 1 => teth
  | 2 => he
  | 3 => waw
  | _ => aleph

theorem index_clamped (number : Word) :
    ((clamped number).index : Int) = max 0 (min number.toInt 4) := by
  unfold clamped
  split <;> simp only [index, imp_false] at * <;> omega

def name : RiskTier → String
  | zayin => "ZAYIN"
  | teth => "TETH"
  | he => "HE"
  | waw => "WAW"
  | aleph => "ALEPH"

/-- The bit patterns of 1, 0.9, 0.8, 0.6 and 0.5 in binary32. -/
def multiplierBits : RiskTier → Word
  | zayin => 0x3F800000
  | teth => 0x3F666666
  | he => 0x3F4CCCCD
  | waw => 0x3F19999A
  | aleph => 0x3F000000

/-- What an extraction yields is scaled by this factor. -/
def extractionMultiplier (tier : RiskTier) : Binary32 :=
  Binary32.ofBits tier.multiplierBits

/-- The power of an abnormality is scaled by this ratio. -/
def suppressionRatio : RiskTier → Int × Int
  | zayin => (1, 1)
  | teth => (6, 5)
  | he => (3, 2)
  | waw => (2, 1)
  | aleph => (3, 1)

/-- The scaled power, cut off toward zero. -/
def suppressionThreshold (tier : RiskTier) (power : Word) : Int :=
  (power.toInt * tier.suppressionRatio.1).tdiv tier.suppressionRatio.2

end RiskTier
end FacilityIsa
