import FacilityIsa.Word

/-!
# Rounded binary arithmetic

Positive numbers of the IEEE 754 format binary32, as exact pairs of a
significand and a power of two. Conversion from an integer and multiplication
round to 24 significant bits, to the nearest such number and on a tie to the
one with an even significand. Overflow and gradual underflow need factors far
from one and are not modelled: what is multiplied here lies between a half and
`2^32`.
-/

namespace FacilityIsa

/-- The number `significand * 2 ^ exponent`. -/
structure Binary32 where
  significand : Nat
  exponent : Int
  deriving DecidableEq, Repr

namespace Binary32

/-- A positive normal number from its bit pattern. -/
def ofBits (bits : Word) : Binary32 where
  significand := Nat.pow 2 23 + (bits.extractLsb' 0 23).toNat
  exponent := (bits.extractLsb' 23 8).toNat - 150

/-- The quotient by `2 ^ shift`, rounded to the nearest integer, ties to even. -/
def roundShift (value shift : Nat) : Nat :=
  let quotient := value / Nat.pow 2 shift
  let twiceRest := 2 * (value % Nat.pow 2 shift)
  if Nat.pow 2 shift < twiceRest ∨ (twiceRest = Nat.pow 2 shift ∧ quotient % 2 = 1) then
    quotient + 1
  else quotient

@[simp] theorem roundShift_zero (value : Nat) : roundShift value 0 = value := by
  simp [roundShift, Nat.mod_one]

theorem roundShift_near (value shift : Nat) :
    2 * (roundShift value shift * Nat.pow 2 shift) ≤ 2 * value + Nat.pow 2 shift ∧
      2 * value ≤ 2 * (roundShift value shift * Nat.pow 2 shift) + Nat.pow 2 shift := by
  have hdiv := Nat.div_add_mod' value (Nat.pow 2 shift)
  have hmod : value % Nat.pow 2 shift < Nat.pow 2 shift :=
    Nat.mod_lt value (Nat.two_pow_pos shift)
  have hnext := Nat.add_one_mul (value / Nat.pow 2 shift) (Nat.pow 2 shift)
  unfold roundShift
  dsimp only
  split <;> omega

/-- The nearest number with at most 24 significant bits. -/
def round (significand : Nat) (exponent : Int) : Binary32 :=
  let excess := significand.log2 + 1 - 24
  ⟨roundShift significand excess, exponent + excess⟩

def ofNat (value : Nat) : Binary32 :=
  round value 0

def mul (x y : Binary32) : Binary32 :=
  round (x.significand * y.significand) (x.exponent + y.exponent)

/-- The integer part. -/
def truncate (x : Binary32) : Nat :=
  if 0 ≤ x.exponent then x.significand * Nat.pow 2 x.exponent.toNat
  else x.significand / Nat.pow 2 (-x.exponent).toNat

/-- The integer part as a signed word, at most the largest one. -/
def toSignedWord (x : Binary32) : Word :=
  BitVec.ofNat 32 (min x.truncate (Nat.pow 2 31 - 1))

end Binary32
end FacilityIsa
