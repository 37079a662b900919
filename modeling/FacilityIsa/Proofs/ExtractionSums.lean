import FacilityIsa.Facility.Extraction
import FacilityIsa.Proofs.Rounding
import FacilityIsa.Proofs.SignedRange

/-!
# The sums of an extraction

An extraction adds one to its draw and one to what the attempts yield, and neither sum is
meant to wrap. Rounding never lets a greater number of attempts yield less, so at each risk
tier there is a least draw for which a sum overflows. There the yield leaps over the largest
signed word and is cut off to it, which leaves no room for the one that is added; the sum
that makes the attempts overflows for the greatest draw alone.
-/

namespace FacilityIsa
namespace RiskTier

/-- The least draw for which a sum of an extraction overflows. -/
def firstOverflow : RiskTier → Nat
  | zayin => 2147483583
  | teth => 2386092927
  | he => 2684354431
  | waw => 3579139200
  | aleph => 4294967167

/-- The integer part of what a number of attempts yields, be it a signed word or not. -/
def uncutYield (tier : RiskTier) (attempts : Nat) : Nat :=
  (tier.extractionMultiplier.mul (Binary32.ofNat attempts)).truncate

variable (tier : RiskTier)

theorem uncutYield_mono {fewer more : Nat} (h : fewer ≤ more) :
    tier.uncutYield fewer ≤ tier.uncutYield more := by
  have hexponent : ∃ down : Nat, tier.extractionMultiplier.exponent = -down := by
    cases tier
    · exact ⟨23, by decide⟩
    all_goals exact ⟨24, by decide⟩
  obtain ⟨down, hdown⟩ := hexponent
  exact Binary32.truncate_mul_ofNat_mono hdown h

/-- Rounding makes the yield leap over the largest signed word. -/
theorem uncutYield_firstOverflow :
    tier.uncutYield tier.firstOverflow = 2147483520 ∧
      tier.uncutYield (tier.firstOverflow + 1) = 2147483648 := by
  cases tier <;> decide +kernel

theorem uncutYield_lt_iff (draw : Nat) :
    tier.uncutYield (1 + draw) < 2 ^ 31 - 1 ↔ draw < tier.firstOverflow := by
  obtain ⟨hbelow, habove⟩ := tier.uncutYield_firstOverflow
  constructor
  · intro hyield
    refine Nat.lt_of_not_le fun hdraw => ?_
    have hmono := tier.uncutYield_mono (show tier.firstOverflow + 1 ≤ 1 + draw by omega)
    omega
  · intro hdraw
    have hmono := tier.uncutYield_mono (show 1 + draw ≤ tier.firstOverflow by omega)
    omega

theorem firstOverflow_lt : tier.firstOverflow < 2 ^ 32 - 1 := by
  cases tier <;> decide

theorem lt_firstOverflow_of_lt_extractionBound {draw : Word} (h : draw < extractionBound) :
    draw.toNat < tier.firstOverflow := by
  have hdraw : draw.toNat < 10 := h
  have hfirst : 10 ≤ tier.firstOverflow := by cases tier <;> decide
  exact Nat.lt_of_lt_of_le hdraw hfirst

end RiskTier

theorem addUnsigned?_eq (x y : Word) :
    addUnsigned? x y = if x.uaddOverflow y = false then some (x + y) else none := by
  have hx := x.isLt
  have hy := y.isLt
  have hrule : x + y < x ↔ ¬x.uaddOverflow y = false := by
    simp only [BitVec.lt_def, BitVec.toNat_add, BitVec.uaddOverflow, decide_eq_false_iff_not]
    omega
  simp only [addUnsigned?, hrule, ite_not]

theorem uaddOverflow_one_eq_false_iff {draw : Word} :
    BitVec.uaddOverflow 1 draw = false ↔ 1 + draw.toNat < 2 ^ 32 := by
  have hone : (1 : Word).toNat = 1 := rfl
  simp only [BitVec.uaddOverflow, decide_eq_false_iff_not, Nat.not_le, hone]

variable (tier : RiskTier) (draw : Word)

theorem toInt_scaledYield (attempts : Word) :
    (scaledYield tier attempts).toInt =
      (min (tier.uncutYield attempts.toNat) (2 ^ 31 - 1) : Nat) :=
  Binary32.toInt_toSignedWord _

variable {draw} in
theorem saddOverflow_one_scaledYield_iff (h : 1 + draw.toNat < 2 ^ 32) :
    BitVec.saddOverflow 1 (scaledYield tier (1 + draw)) = false ↔
      tier.uncutYield (1 + draw.toNat) < 2 ^ 31 - 1 := by
  have hattempts : (1 + draw).toNat = 1 + draw.toNat := by
    rw [BitVec.toNat_add]
    exact Nat.mod_eq_of_lt h
  have hone : (1 : Word).toInt = 1 := rfl
  rw [saddOverflow_eq_false_iff, Word.IsSigned, toInt_scaledYield, hattempts, hone]
  omega

/-- The two sums of an extraction are exact for the draws below the least overflowing
one, and for no others. -/
theorem extraction_sums_fit_iff :
    (BitVec.uaddOverflow 1 draw = false ∧
        BitVec.saddOverflow 1 (scaledYield tier (1 + draw)) = false) ↔
      draw.toNat < tier.firstOverflow := by
  rw [uaddOverflow_one_eq_false_iff, ← tier.uncutYield_lt_iff]
  constructor
  · rintro ⟨hattempts, hyield⟩
    exact (saddOverflow_one_scaledYield_iff tier hattempts).1 hyield
  · intro hyield
    have hattempts : 1 + draw.toNat < 2 ^ 32 := by
      have hdraw := (tier.uncutYield_lt_iff _).1 hyield
      have hfirst := tier.firstOverflow_lt
      omega
    exact ⟨hattempts, (saddOverflow_one_scaledYield_iff tier hattempts).2 hyield⟩

theorem extractionYield?_eq :
    extractionYield? tier draw =
      if draw.toNat < tier.firstOverflow then some (1 + scaledYield tier (1 + draw)) else none := by
  rw [extractionYield?, extractionAttempts?, addUnsigned?_eq]
  simp only [← extraction_sums_fit_iff]
  by_cases hattempts : BitVec.uaddOverflow 1 draw = false
  · rw [if_pos hattempts, Option.bind_some, addSigned?_eq]
    simp only [hattempts, true_and, saddOverflow_eq_false_iff]
  · rw [if_neg hattempts, Option.bind_none, if_neg fun h => hattempts h.1]

theorem extractionYield?_eq_none_iff :
    extractionYield? tier draw = none ↔ tier.firstOverflow ≤ draw.toNat := by
  rw [extractionYield?_eq, ite_eq_right_iff]
  simp only [reduceCtorEq, imp_false, Nat.not_lt]

end FacilityIsa
