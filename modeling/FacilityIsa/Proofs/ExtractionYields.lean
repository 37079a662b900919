import FacilityIsa.Proofs.Suppression
import Mathlib.Data.Rat.Floor

/-!
# Extraction yields in tenths

The multipliers of the risk tiers are meant as tenths, but three of them are no binary
numbers. For up to `2 ^ 20` attempts the rounded product all the same has the integer part
of the exact one. Where the exact product is an integer and the multiplier lies below its
tenths, the product is off by less than half a unit of its last place, so rounding makes up
for it; everywhere else it is too far from the next integer to get there.
-/

namespace FacilityIsa

namespace Binary32

/-- The exact value. -/
def toRat (x : Binary32) : ℚ :=
  x.significand * 2 ^ x.exponent

theorem floor_toRat (x : Binary32) : ⌊x.toRat⌋ = x.truncate := by
  obtain ⟨significand, exponent⟩ := x
  simp only [toRat, truncate, Nat.pow_eq]
  split
  · next hexponent =>
    obtain ⟨count, rfl⟩ := Int.eq_ofNat_of_zero_le hexponent
    rw [zpow_natCast, Int.toNat_natCast]
    exact_mod_cast Int.floor_natCast (R := ℚ) (significand * 2 ^ count)
  · next hexponent =>
    obtain ⟨count, hcount⟩ := Int.eq_ofNat_of_zero_le (show 0 ≤ -exponent by omega)
    obtain rfl : exponent = -count := by omega
    rw [neg_neg, Int.toNat_natCast, zpow_neg, zpow_natCast, ← div_eq_mul_inv,
      Int.natCast_div, ← Rat.floor_natCast_div_natCast]
    push_cast
    rfl

end Binary32

namespace RiskTier

/-- The multiplier of a tier in tenths. -/
def tenths : RiskTier → Nat
  | zayin => 10
  | teth => 9
  | he => 8
  | waw => 6
  | aleph => 5

theorem tenths_le_of_riskier {tier riskier : RiskTier} (h : tier.index ≤ riskier.index) :
    riskier.tenths ≤ tier.tenths := by
  cases tier <;> cases riskier <;> simp only [index, tenths] at * <;> omega

theorem extractionMultiplier_eq (tier : RiskTier) :
    tier.extractionMultiplier =
      match tier with
      | zayin => ⟨8388608, -(23 : Nat)⟩
      | teth => ⟨15099494, -(24 : Nat)⟩
      | he => ⟨13421773, -(24 : Nat)⟩
      | waw => ⟨10066330, -(24 : Nat)⟩
      | aleph => ⟨8388608, -(24 : Nat)⟩ := by
  cases tier <;> decide

/-- For so few attempts the exact product is an integer or at least a tenth away from the next
one, which is more than rounding and the error of the multiplier come to. Where it is an
integer the error of the multiplier is less than half a unit of the last place. -/
theorem uncutYield_eq (tier : RiskTier) {attempts : Nat} (h : attempts ≤ 2 ^ 20) :
    tier.uncutYield attempts = attempts * tier.tenths / 10 := by
  have hexact : Binary32.roundNat attempts = attempts :=
    Binary32.roundNat_of_lt (Nat.lt_of_le_of_lt h (by decide))
  rw [uncutYield, extractionMultiplier_eq]
  cases tier
  case zayin | aleph =>
    -- The multiplier is a power of two, so nothing is rounded at all.
    rw [Binary32.truncate_mul_ofNat rfl, hexact, Nat.mul_comm,
      show 8388608 = 2 ^ 23 from rfl, Binary32.roundNat_mul_two_pow, hexact, tenths]
    omega
  case teth | he | waw =>
    rw [Binary32.truncate_mul_ofNat rfl, hexact, tenths]
    apply Binary32.roundNat_div_two_pow (show _ < 2 ^ (24 + 20) by dsimp only; omega) (by decide)
    intro unit hunit hlength
    dsimp only at hlength ⊢
    omega

/-- The exact yield of a number of attempts. -/
def exactYield (tier : RiskTier) (attempts : Nat) : ℚ :=
  attempts * (tier.tenths / 10)

theorem floor_exactYield (tier : RiskTier) (attempts : Nat) :
    ⌊tier.exactYield attempts⌋ = (attempts * tier.tenths / 10 : Nat) := by
  have hquotient := Rat.floor_natCast_div_natCast (attempts * tier.tenths) 10
  rw [exactYield, ← mul_div_assoc]
  push_cast at hquotient ⊢
  exact hquotient

end RiskTier

section Amounts

variable {tier riskier : RiskTier} {draw more : Word}

theorem exists_extractionYield?_eq (tier : RiskTier) (h : 1 + draw.toNat ≤ 2 ^ 20) :
    ∃ amount, extractionYield? tier draw = some amount ∧
      amount.toInt = 1 + ⌊tier.exactYield (1 + draw.toNat)⌋ := by
  have hattempts : (1 + draw).toNat = 1 + draw.toNat := by
    rw [BitVec.toNat_add]
    exact Nat.mod_eq_of_lt (Nat.lt_of_le_of_lt h (by decide))
  have hone : (1 : Word).toInt = 1 := rfl
  have htenths : (1 + draw.toNat) * tier.tenths / 10 ≤ 2 ^ 20 := by
    cases tier <;> rw [RiskTier.tenths] <;> omega
  have hscaled : (scaledYield tier (1 + draw)).toInt = ⌊tier.exactYield (1 + draw.toNat)⌋ := by
    rw [toInt_scaledYield, hattempts, tier.uncutYield_eq h, tier.floor_exactYield,
      Nat.min_eq_left (Nat.le_trans htenths (by decide))]
  have hsigned : Word.IsSigned ((1 : Word).toInt + (scaledYield tier (1 + draw)).toInt) := by
    rw [hone, hscaled, tier.floor_exactYield, Word.IsSigned]
    omega
  refine ⟨1 + scaledYield tier (1 + draw), ?_, ?_⟩
  · have hfirst : 2 ^ 20 ≤ tier.firstOverflow := by cases tier <;> decide
    rw [extractionYield?_eq, if_pos (show draw.toNat < tier.firstOverflow by omega)]
  · rw [Word.toInt_add_of_isSigned hsigned, hone, hscaled]

theorem extractionYield?_le_of_tenths_le (hdraw : 1 + draw.toNat ≤ 2 ^ 20)
    (hmore : 1 + more.toNat ≤ 2 ^ 20)
    (h : (1 + draw.toNat) * riskier.tenths ≤ (1 + more.toNat) * tier.tenths) :
    ∃ lesser greater, extractionYield? riskier draw = some lesser ∧
      extractionYield? tier more = some greater ∧ lesser.toInt ≤ greater.toInt := by
  obtain ⟨lesser, hlesser, hless⟩ := exists_extractionYield?_eq riskier hdraw
  obtain ⟨greater, hgreater, hgreat⟩ := exists_extractionYield?_eq tier hmore
  refine ⟨lesser, greater, hlesser, hgreater, ?_⟩
  have hquotients : (1 + draw.toNat) * riskier.tenths / 10 ≤ (1 + more.toNat) * tier.tenths / 10 :=
    Nat.div_le_div_right h
  rw [hless, hgreat, riskier.floor_exactYield, tier.floor_exactYield]
  omega

theorem extractionYield?_bounds (tier : RiskTier) (h : draw < extractionBound) :
    ∃ amount, extractionYield? tier draw = some amount ∧
      1 ≤ amount.toInt ∧ amount.toInt ≤ 11 := by
  have hdraw : draw.toNat < 10 := h
  obtain ⟨amount, hamount, hvalue⟩ :=
    exists_extractionYield?_eq tier (show 1 + draw.toNat ≤ 2 ^ 20 by omega)
  refine ⟨amount, hamount, ?_⟩
  rw [hvalue, tier.floor_exactYield]
  cases tier <;> rw [RiskTier.tenths] <;> omega

end Amounts

variable {ρ ω : Type} [DrawSource ρ] [LineSink ω]

/-- For up to `2 ^ 20` attempts an extraction adds one more than the integer part of the exact
tenths of its attempts, which is also that of the product rounded twice. The amount does not
fall with the draw nor rise with the tier, and draws that keep the bound give one to
eleven. -/
theorem extraction_yields_exact_tenths (context : Context ρ ω) (fields : ImmediateFields) :
    let tier := RiskTier.clamped fields.simm
    let draw := (context.draw extractionBound).1
    let drawn := (context.draw extractionBound).2
    let product := tier.extractionMultiplier.mul (Binary32.ofNat (1 + draw.toNat))
    (tier.index : Int) = max 0 (min fields.imm.toInt 4) ∧
      (1 + draw.toNat ≤ 2 ^ 20 →
        ⌊product.toRat⌋ = ⌊tier.exactYield (1 + draw.toNat)⌋ ∧
          ∃ amount, extractionYield? tier draw = some amount ∧
            amount.toInt = 1 + ⌊tier.exactYield (1 + draw.toNat)⌋ ∧
            Instruction.extract.perform (.immediate fields) context =
              .done () (drawn.setRegister fields.rt (context.register fields.rs + amount))) ∧
      (∀ (tier : RiskTier) (fewer more : Word), fewer ≤ more → 1 + more.toNat ≤ 2 ^ 20 →
        ∃ lesser greater, extractionYield? tier fewer = some lesser ∧
          extractionYield? tier more = some greater ∧ lesser.toInt ≤ greater.toInt) ∧
      (∀ (tier riskier : RiskTier) (draw : Word), tier.index ≤ riskier.index →
        1 + draw.toNat ≤ 2 ^ 20 →
          ∃ lesser greater, extractionYield? riskier draw = some lesser ∧
            extractionYield? tier draw = some greater ∧ lesser.toInt ≤ greater.toInt) ∧
      ∀ (tier : RiskTier) (draw : Word), draw < extractionBound →
        ∃ amount, extractionYield? tier draw = some amount ∧
          1 ≤ amount.toInt ∧ amount.toInt ≤ 11 := by
  intro tier draw drawn product
  refine ⟨RiskTier.index_clamped_simm fields, ?_, ?_, ?_, ?_⟩
  · intro h
    obtain ⟨amount, hamount, hvalue⟩ := exists_extractionYield?_eq tier h
    refine ⟨?_, amount, hamount, hvalue, Context.extract_of_yield hamount⟩
    rw [Binary32.floor_toRat, tier.floor_exactYield, ← tier.uncutYield_eq h]
    rfl
  · intro tier fewer more hle hmore
    rw [BitVec.le_def] at hle
    exact extractionYield?_le_of_tenths_le (by omega) hmore
      (Nat.mul_le_mul_right tier.tenths (by omega))
  · intro tier riskier draw htier hdraw
    exact extractionYield?_le_of_tenths_le hdraw hdraw
      (Nat.mul_le_mul_left _ (RiskTier.tenths_le_of_riskier htier))
  · intro tier draw
    exact extractionYield?_bounds tier

/-- Ten attempts at nine tenths make nine, although the multiplier is less than that. One more
is added, and the greatest signed register wraps. -/
theorem extraction_yields_exact_tenths_of_ten_attempts :
    let context : Context Script Transcript :=
      ⟨(Machine.new {}).setRegister 8 0x7FFFFFFF, { values := [9], raw := true }, {}⟩
    let product := RiskTier.teth.extractionMultiplier.mul (Binary32.ofNat 10)
    ⌊product.toRat⌋ = 9 ∧
      (Instruction.extract.perform (.immediate ⟨8, 9, 1⟩) context).after.register 9 =
        0x80000009 ∧
      (∃ lesser greater, extractionYield? .teth 8 = some lesser ∧
        extractionYield? .teth 9 = some greater ∧ lesser.toInt ≤ greater.toInt) ∧
      (∃ lesser greater, extractionYield? .aleph 9 = some lesser ∧
        extractionYield? .teth 9 = some greater ∧ lesser.toInt ≤ greater.toInt) ∧
      ∃ amount, extractionYield? .zayin 9 = some amount ∧
        1 ≤ amount.toInt ∧ amount.toInt ≤ 11 := by
  intro context product
  obtain ⟨-, hexact, hmono, hriskier, hbounds⟩ :=
    extraction_yields_exact_tenths context ⟨8, 9, 1⟩
  obtain ⟨hproduct, amount, -, hamount, hperform⟩ := hexact (by decide)
  have hnine : ⌊RiskTier.teth.exactYield 10⌋ = 9 := by
    rw [RiskTier.floor_exactYield]
    decide
  have hten : amount = 10 := by
    apply BitVec.eq_of_toInt_eq
    exact hamount.trans (congrArg (1 + ·) hnine)
  refine ⟨hproduct.trans hnine, ?_, hmono .teth 8 9 (by decide) (by decide),
    hriskier .teth .aleph 9 (by decide) (by decide), hbounds .zayin 9 (by decide)⟩
  rw [hperform, Attempt.after_done, Context.register_setRegister, if_pos ⟨rfl, by decide⟩]
  exact congrArg (context.register 8 + ·) hten

end FacilityIsa
