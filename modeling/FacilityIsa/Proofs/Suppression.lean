import FacilityIsa.Proofs.PlainSums

/-!
# Suppression as an exact comparison

A suppression compares the power of an agent with the power of an abnormality, scaled by the
ratio of its tier and cut off toward zero. For a power that is not negative this decides the
comparison of the exact products. For a negative one cutting off raises the threshold, so
the agent must exceed it by a whole point. Either way a stronger agent and a weaker
abnormality never harm, and a riskier tier is harder against positive powers and easier
against negative ones.
-/

namespace FacilityIsa

section Quotients

variable {dividend divisor bound : Int}

theorem tdiv_lt_iff_of_nonneg (hdivisor : 0 < divisor) (h : 0 ≤ dividend) :
    dividend.tdiv divisor < bound ↔ dividend < divisor * bound := by
  rw [Int.tdiv_eq_ediv_of_nonneg h, Int.ediv_lt_iff_lt_mul hdivisor, Int.mul_comm]

theorem tdiv_lt_iff_of_nonpos (hdivisor : 0 < divisor) (h : dividend ≤ 0) :
    dividend.tdiv divisor < bound ↔ dividend ≤ divisor * (bound - 1) := by
  have hquotient : dividend.tdiv divisor = -(-dividend / divisor) := by
    rw [← Int.tdiv_eq_ediv_of_nonneg (show 0 ≤ -dividend by omega), Int.neg_tdiv, Int.neg_neg]
  have hfloor := Int.le_ediv_iff_mul_le (a := -(bound - 1)) (b := -dividend) hdivisor
  rw [Int.neg_mul, Int.mul_comm] at hfloor
  omega

end Quotients

namespace RiskTier

/-- The power of an agent exceeds the exactly scaled power of an abnormality, by a whole point
where that is negative. -/
def Overpowers (tier : RiskTier) (agent power : Int) : Prop :=
  0 ≤ power ∧ tier.suppressionRatio.1 * power < tier.suppressionRatio.2 * agent ∨
    power < 0 ∧ tier.suppressionRatio.1 * power ≤ tier.suppressionRatio.2 * (agent - 1)

instance (tier : RiskTier) (agent power : Int) : Decidable (tier.Overpowers agent power) :=
  inferInstanceAs (Decidable (_ ∨ _))

theorem suppressionRatio_pos (tier : RiskTier) :
    0 < tier.suppressionRatio.1 ∧ 0 < tier.suppressionRatio.2 := by
  cases tier <;> decide

/-- Cutting the scaled power off loses nothing of the comparison. -/
theorem suppressionThreshold_lt_iff (tier : RiskTier) (power : Word) (agent : Int) :
    tier.suppressionThreshold power < agent ↔ tier.Overpowers agent power.toInt := by
  obtain ⟨hnumerator, hdenominator⟩ := tier.suppressionRatio_pos
  rw [suppressionThreshold, Int.mul_comm, Overpowers]
  by_cases hpower : 0 ≤ power.toInt
  · rw [tdiv_lt_iff_of_nonneg hdenominator (Int.mul_nonneg (Int.le_of_lt hnumerator) hpower)]
    simp only [hpower, true_and, Int.not_lt.2 hpower, false_and, or_false]
  · have hnegative : power.toInt < 0 := Int.not_le.1 hpower
    rw [tdiv_lt_iff_of_nonpos hdenominator
      (Int.mul_nonpos_of_nonneg_of_nonpos (Int.le_of_lt hnumerator) (Int.le_of_lt hnegative))]
    simp only [hpower, false_and, hnegative, true_and, false_or]

section Order

variable {tier riskier : RiskTier} {agent stronger power weaker : Int}

theorem Overpowers.mono (hagent : agent ≤ stronger) (hpower : weaker ≤ power)
    (h : tier.Overpowers agent power) : tier.Overpowers stronger weaker := by
  cases tier <;> simp only [Overpowers, suppressionRatio] at * <;> omega

theorem Overpowers.of_riskier (htier : tier.index ≤ riskier.index) (hpower : 0 ≤ power)
    (h : riskier.Overpowers agent power) : tier.Overpowers agent power := by
  cases tier <;> cases riskier <;> simp only [Overpowers, suppressionRatio, index] at * <;> omega

theorem Overpowers.at_riskier (htier : tier.index ≤ riskier.index) (hpower : power ≤ 0)
    (h : tier.Overpowers agent power) : riskier.Overpowers agent power := by
  cases tier <;> cases riskier <;> simp only [Overpowers, suppressionRatio, index] at * <;> omega

end Order

theorem index_injective {tier other : RiskTier} (h : tier.index = other.index) : tier = other := by
  cases tier <;> cases other <;> first | rfl | exact nomatch h

theorem index_clamped_simm (fields : ImmediateFields) :
    ((clamped fields.simm).index : Int) = max 0 (min fields.imm.toInt 4) := by
  rw [index_clamped, ImmediateFields.toInt_simm]

/-- The threshold in arithmetic of 64 bits. -/
def wideThreshold (tier : RiskTier) (power : Word) : BitVec 64 :=
  (power.signExtend 64 * BitVec.ofInt 64 tier.suppressionRatio.1).sdiv
    (BitVec.ofInt 64 tier.suppressionRatio.2)

/-- If the product does not overflow, neither does the quotient, and 64 bits hold the exact
threshold. -/
theorem toInt_wideThreshold {tier : RiskTier} {power : Word}
    (h : BitVec.smulOverflow (power.signExtend 64) (BitVec.ofInt 64 tier.suppressionRatio.1) =
      false) :
    (tier.wideThreshold power).toInt = tier.suppressionThreshold power := by
  have hpower : (power.signExtend 64).toInt = power.toInt :=
    BitVec.toInt_signExtend_of_le (by decide)
  have hratio : (BitVec.ofInt 64 tier.suppressionRatio.1).toInt = tier.suppressionRatio.1 ∧
      (BitVec.ofInt 64 tier.suppressionRatio.2).toInt = tier.suppressionRatio.2 := by
    cases tier <;> exact ⟨rfl, rfl⟩
  have hdivisor : BitVec.ofInt 64 tier.suppressionRatio.2 ≠ -1 := by cases tier <;> decide
  rw [wideThreshold, BitVec.toInt_sdiv_of_ne_or_ne _ _ (.inr hdivisor),
    BitVec.toInt_mul_of_not_smulOverflow (by simp [h]), hpower, hratio.1, hratio.2,
    suppressionThreshold]

end RiskTier

namespace Context

variable {ρ ω : Type}

theorem register_v0_suppress (context : Context ρ ω) (fields : ImmediateFields) :
    (context.suppress fields).register Register.v0 =
      if (RiskTier.clamped fields.simm).Overpowers (context.register fields.rs).toInt
        (context.register fields.rt).toInt then 1 else 0 := by
  simp only [suppress, register_setRegister, RiskTier.suppressionThreshold_lt_iff]
  exact if_pos ⟨trivial, by decide⟩

theorem suppress_congr (context : Context ρ ω) {first second : ImmediateFields}
    (hrs : first.rs = second.rs) (hrt : first.rt = second.rt)
    (htier : RiskTier.clamped first.simm = RiskTier.clamped second.simm) :
    context.suppress first = context.suppress second := by
  simp only [suppress, hrs, hrt, htier]

variable [DrawSource ρ] [LineSink ω]

/-- A suppression reports success. -/
def Suppresses (context : Context ρ ω) (fields : ImmediateFields) : Prop :=
  (Instruction.suppress.perform (.immediate fields) context).after.register Register.v0 = 1

theorem suppresses_iff {context : Context ρ ω} {fields : ImmediateFields} :
    context.Suppresses fields ↔
      (RiskTier.clamped fields.simm).Overpowers (context.register fields.rs).toInt
        (context.register fields.rt).toInt := by
  refine Iff.trans (Eq.congr_left (context.register_v0_suppress fields)) ?_
  split
  · next h => exact iff_of_true rfl h
  · next h => exact iff_of_false (by decide) h

end Context

variable {ρ ω : Type} [DrawSource ρ] [LineSink ω]

/-- Success is the exact comparison of the scaled powers, computed without overflow in 64 bits.
It is kept by a stronger agent against a weaker abnormality, by a lower number against a power
that is not negative and by a higher number against one that is not positive; numbers of one
tier are as good as one another. -/
theorem suppression_compares_exactly (context : Context ρ ω) (fields : ImmediateFields) :
    let tier := RiskTier.clamped fields.simm
    let numerator := tier.suppressionRatio.1
    let denominator := tier.suppressionRatio.2
    let agent := (context.register fields.rs).toInt
    let power := (context.register fields.rt).toInt
    let outcome := Instruction.suppress.perform (.immediate fields) context
    (tier.index : Int) = max 0 (min fields.imm.toInt 4) ∧ outcome.answer = .ok () ∧
      outcome.after.register Register.v0 =
        (if 0 ≤ power ∧ numerator * power < denominator * agent ∨
            power < 0 ∧ numerator * power ≤ denominator * (agent - 1) then 1 else 0) ∧
      context.SumsFit fields .suppress ∧
      (tier.wideThreshold (context.register fields.rt)).toInt =
        (numerator * power).tdiv denominator ∧
      (∀ (other : Context ρ ω) (others : ImmediateFields), others.imm = fields.imm →
        agent ≤ (other.register others.rs).toInt → (other.register others.rt).toInt ≤ power →
          context.Suppresses fields → other.Suppresses others) ∧
      (∀ higher : BitVec 16, fields.imm.toInt ≤ higher.toInt →
        (0 ≤ power → context.Suppresses { fields with imm := higher } →
            context.Suppresses fields) ∧
          (power ≤ 0 → context.Suppresses fields →
            context.Suppresses { fields with imm := higher })) ∧
      ∀ same : BitVec 16, max 0 (min same.toInt 4) = max 0 (min fields.imm.toInt 4) →
        Instruction.suppress.perform (.immediate { fields with imm := same }) context =
          outcome := by
  intro tier numerator denominator agent power outcome
  have hfits : context.SumsFit fields .suppress := context.sumsFit_suppress fields
  have hindex := RiskTier.index_clamped_simm fields
  refine ⟨hindex, rfl, context.register_v0_suppress fields, hfits, ?_, ?_, ?_, ?_⟩
  · exact (RiskTier.toInt_wideThreshold hfits).trans
      (congrArg (·.tdiv denominator) (Int.mul_comm power numerator))
  · intro other others himm hagent hpower h
    have hsimm : others.simm = fields.simm := congrArg (BitVec.signExtend 32) himm
    rw [Context.suppresses_iff] at h ⊢
    rw [hsimm]
    exact h.mono hagent hpower
  · intro higher himm
    have hraised : ((RiskTier.clamped (higher.signExtend 32)).index : Int) =
        max 0 (min higher.toInt 4) := RiskTier.index_clamped_simm { fields with imm := higher }
    have htier : (RiskTier.clamped fields.simm).index ≤
        (RiskTier.clamped (higher.signExtend 32)).index := by
      omega
    simp only [Context.suppresses_iff]
    exact ⟨RiskTier.Overpowers.of_riskier htier, RiskTier.Overpowers.at_riskier htier⟩
  · intro same hsame
    have hother := RiskTier.index_clamped_simm { fields with imm := same }
    have htier := RiskTier.index_injective
      (Int.ofNat_inj.1 (hother.trans (hsame.trans hindex.symm)))
    exact congrArg (Attempt.done ()) (context.suppress_congr rfl rfl htier)

/-- At the ratio of three to two a power of three takes an agent of five, and a power of minus
three an agent of minus three. -/
theorem suppression_compares_exactly_at_half_points :
    let powers (agent power : Word) : Context Script Transcript :=
      ⟨((Machine.new {}).setRegister 8 agent).setRegister 9 power, { values := [] }, {}⟩
    (powers 5 3).Suppresses ⟨8, 9, 2⟩ ∧ ¬(powers 4 3).Suppresses ⟨8, 9, 2⟩ ∧
      (powers 5 (-3)).Suppresses ⟨8, 9, 2⟩ ∧ (powers 5 3).Suppresses ⟨8, 9, 0xFFFF⟩ ∧
      (powers (-3) (-3)).Suppresses ⟨8, 9, 2⟩ ∧ ¬(powers (-4) (-3)).Suppresses ⟨8, 9, 2⟩ ∧
      (powers (-3) (-3)).Suppresses ⟨8, 9, 0x7FFF⟩ := by
  intro powers
  have hpositive : (powers 5 3).Suppresses ⟨8, 9, 2⟩ := by
    rw [Context.suppresses_iff]
    decide
  have hnegative : (powers (-3) (-3)).Suppresses ⟨8, 9, 2⟩ := by
    rw [Context.suppresses_iff]
    decide
  obtain ⟨-, -, -, -, -, hpowers, -, -⟩ := suppression_compares_exactly (powers 5 3) ⟨8, 9, 2⟩
  obtain ⟨-, -, -, -, -, -, hlower, -⟩ := suppression_compares_exactly (powers 5 3) ⟨8, 9, 0xFFFF⟩
  obtain ⟨-, -, -, -, -, -, hhigher, -⟩ := suppression_compares_exactly (powers (-3) (-3)) ⟨8, 9, 2⟩
  refine ⟨hpositive, ?_, ?_, ?_, hnegative, ?_, ?_⟩
  · rw [Context.suppresses_iff]
    decide
  · exact hpowers (powers 5 (-3)) ⟨8, 9, 2⟩ rfl (by decide) (by decide) hpositive
  · exact (hlower 2 (by decide)).1 (by decide) hpositive
  · rw [Context.suppresses_iff]
    decide
  · exact (hhigher 0x7FFF (by decide)).2 (by decide) hnegative

end FacilityIsa
