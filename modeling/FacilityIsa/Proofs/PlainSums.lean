import FacilityIsa.Draws.Script
import FacilityIsa.Proofs.FaultCauses

/-!
# Sums that are not meant to wrap

A thematic instruction completes exactly if its plain sums fit, and is abandoned
otherwise. Three of them compute with numbers that are not meant to wrap. The
agent an ordeal strikes and the scaled power of a suppression stay in range
whatever is drawn. An extraction adds one to its draw and one to what the
attempts yield, and both sums overflow for draws far out of the bound: the
second as soon as the scaled attempts reach the largest signed word, the first
at the largest draw.
-/

namespace FacilityIsa

/-- The instructions of the facility, beside those that any machine has. -/
def Instruction.IsThematic : Instruction → Prop
  | .extract | .winst | .winsight | .wattach | .wrepress | .suppress | .ordeal | .ego | .panic
  | .meltdown => True
  | _ => False

namespace Context

variable {ρ ω : Type} [DrawSource ρ]

/-- What a thematic instruction computes with numbers other than wrapping register
values stays in the range of its type: the two sums of an extraction, the product of
64 bits that a suppression compares with, and the sum of 8 bits that names the agent an
ordeal strikes. -/
def SumsFit (context : Context ρ ω) (fields : ImmediateFields) : Instruction → Prop
  | .extract =>
    let draw := (context.draw extractionBound).1
    BitVec.uaddOverflow 1 draw = false ∧
      BitVec.saddOverflow 1 (scaledYield (RiskTier.clamped fields.simm) (1 + draw)) = false
  | .suppress =>
    let power := (context.register fields.rt).signExtend 64
    let factor := (RiskTier.clamped fields.simm).suppressionRatio.1
    BitVec.smulOverflow power (BitVec.ofInt 64 factor) = false
  | .ordeal =>
    let draw := (context.draw (BitVec.ofNat 32 agentCount)).1
    let offset := BitVec.ofNat 8 (draw.toNat % agentCount)
    BitVec.uaddOverflow ((agent 0).setWidth 8) offset = false
  | _ => True

variable (context : Context ρ ω) (fields : ImmediateFields)

/-- The power is a signed word and the factor at most six. -/
theorem sumsFit_suppress : context.SumsFit fields .suppress := by
  have hpower : ((context.register fields.rt).signExtend 64).toInt =
      (context.register fields.rt).toInt := BitVec.toInt_signExtend_of_le (by decide)
  have hlower := BitVec.le_toInt (context.register fields.rt)
  have hupper := BitVec.toInt_lt (x := context.register fields.rt)
  have hfactor : ∀ tier : RiskTier,
      (BitVec.ofInt 64 tier.suppressionRatio.1).toInt = tier.suppressionRatio.1 := by
    intro tier
    cases tier <;> rfl
  simp only [SumsFit, BitVec.smulOverflow, Bool.or_eq_false_iff, decide_eq_false_iff_not, hpower,
    hfactor]
  cases RiskTier.clamped fields.simm <;> simp only [RiskTier.suppressionRatio] <;> omega

/-- The draw is reduced to the number of agents before it is used. -/
theorem sumsFit_ordeal : context.SumsFit fields .ordeal := by
  have hoffset : (context.draw (BitVec.ofNat 32 agentCount)).1.toNat % agentCount < 8 :=
    Nat.mod_lt _ (by decide)
  have hfirst : ((agent 0).setWidth 8).toNat = 8 := rfl
  simp only [SumsFit, BitVec.uaddOverflow, decide_eq_false_iff_not, BitVec.toNat_ofNat, hfirst]
  omega

theorem sumsFit_iff (instruction : Instruction) :
    context.SumsFit fields instruction ↔
      (instruction = .extract →
        (context.draw extractionBound).1.toNat < (RiskTier.clamped fields.simm).firstOverflow) := by
  cases instruction
  case extract =>
    refine (extraction_sums_fit_iff _ _).trans ?_
    simp only [forall_const]
  case suppress => simp only [context.sumsFit_suppress fields, reduceCtorEq, false_imp_iff]
  case ordeal => simp only [context.sumsFit_ordeal fields, reduceCtorEq, false_imp_iff]
  all_goals simp only [SumsFit, reduceCtorEq, false_imp_iff]

end Context

namespace Catalog

variable {ρ ω : Type} [DrawSource ρ] [LineSink ω]

/-- A thematic instruction completes if its plain sums fit and is abandoned otherwise. They
all fit unless it is an extraction whose draw is the least overflowing one or greater. -/
theorem thematic_completes_iff_sums_fit {word : Word} {instruction : Instruction}
    (hfind : Catalog.full.find? word = some instruction) (hthematic : instruction.IsThematic)
    (context : Context ρ ω) :
    let fields := ImmediateFields.decode word
    let answer := (Catalog.full.execute word context).answer
    (answer = .ok instruction ↔ context.SumsFit fields instruction) ∧
      (answer = .error .abort ↔ ¬context.SumsFit fields instruction) ∧
        (context.SumsFit fields instruction ↔
          (instruction = .extract →
            (context.draw extractionBound).1.toNat <
              (RiskTier.clamped fields.simm).firstOverflow)) := by
  intro fields answer
  rw [context.sumsFit_iff fields instruction]
  refine ⟨?_, ?_, Iff.rfl⟩
  · rw [answer_execute_eq_ok_iff, Context.forall_not_refuses_iff]
    have hresult : context.exactResult? word instruction = none := by
      cases instruction <;> first | rfl | exact hthematic.elim
    have haccess : ¬(instruction = .lw ∨ instruction = .sw) := by
      rintro (rfl | rfl) <;> exact hthematic
    simp only [hfind, hresult, haccess, reduceCtorEq, false_imp_iff, implies_true, true_and]
    rfl
  · rw [answer_execute_eq_abort_iff, hfind, Option.some.injEq, Classical.not_imp, Nat.not_lt]

/-- The greatest draw with exact sums at the second tier. -/
theorem thematic_completes_at_greatest_draw :
    let context : Context Script Transcript :=
      ⟨Machine.new {}, { values := [2386092926], raw := true }, {}⟩
    (Catalog.full.execute 0x40090001 context).answer = .ok .extract ∧
      context.SumsFit (ImmediateFields.decode 0x40090001) .extract := by
  intro context
  have hfind : Catalog.full.find? 0x40090001 = some .extract := by decide
  obtain ⟨hcompletes, -, hsums⟩ := thematic_completes_iff_sums_fit hfind trivial context
  have hfit : context.SumsFit (ImmediateFields.decode 0x40090001) .extract := by
    refine hsums.2 ?_
    intro _
    decide
  exact ⟨hcompletes.2 hfit, hfit⟩

/-- The greatest draw of all makes one attempt more than a word can count. -/
theorem extraction_aborts_at_greatest_draw :
    let context : Context Script Transcript :=
      ⟨Machine.new {}, { values := [4294967295], raw := true }, {}⟩
    Catalog.full.find? 0x40090000 = some .extract ∧ Instruction.extract.IsThematic ∧
      ¬context.SumsFit (ImmediateFields.decode 0x40090000) .extract ∧
        (Catalog.full.execute 0x40090000 context).answer = .error .abort := by
  intro context
  have hfind : Catalog.full.find? 0x40090000 = some .extract := by decide
  refine ⟨hfind, trivial, ?_, ?_⟩
  · rintro ⟨hattempts, -⟩
    exact absurd hattempts (by decide)
  · exact answer_execute_eq_abort_iff.2 ⟨hfind, by decide⟩

end Catalog
end FacilityIsa
