import FacilityIsa.Draws.Script
import FacilityIsa.Execution.Dispatch
import FacilityIsa.Proofs.SignedRange
import Mathlib.Data.Int.ModEq

/-!
# Arithmetic over the integers

With registers read as signed numbers, the arithmetic instructions compute over the
integers. A sum or a difference is either exact or refused. A product is the one signed
number congruent to the exact product, and a comparison is that of the integers. The
operands are read before the result is written, so registers may coincide; a result for
`$zero` is dropped.
-/

namespace FacilityIsa

namespace Word

theorem eq_of_isSigned_of_modEq {first second : Int} (hfirst : IsSigned first)
    (hsecond : IsSigned second) (h : first ≡ second [ZMOD 2 ^ 32]) : first = second := by
  obtain ⟨factor, hfactor⟩ := h.dvd
  unfold IsSigned at hfirst hsecond
  omega

theorem toInt_mul_modEq (x y : Word) : (x * y).toInt ≡ x.toInt * y.toInt [ZMOD 2 ^ 32] := by
  rw [BitVec.toInt_mul]
  exact Int.bmod_emod

/-- The wrapped product is the one signed number congruent to the exact product. -/
theorem isSigned_and_modEq_mul_iff {x y : Word} {value : Int} :
    IsSigned value ∧ value ≡ x.toInt * y.toInt [ZMOD 2 ^ 32] ↔ value = (x * y).toInt := by
  constructor
  · rintro ⟨hvalue, hresidue⟩
    exact eq_of_isSigned_of_modEq hvalue (isSigned_toInt _)
      (hresidue.trans (toInt_mul_modEq x y).symm)
  · rintro rfl
    exact ⟨isSigned_toInt _, toInt_mul_modEq x y⟩

end Word

namespace Context

variable {ρ ω : Type}

/-- A register has come to hold a signed number, unless it is `$zero`, and nothing else has
changed. -/
structure Assigns (before : Context ρ ω) (register : Register) (value : Int)
    (after : Context ρ ω) : Prop where
  toInt_eq : register ≠ Register.zero → (after.register register).toInt = value
  register_eq : ∀ other ≠ register, after.register other = before.register other
  eq_of_zero : register = Register.zero → after = before
  pc_eq : after.pc = before.pc
  memory_eq : after.machine.memory = before.machine.memory
  config_eq : after.machine.config = before.machine.config
  draws_eq : after.draws = before.draws
  output_eq : after.output = before.output

theorem assigns_setRegister (context : Context ρ ω) (register : Register) (word : Word) :
    context.Assigns register word.toInt (context.setRegister register word) where
  toInt_eq := by
    intro hzero
    rw [register_setRegister, if_pos ⟨rfl, hzero⟩]
  register_eq := by
    intro other hne
    rw [register_setRegister, if_neg fun h => hne h.1]
  eq_of_zero := by
    rintro rfl
    simp only [setRegister, Machine.setRegister, RegisterFile.write_zero]
  pc_eq := context.pc_setRegister register word
  memory_eq := rfl
  config_eq := rfl
  draws_eq := rfl
  output_eq := rfl

end Context

namespace Instruction

variable {ρ ω : Type} [DrawSource ρ] [LineSink ω]

/-- The instruction completes and a register is assigned a signed number. -/
def Computes (instruction : Instruction) (operands : Operands) (context : Context ρ ω)
    (register : Register) (value : Int) : Prop :=
  (instruction.perform operands context).answer = .ok () ∧
    context.Assigns register value (instruction.perform operands context).after

/-- The instruction assigns the number if it is a signed word, and else overflows and changes
nothing. -/
def ComputesChecked (instruction : Instruction) (operands : Operands) (context : Context ρ ω)
    (register : Register) (value : Int) : Prop :=
  (Word.IsSigned value → instruction.Computes operands context register value) ∧
    (¬Word.IsSigned value →
      instruction.perform operands context = .failed (.arithmeticOverflow instruction) context)

variable {instruction : Instruction} {operands : Operands} {context : Context ρ ω}
  {register : Register} {value : Int} {word : Word}

theorem computes_of_setRegister
    (h : instruction.perform operands context = .done () (context.setRegister register word)) :
    instruction.Computes operands context register word.toInt := by
  rw [Computes, h]
  exact ⟨rfl, context.assigns_setRegister register word⟩

theorem computesChecked_of_setChecked {result? : Option Word}
    (hperform : instruction.perform operands context =
      context.setChecked instruction register result?)
    (hresult : result? = if Word.IsSigned value then some word else none)
    (hword : Word.IsSigned value → word.toInt = value) :
    instruction.ComputesChecked operands context register value := by
  constructor
  · intro hrange
    rw [hresult, if_pos hrange] at hperform
    rw [← hword hrange]
    exact computes_of_setRegister hperform
  · intro hrange
    rw [hresult, if_neg hrange] at hperform
    exact hperform

end Instruction

variable {ρ ω : Type} [DrawSource ρ] [LineSink ω]

/-- Sums and differences are exact or refused, products are exact up to multiples of `2 ^ 32`,
and comparisons are exact, whatever the registers hold and however they coincide. -/
theorem arithmetic_is_exact (context : Context ρ ω) :
    (∀ fields : RegisterFields,
        let x := (context.register fields.rs).toInt
        let y := (context.register fields.rt).toInt
        Instruction.add.ComputesChecked (.register fields) context fields.rd (x + y) ∧
          Instruction.sub.ComputesChecked (.register fields) context fields.rd (x - y) ∧
          (∃ product,
            (∀ value, Word.IsSigned value ∧ value ≡ x * y [ZMOD 2 ^ 32] ↔ value = product) ∧
              Instruction.mul.Computes (.register fields) context fields.rd product) ∧
          Instruction.slt.Computes (.register fields) context fields.rd (if x < y then 1 else 0)) ∧
      ∀ fields : ImmediateFields,
        Instruction.addi.ComputesChecked (.immediate fields) context fields.rt
          ((context.register fields.rs).toInt + fields.imm.toInt) := by
  constructor
  · intro fields x y
    refine ⟨?_, ?_, ⟨_, fun _ => Word.isSigned_and_modEq_mul_iff,
      Instruction.computes_of_setRegister rfl⟩, ?_⟩
    · exact Instruction.computesChecked_of_setChecked rfl (addSigned?_eq _ _)
        Word.toInt_add_of_isSigned
    · exact Instruction.computesChecked_of_setChecked rfl (subSigned?_eq _ _)
        Word.toInt_sub_of_isSigned
    · have hword : (if x < y then 1 else 0 : Int) =
          (if (context.register fields.rs).slt (context.register fields.rt) then 1 else 0 :
            Word).toInt := by
        simp only [BitVec.slt_iff_toInt_lt, x, y]
        split <;> rfl
      rw [hword]
      exact Instruction.computes_of_setRegister rfl
  · intro fields
    have hchecked := addSigned?_eq (context.register fields.rs) fields.simm
    have hexact := Word.toInt_add_of_isSigned (x := context.register fields.rs) (y := fields.simm)
    rw [ImmediateFields.toInt_simm] at hchecked hexact
    exact Instruction.computesChecked_of_setChecked rfl hchecked hexact

/-- The least signed word subtracted from itself is zero, added to itself overflows, and its
square is dropped by `$zero`. -/
theorem arithmetic_is_exact_at_least_word :
    let context : Context Script Transcript :=
      ⟨(Machine.new {}).setRegister 8 0x80000000, { values := [] }, {}⟩
    let least := (context.register 8).toInt
    Word.IsSigned (least - least) ∧
      ((Instruction.sub.perform (.register ⟨8, 8, 8, 0, 0⟩) context).after.register 8).toInt =
        least - least ∧
      ¬Word.IsSigned (least + least) ∧
      Instruction.add.perform (.register ⟨8, 8, 8, 0, 0⟩) context =
        .failed (.arithmeticOverflow .add) context ∧
      (Instruction.mul.perform (.register ⟨8, 8, 0, 0, 0⟩) context).after = context := by
  intro context least
  have hleast : least = -2 ^ 31 := by decide
  have hdifference : Word.IsSigned (least - least) := by rw [hleast]; decide
  have hsum : ¬Word.IsSigned (least + least) := by rw [hleast]; decide
  obtain ⟨hadd, hsub, -⟩ := (arithmetic_is_exact context).1 ⟨8, 8, 8, 0, 0⟩
  obtain ⟨-, -, ⟨product, -, -, hmul⟩, -⟩ := (arithmetic_is_exact context).1 ⟨8, 8, 0, 0, 0⟩
  exact ⟨hdifference, (hsub.1 hdifference).2.toInt_eq (by decide), hsum, hadd.2 hsum,
    hmul.eq_of_zero rfl⟩

end FacilityIsa
