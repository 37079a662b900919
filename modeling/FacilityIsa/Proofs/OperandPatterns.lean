import FacilityIsa.BitRange
import FacilityIsa.Instruction.Disassembly
import FacilityIsa.Instruction.Encoding

/-!
# Patterns

The pattern of an instruction labels the bits of its words. The labels `0` and `1`
are fixed bits; the letters `f`, `s` and `t` mark the first, the second and the third
operand. Each letter covers one range of bits, these ranges are the fields that the
layout writes, in the order of the letters, and every other bit is fixed.
-/

namespace FacilityIsa

namespace BitRange

/-- Where a word holds the register `rs`. -/
def rs : BitRange := ⟨21, 25, by decide, by decide⟩

/-- Where a word holds the register `rt`. -/
def rt : BitRange := ⟨16, 20, by decide, by decide⟩

/-- Where a word holds the register `rd`. -/
def rd : BitRange := ⟨11, 15, by decide, by decide⟩

/-- Where a word holds an immediate or a displacement. -/
def immediate : BitRange := ⟨0, 15, by decide, by decide⟩

/-- Where a word holds a jump target. -/
def target : BitRange := ⟨0, 25, by decide, by decide⟩

end BitRange

namespace Word

variable {first second : Word} {range : BitRange}

theorem field_ext (h : ∀ index < range.width,
      (first.field range).getLsbD index = (second.field range).getLsbD index) :
    first.field range = second.field range := by
  apply BitVec.eq_of_getLsbD_eq
  intro index _
  by_cases hindex : index < range.width
  · exact h index hindex
  · rw [getLsbD_field, getLsbD_field, decide_eq_false hindex, Bool.false_and, Bool.false_and]

theorem field_eq_field_iff : first.field range = second.field range ↔
    ∀ index, range.lo ≤ index → index ≤ range.hi →
      first.getLsbD index = second.getLsbD index := by
  constructor
  · intro h index hlo hhi
    have hbit := congrArg (·.getLsbD (index - range.lo)) h
    have hwidth : index - range.lo < range.width := by
      rw [BitRange.width]
      omega
    simpa only [getLsbD_field, hwidth, decide_true, Bool.true_and, Nat.add_sub_cancel' hlo]
      using hbit
  · intro h
    have hbounds := range.lo_le_hi
    refine field_ext fun index hindex => ?_
    rw [getLsbD_field, getLsbD_field]
    rw [BitRange.width] at hindex
    rw [h (range.lo + index) (by omega) (by omega)]

theorem extractLsb'_eq_setWidth_field (word : Word) (range : BitRange) :
    word.extractLsb' range.lo range.width = (word.field range).setWidth range.width := by
  apply BitVec.eq_of_getLsbD_eq
  intro index hindex
  simp only [BitVec.getLsbD_extractLsb', BitVec.getLsbD_setWidth, getLsbD_field, hindex,
    decide_true, Bool.true_and]

theorem setWidth_extractLsb' (word : Word) (range : BitRange) :
    (word.extractLsb' range.lo range.width).setWidth 32 = word.field range := by
  apply BitVec.eq_of_getLsbD_eq
  intro index hindex
  simp only [BitVec.getLsbD_setWidth, BitVec.getLsbD_extractLsb', getLsbD_field, hindex,
    decide_true, Bool.true_and]

end Word

theorem RegisterFields.decode_eq (word : Word) : RegisterFields.decode word =
    { rs := (word.field .rs).setWidth 5
      rt := (word.field .rt).setWidth 5
      rd := (word.field .rd).setWidth 5
      shamt := (word.extractLsb' 6 5).setWidth 8
      funct := word.funct.setWidth 8 } := by
  rw [decode, RegisterFields.mk.injEq]
  exact ⟨word.extractLsb'_eq_setWidth_field .rs, word.extractLsb'_eq_setWidth_field .rt,
    word.extractLsb'_eq_setWidth_field .rd, rfl, rfl⟩

theorem ImmediateFields.decode_eq (word : Word) : ImmediateFields.decode word =
    { rs := (word.field .rs).setWidth 5
      rt := (word.field .rt).setWidth 5
      imm := (word.field .immediate).setWidth 16 } := by
  rw [decode, ImmediateFields.mk.injEq]
  exact ⟨word.extractLsb'_eq_setWidth_field .rs, word.extractLsb'_eq_setWidth_field .rt,
    word.extractLsb'_eq_setWidth_field .immediate⟩

theorem JumpFields.decode_eq (word : Word) : JumpFields.decode word = ⟨word.field .target⟩ := by
  rw [decode, JumpFields.mk.injEq]
  exact word.setWidth_extractLsb' .target

/-- The letters of a pattern, by the place of the operand. -/
def operandLetters : List Char :=
  ['f', 's', 't']

namespace InstructionSpec

variable (spec : InstructionSpec)

/-- What the pattern says of each bit, the lowest first. -/
def labels : List Char :=
  (spec.pattern.toList.filter (· ≠ ' ')).reverse

/-- The pattern has a letter at a bit. -/
def IsOperandBit (index : Nat) : Prop :=
  ∃ letter ∈ operandLetters, spec.labels[index]? = some letter

instance (index : Nat) : Decidable (spec.IsOperandBit index) :=
  List.decidableBEx _ _

/-- The bits from the lowest one with a letter on, as many as have it. For a letter that the
pattern lacks the bounds make no range. -/
def operandRange? (letter : Char) : Option BitRange :=
  let lowest := spec.labels.idxOf letter
  (BitRange.ofBounds (lowest + spec.labels.count letter - 1) lowest).toOption

/-- Where the operands stand, in their order. -/
def operandRanges : List BitRange :=
  operandLetters.filterMap spec.operandRange?

/-- The words agree at every bit with a letter. -/
def AgreeOnOperands (first second : Word) : Prop :=
  ∀ index, spec.IsOperandBit index → first.getLsbD index = second.getLsbD index

/-- The word has the values that the pattern fixes. -/
def Conforms (word : Word) : Prop :=
  ∀ index,
    (spec.labels[index]? = some '0' → word.getLsbD index = false) ∧
      (spec.labels[index]? = some '1' → word.getLsbD index = true)

end InstructionSpec

/-- The fields that a layout writes, in the order of writing. -/
def Layout.ranges : Layout → List BitRange
  | rdRsRt => [.rd, .rs, .rt]
  | target => [.target]
  | rsRtBranch | rsRtImm => [.rs, .rt, .immediate]
  | rtRsImm => [.rt, .rs, .immediate]
  | rtOffsetBase => [.rt, .immediate, .rs]
  | imm => [.immediate]
  | rtImm => [.rt, .immediate]
  | rs => [.rs]

namespace Instruction

/-- The patterns agree with the layouts: the letters stand at the fields that are written,
in the same order, and all other bits are fixed. -/
theorem pattern_spec (instruction : Instruction) :
    instruction.spec.operandRanges = instruction.spec.layout.ranges ∧
      instruction.spec.labels.length = 32 ∧
      ∀ index < 32,
        (instruction.spec.IsOperandBit index ↔
          ∃ range ∈ instruction.spec.layout.ranges, range.lo ≤ index ∧ index ≤ range.hi) ∧
        (instruction.spec.IsOperandBit index ∨ instruction.spec.labels[index]? = some '0' ∨
          instruction.spec.labels[index]? = some '1') := by
  cases instruction <;> decide +kernel

variable {instruction : Instruction} {first second : Word}

theorem lt_of_isOperandBit {index : Nat} (h : instruction.spec.IsOperandBit index) :
    index < 32 := by
  obtain ⟨letter, -, hletter⟩ := h
  obtain ⟨hindex, -⟩ := List.getElem?_eq_some_iff.1 hletter
  rwa [instruction.pattern_spec.2.1] at hindex

/-- To agree at the bits with letters is to agree in the fields that are written. -/
theorem agreeOnOperands_iff :
    instruction.spec.AgreeOnOperands first second ↔
      ∀ range ∈ instruction.spec.layout.ranges, first.field range = second.field range := by
  obtain ⟨-, -, hbits⟩ := instruction.pattern_spec
  constructor
  · intro hagree range hrange
    rw [Word.field_eq_field_iff]
    intro index hlo hhi
    have hindex := Nat.lt_of_le_of_lt hhi range.hi_lt
    exact hagree index ((hbits index hindex).1.2 ⟨range, hrange, hlo, hhi⟩)
  · intro hfields index hletter
    obtain ⟨range, hrange, hlo, hhi⟩ := (hbits index (lt_of_isOperandBit hletter)).1.1 hletter
    exact Word.field_eq_field_iff.1 (hfields range hrange) index hlo hhi

theorem conforms_iff {word : Word} : instruction.spec.Conforms word ↔ ∀ index < 32,
    (instruction.spec.labels[index]? = some '0' → word.getLsbD index = false) ∧
      (instruction.spec.labels[index]? = some '1' → word.getLsbD index = true) := by
  refine ⟨fun h index _ => h index, fun h index => ?_⟩
  by_cases hindex : index < 32
  · exact h index hindex
  · have hnone : instruction.spec.labels[index]? = none := by
      rw [List.getElem?_eq_none_iff, instruction.pattern_spec.2.1]
      exact Nat.le_of_not_lt hindex
    simp only [hnone, reduceCtorEq, false_imp_iff, and_self]

theorem eq_of_conforms (hfirst : instruction.spec.Conforms first)
    (hsecond : instruction.spec.Conforms second)
    (hagree : instruction.spec.AgreeOnOperands first second) : first = second := by
  apply BitVec.eq_of_getLsbD_eq
  intro index hindex
  obtain hletter | hzero | hone := (instruction.pattern_spec.2.2 index hindex).2
  · exact hagree index hletter
  · rw [(hfirst index).1 hzero, (hsecond index).1 hzero]
  · rw [(hfirst index).2 hone, (hsecond index).2 hone]

end Instruction
end FacilityIsa
