import FacilityIsa.Draws.Script
import FacilityIsa.Execution.Dispatch
import FacilityIsa.Proofs.EncodedDispatch
import FacilityIsa.Proofs.OperandPatterns

/-!
# What instructions read of their operands

An instruction reads the fields that its layout writes and no others. So the bits that
its pattern neither fixes nor marks with a letter have no part in execution, and encoding
operands, which drops the bits of a field that have no room and replaces the function
code, takes away nothing that is read. The one exception is a jump target of more than
26 bits: its higher bits go into the region of the program counter, where they are seen
unless the counter has them already.
-/

namespace FacilityIsa

/-- The fields of the immediate format that a layout writes, and zeros for the others. -/
def Layout.shownFields : Layout → ImmediateFields → ImmediateFields
  | imm, fields => { fields with rs := 0, rt := 0 }
  | rtImm, fields => { fields with rs := 0 }
  | rs, fields => { fields with rt := 0, imm := 0 }
  | _, fields => fields

/-- The fields that a layout writes, and zeros for the others. -/
def Layout.shown (layout : Layout) : Operands → Operands
  | .register fields => .register { fields with shamt := 0, funct := 0 }
  | .immediate fields => .immediate (layout.shownFields fields)
  | .jump fields => .jump fields
  | .branch fields => .branch (layout.shownFields fields)

theorem Instruction.shown_operandsOf_congr {instruction : Instruction} {first second : Word}
    (h : ∀ range ∈ instruction.spec.layout.ranges, first.field range = second.field range) :
    instruction.spec.layout.shown (instruction.operandsOf first) =
      instruction.spec.layout.shown (instruction.operandsOf second) := by
  cases instruction <;>
    simp only [spec, InstructionSpec.threeRegister, InstructionSpec.work, Layout.ranges,
      List.forall_mem_cons, List.not_mem_nil, false_imp_iff, implies_true, and_true] at h <;>
    simp only [spec, InstructionSpec.threeRegister, InstructionSpec.work, operandsOf, format,
      Operands.decode, RegisterFields.decode_eq, ImmediateFields.decode_eq, JumpFields.decode_eq,
      Layout.shown, Layout.shownFields, h]

theorem JumpFields.getLsbD_target_reduced (target : Word) {index : Nat} (hindex : index < 32) :
    (JumpFields.reduced ⟨target⟩).target.getLsbD index =
      (decide (index < 26) && target.getLsbD index) := by
  have hreduced : (JumpFields.reduced ⟨target⟩).target = (target.setWidth 26).setWidth 32 :=
    (setWidth_setWidth_eq_umod target (show 26 < 32 by decide)).symm
  rw [hreduced]
  simp only [BitVec.getLsbD_setWidth, hindex, decide_true, Bool.true_and]

namespace Context

variable {ρ ω : Type} (context : Context ρ ω)

theorem getLsbD_jumpTarget (fields : JumpFields) {index : Nat} (hindex : index < 32) :
    (context.jumpTarget fields).getLsbD index =
      (context.pc.getLsbD index && decide (28 ≤ index) ||
        decide (2 ≤ index) && fields.target.getLsbD (index - 2)) := by
  have hregion : ((0xF0000000 : Nat) : Word) = Word.lowMask 4 <<< 28 := by decide
  have hfour : index - 28 < 4 ∧ index - 28 < 32 := by omega
  rw [jumpTarget, hregion]
  simp only [BitVec.getLsbD_or, BitVec.getLsbD_and, BitVec.getLsbD_shiftLeft,
    Word.getLsbD_lowMask, hindex, hfour, and_self, decide_true, Bool.true_and, Bool.and_true]
  simp only [← decide_not, Nat.not_lt]

/-- The bits of a target that a word has no room for are seen in the address unless the
program counter has them in its region. The highest two are lost in any case. -/
theorem jumpTarget_reduced_iff (target : Word) :
    context.jumpTarget (JumpFields.reduced ⟨target⟩) = context.jumpTarget ⟨target⟩ ↔
      ∀ index, 26 ≤ index → index ≤ 29 →
        target.getLsbD index = true → context.pc.getLsbD (index + 2) = true := by
  constructor
  · intro h index hlow hhigh hbit
    have hsame := congrArg (·.getLsbD (index + 2)) h
    simpa [context.getLsbD_jumpTarget _ (show index + 2 < 32 by omega),
      JumpFields.getLsbD_target_reduced target (show index < 32 by omega), hbit,
      show 26 ≤ index by omega, show ¬index < 26 by omega] using hsame
  · intro h
    apply BitVec.eq_of_getLsbD_eq
    intro index hindex
    rw [context.getLsbD_jumpTarget _ hindex, context.getLsbD_jumpTarget _ hindex,
      JumpFields.getLsbD_target_reduced target (by omega)]
    cases hbit : target.getLsbD (index - 2) with
    | false => rw [Bool.and_false]
    | true =>
      by_cases hkept : index - 2 < 26
      · rw [decide_eq_true hkept, Bool.true_and]
      · have hcounter := h (index - 2) (by omega) (by omega) hbit
        rw [show index - 2 + 2 = index by omega] at hcounter
        rw [hcounter, decide_eq_true (show 28 ≤ index by omega), Bool.true_and, Bool.true_or,
          Bool.true_or]

end Context

section Execution

variable {ρ ω : Type} [DrawSource ρ] [LineSink ω] {instruction : Instruction}
  {operands : Operands} {first second : Word}

/-- Fields that are not written are not read. -/
theorem Instruction.perform_shown (instruction : Instruction) (operands : Operands)
    (context : Context ρ ω) :
    instruction.perform (instruction.spec.layout.shown operands) context =
      instruction.perform operands context := by
  cases instruction <;> cases operands <;> rfl

theorem Instruction.perform_operandsOf_congr
    (h : instruction.spec.AgreeOnOperands first second) (context : Context ρ ω) :
    instruction.perform (instruction.operandsOf first) context =
      instruction.perform (instruction.operandsOf second) context := by
  rw [← instruction.perform_shown (instruction.operandsOf first),
    ← instruction.perform_shown (instruction.operandsOf second),
    shown_operandsOf_congr (agreeOnOperands_iff.1 h)]

/-- Two words of an instruction that agree wherever its pattern has a letter are executed
alike, whatever they have in the bits that the pattern leaves open: the shift amount of the
register format, both registers of `ordeal`, the first register of `ego`, and all but the
first register of `panic` and `meltdown`. -/
theorem unmarked_bits_have_no_effect (catalog : Catalog) (context : Context ρ ω) :
    (∀ (instruction : Instruction) (first second : Word),
        catalog.find? first = some instruction → catalog.find? second = some instruction →
        instruction.spec.AgreeOnOperands first second →
          catalog.execute first context = catalog.execute second context) ∧
      ∀ (instruction : Instruction), ∀ index < 32,
        ¬instruction.spec.IsOperandBit index ∧ instruction.fixedMask.getLsbD index = false ↔
          instruction.format = .register ∧ 6 ≤ index ∧ index ≤ 10 ∨
            instruction = .ordeal ∧ 16 ≤ index ∧ index ≤ 25 ∨
              instruction = .ego ∧ 21 ≤ index ∧ index ≤ 25 ∨
                (instruction = .panic ∨ instruction = .meltdown) ∧ index ≤ 20 := by
  constructor
  · intro instruction first second hfirst hsecond hagree
    rw [Catalog.execute_of_find?_eq_some hfirst, Catalog.execute_of_find?_eq_some hsecond,
      Instruction.perform_operandsOf_congr hagree]
  · intro instruction index hindex
    rw [(instruction.pattern_spec.2.2 index hindex).1]
    revert index
    cases instruction <;> decide

/-- A meltdown names its department and reads no more of its word. -/
theorem unmarked_bits_have_no_effect_of_meltdown :
    let context : Context Script Transcript := ⟨Machine.new {}, { values := [3] }, {}⟩
    Catalog.full.find? 0x66200000 = some .meltdown ∧
      Catalog.full.find? 0x663FBEEF = some .meltdown ∧
      Instruction.meltdown.spec.AgreeOnOperands 0x66200000 0x663FBEEF ∧
      Catalog.full.execute 0x66200000 context = Catalog.full.execute 0x663FBEEF context ∧
      ¬Instruction.meltdown.spec.IsOperandBit 20 := by
  intro context
  obtain ⟨hexecute, hunmarked⟩ := unmarked_bits_have_no_effect Catalog.full context
  have hfirst : Catalog.full.find? 0x66200000 = some .meltdown := by decide
  have hsecond : Catalog.full.find? 0x663FBEEF = some .meltdown := by decide
  have hagree : Instruction.meltdown.spec.AgreeOnOperands 0x66200000 0x663FBEEF :=
    Instruction.agreeOnOperands_iff.2 (by decide)
  have hspare := (hunmarked .meltdown 20 (by decide)).2 (by decide)
  exact ⟨hfirst, hsecond, hagree, hexecute _ _ _ hfirst hsecond hagree, hspare.1⟩

theorem Instruction.shown_reduced_withFunct (instruction : Instruction)
    (hformat : operands.format ≠ .jump) (layout : Layout) :
    layout.shown (instruction.withFunct operands).reduced = layout.shown operands := by
  cases operands with
  | register fields =>
    unfold withFunct
    dsimp only
    split <;> rfl
  | jump fields => exact absurd rfl hformat
  | _ => rfl

theorem Catalog.execute_encode (hformat : operands.format = instruction.format)
    (context : Context ρ ω) :
    (⟨[instruction]⟩ : Catalog).execute (instruction.encode operands) context =
      (instruction.perform (instruction.withFunct operands).reduced context).map
        fun _ => instruction := by
  have hfits : instruction.fits (instruction.encode operands) = true := by
    rw [Instruction.fits_encode_iff, hformat, Instruction.format_eq_register_iff]
    exact or_iff_not_imp_left.2 .inl
  have hfind : (⟨[instruction]⟩ : Catalog).find? (instruction.encode operands) =
      some instruction := List.find?_cons_of_pos hfits
  rw [execute_of_find?_eq_some hfind, Instruction.operandsOf_encode hformat]

theorem Instruction.format_eq_jump_iff :
    instruction.format = .jump ↔ instruction = .j ∨ instruction = .jal := by
  cases instruction <;> decide

theorem Instruction.pc_perform_jump (hformat : instruction.format = .jump) (fields : JumpFields)
    (context : Context ρ ω) :
    (instruction.perform (.jump fields) context).after.pc = context.jumpTarget fields := by
  obtain rfl | rfl := format_eq_jump_iff.1 hformat <;> rfl

theorem Instruction.perform_jump_congr {fields other : JumpFields} {context : Context ρ ω}
    (h : context.jumpTarget fields = context.jumpTarget other) :
    instruction.perform (.jump fields) context = instruction.perform (.jump other) context := by
  cases instruction with
  | j => simp only [perform, Context.j, h]
  | jal => simp only [perform, Context.jal, h]
  | _ => rfl

theorem Catalog.execute_encode_jump_iff (hformat : instruction.format = .jump) (target : Word)
    (context : Context ρ ω) :
    (⟨[instruction]⟩ : Catalog).execute (instruction.encode (.jump ⟨target⟩)) context =
        (instruction.perform (.jump ⟨target⟩) context).map (fun _ => instruction) ↔
      ∀ index, 26 ≤ index → index ≤ 29 →
        target.getLsbD index = true → context.pc.getLsbD (index + 2) = true := by
  have hown : (Operands.jump ⟨target⟩).format = instruction.format := hformat.symm
  rw [execute_encode hown, ← context.jumpTarget_reduced_iff]
  constructor
  · intro h
    have hpc := congrArg (·.after.pc) h
    rw [Attempt.after_map, Attempt.after_map, Instruction.pc_perform_jump hformat] at hpc
    exact (Instruction.pc_perform_jump hformat _ context).symm.trans hpc
  · intro h
    exact congrArg (Attempt.map _) (Instruction.perform_jump_congr h)

/-- To execute the word that an instruction encodes with operands of its own format is to
perform the instruction on the operands, whatever their spare bits, as long as a jump target
has 26 bits. With a longer target the two differ unless the program counter has, in its
region, the bits that the word leaves out. -/
theorem encoded_operands_execute_alike (instruction : Instruction) (context : Context ρ ω) :
    (∀ operands : Operands, operands.format = instruction.format →
        (∀ fields, operands = .jump fields → fields.target < 0x4000000) →
          (⟨[instruction]⟩ : Catalog).execute (instruction.encode operands) context =
            (instruction.perform operands context).map fun _ => instruction) ∧
      (instruction.format = .jump → ∀ target : Word,
        ((⟨[instruction]⟩ : Catalog).execute (instruction.encode (.jump ⟨target⟩)) context =
            (instruction.perform (.jump ⟨target⟩) context).map (fun _ => instruction) ↔
          ∀ index, 26 ≤ index → index ≤ 29 →
            target.getLsbD index = true → context.pc.getLsbD (index + 2) = true)) := by
  refine ⟨?_, fun hformat target => Catalog.execute_encode_jump_iff hformat target context⟩
  intro operands hformat htarget
  by_cases hjump : operands.format = .jump
  · obtain ⟨⟨target⟩, rfl⟩ : ∃ fields, operands = .jump fields := by
      cases operands with
      | jump fields => exact ⟨fields, rfl⟩
      | _ => exact nomatch hjump
    have hroom : target.toNat < 2 ^ 26 := htarget ⟨target⟩ rfl
    refine (Catalog.execute_encode_jump_iff hformat.symm target context).2 ?_
    intro index hlow _ hbit
    have hnone := Nat.testBit_lt_two_pow
      (Nat.lt_of_lt_of_le hroom (Nat.pow_le_pow_right (by decide) hlow))
    exact nomatch hnone.symm.trans hbit
  · rw [Catalog.execute_encode hformat, ← instruction.perform_shown operands,
      ← instruction.shown_reduced_withFunct hjump,
      instruction.perform_shown]

/-- Spare bits of `and` are dropped without effect. Of the jump targets past 26 bits one lies
in the region of the program counter, with two bits beyond the word that no jump sees, and
one does not. -/
theorem encoded_operands_execute_alike_of_long_target :
    let context : Context Script Transcript :=
      ⟨(Machine.new {}).setPc 0x30400000, { values := [3] }, {}⟩
    let alike (instruction : Instruction) (operands : Operands) :=
      (⟨[instruction]⟩ : Catalog).execute (instruction.encode operands) context =
        (instruction.perform operands context).map fun _ => instruction
    alike .and (.register ⟨10, 11, 9, 0xFF, 0xFF⟩) ∧ alike .j (.jump ⟨0x03FFFFFF⟩) ∧
      alike .jal (.jump ⟨0xCC000004⟩) ∧ ¬alike .jal (.jump ⟨0x10000004⟩) := by
  intro context alike
  obtain ⟨hand, -⟩ := encoded_operands_execute_alike .and context
  obtain ⟨hj, -⟩ := encoded_operands_execute_alike .j context
  obtain ⟨-, hjal⟩ := encoded_operands_execute_alike .jal context
  refine ⟨hand _ rfl (by intro _ h; cases h), hj _ rfl ?_, (hjal rfl _).2 ?_, ?_⟩
  · rintro fields h
    cases h
    decide
  · intro index hlow hhigh
    obtain rfl | rfl | rfl | rfl : index = 26 ∨ index = 27 ∨ index = 28 ∨ index = 29 := by
      omega
    all_goals decide
  · intro halike
    have hcounter := (hjal rfl _).1 halike 28 (by decide) (by decide) (by decide)
    exact absurd hcounter (by decide)

end Execution
end FacilityIsa
