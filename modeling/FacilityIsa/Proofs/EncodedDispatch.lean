import FacilityIsa.Proofs.Dispatch
import FacilityIsa.Proofs.OperandCodec

/-!
# Dispatch of encoded words

A word that an instruction encodes with operands of its own format carries the
opcode and the function code of the instruction, so dispatch finds the
instruction again, but for `and`, whose words are those of `mul`. Operands of
another format may put anything where the function code stands, and then the
word need not belong to the instruction.
-/

namespace FacilityIsa
namespace Instruction

variable {instruction first second : Instruction} {operands : Operands} {word : Word}

section Encoding

theorem setWidth_setWidth_code (code : BitVec 6) : (code.setWidth 8).setWidth 6 = code := by
  rw [BitVec.setWidth_setWidth_of_le _ (by decide), BitVec.setWidth_eq]

theorem setWidth_code_umod (code : BitVec 6) : code.setWidth 8 % 64 = code.setWidth 8 := by
  have hlow := setWidth_setWidth_eq_umod (code.setWidth 8) (show 6 < 8 by decide)
  rw [setWidth_setWidth_code] at hlow
  exact hlow.symm

theorem opcode_encode (instruction : Instruction) (operands : Operands) :
    (instruction.encode operands).opcode = instruction.spec.opcode := by
  rw [encode, Operands.opcode_encode, setWidth_setWidth_code]

theorem funct_encode (instruction : Instruction) (operands : Operands) :
    (instruction.encode operands).funct = (instruction.withFunct operands).lowSix := by
  rw [encode, Operands.funct_encode]

theorem withFunct_of_format_ne (h : operands.format ≠ .register) :
    instruction.withFunct operands = operands := by
  cases operands with
  | register fields => exact absurd rfl h
  | _ => rfl

theorem withFunct_register {funct : BitVec 6} (h : instruction.spec.funct = some funct)
    (fields : RegisterFields) :
    instruction.withFunct (.register fields) =
      .register { fields with funct := funct.setWidth 8 } := by
  simp only [withFunct, h]

theorem format_withFunct (instruction : Instruction) (operands : Operands) :
    (instruction.withFunct operands).format = operands.format := by
  cases operands with
  | register fields => unfold withFunct; dsimp only; split <;> rfl
  | _ => rfl

theorem format_eq_register_iff :
    instruction.format = .register ↔ instruction.spec.funct ≠ none := by
  cases instruction <;> decide

/-- An encoded word belongs to its instruction unless foreign operands spoil the function code. -/
theorem fits_encode_iff (instruction : Instruction) (operands : Operands) :
    instruction.fits (instruction.encode operands) = true ↔
      instruction.spec.funct = none ∨ operands.format = .register ∨
        instruction.spec.funct = some operands.lowSix := by
  rw [fits_iff, opcode_encode, funct_encode]
  cases hfunct : instruction.spec.funct with
  | none =>
    have hopcode := funct_eq_none_iff.1 hfunct
    exact iff_of_true ⟨rfl, fun hzero => absurd hzero hopcode⟩ (.inl rfl)
  | some funct =>
    have hopcode := opcode_eq_zero_of_funct hfunct
    by_cases hformat : operands.format = .register
    · obtain ⟨fields, rfl⟩ : ∃ fields, operands = .register fields := by
        cases operands with
        | register fields => exact ⟨fields, rfl⟩
        | _ => exact nomatch hformat
      refine iff_of_true ⟨rfl, fun _ => ?_⟩ (.inr (.inl rfl))
      rw [withFunct_register hfunct, Operands.lowSix, setWidth_setWidth_code]
    · rw [withFunct_of_format_ne hformat]
      simp only [hopcode, hformat, reduceCtorEq, false_or, true_and, forall_const]

theorem operandsOf_encode (h : operands.format = instruction.format) :
    instruction.operandsOf (instruction.encode operands) =
      (instruction.withFunct operands).reduced := by
  rw [operandsOf, encode, ← h, ← format_withFunct instruction, Operands.decode_encode]

end Encoding

section Search

/-- The instruction that gets the words of an instruction: `mul` is tried before `and`. -/
def dispatched : Instruction → Instruction
  | and => mul
  | instruction => instruction

theorem code_eq_of_fits (hfirst : first.fits word = true) (hsecond : second.fits word = true) :
    first.spec.opcode = second.spec.opcode ∧ first.spec.funct = second.spec.funct := by
  rw [fits_iff] at hfirst hsecond
  have hopcode := hfirst.1.trans hsecond.1.symm
  refine ⟨hopcode, ?_⟩
  by_cases hzero : word.opcode = 0
  · exact (hfirst.2 hzero).trans (hsecond.2 hzero).symm
  · have hnone : first.spec.funct = none :=
      funct_eq_none_iff.2 fun h => hzero (hfirst.1.symm.trans h)
    have hnone' : second.spec.funct = none :=
      funct_eq_none_iff.2 fun h => hzero (hsecond.1.symm.trans h)
    rw [hnone, hnone']

theorem dispatched_eq_of_code (hopcode : first.spec.opcode = second.spec.opcode)
    (hfunct : first.spec.funct = second.spec.funct) : first.dispatched = second.dispatched := by
  revert hopcode hfunct
  cases first <;> cases second <;> decide

theorem fits_mul_of_fits_and (h : and.fits word = true) : mul.fits word = true := by
  rw [fits_iff] at *
  exact h

end Search

end Instruction

namespace Catalog

variable {instruction : Instruction} {word : Word}

theorem find?_full_ne_and : full.find? word ≠ some .and := by
  intro hfound
  have hand := List.find?_some hfound
  have hmul := Instruction.fits_mul_of_fits_and hand
  have hsome : (([.add, .sub, .mul] : List Instruction).find? (·.fits word)).isSome :=
    List.find?_isSome.2 ⟨.mul, by decide, hmul⟩
  obtain ⟨early, hearly⟩ := Option.isSome_iff_exists.1 hsome
  have hfull : full.find? word = some early := by
    change ([Instruction.add, .sub, .mul] ++ Instruction.all.drop 3).find? _ = _
    rw [List.find?_append, hearly, Option.some_or]
  rw [hfull, Option.some.injEq] at hfound
  have hmem := List.mem_of_find?_eq_some hearly
  rw [hfound] at hmem
  exact absurd hmem (by decide)

theorem find?_full_of_fits (h : instruction.fits word = true) :
    full.find? word = some instruction.dispatched := by
  have hsome : (full.find? word).isSome :=
    List.find?_isSome.2 ⟨instruction, Instruction.mem_all instruction, h⟩
  obtain ⟨found, hfound⟩ := Option.isSome_iff_exists.1 hsome
  have hfits := List.find?_some hfound
  obtain ⟨hopcode, hfunct⟩ := Instruction.code_eq_of_fits hfits h
  have hself : found.dispatched = found := by
    cases found with
    | and => exact absurd hfound find?_full_ne_and
    | _ => rfl
  rw [← Instruction.dispatched_eq_of_code hopcode hfunct, hself]
  exact hfound

/-- With operands of its own format an instruction encodes a word that is found to be its
own and that carries the operands as far as they have room. With other operands the word
is its own unless it lacks the function code. -/
theorem encoded_word_finds_encoder (instruction : Instruction) (operands : Operands) :
    let word := instruction.encode operands
    (operands.format = instruction.format →
      instruction.fits word = true ∧
        full.find? word = some (if instruction = .and then .mul else instruction) ∧
        (∀ fields, operands = .register fields → ∃ funct, instruction.spec.funct = some funct ∧
          (instruction.decode word).operands =
            .register { fields.reduced with funct := funct.setWidth 8 }) ∧
        (operands.format ≠ .register → (instruction.decode word).operands = operands.reduced)) ∧
      (operands.format ≠ instruction.format →
        (instruction.fits word = true ↔
          instruction.spec.funct = none ∨ operands.format = .register ∨
            instruction.spec.funct = some operands.lowSix)) := by
  intro word
  refine ⟨?_, fun _ => instruction.fits_encode_iff operands⟩
  intro hformat
  have hoperands : (instruction.decode word).operands = (instruction.withFunct operands).reduced :=
    Instruction.operandsOf_encode hformat
  have hfits : instruction.fits word = true := by
    rw [instruction.fits_encode_iff operands, hformat, Instruction.format_eq_register_iff]
    by_cases hnone : instruction.spec.funct = none
    · exact .inl hnone
    · exact .inr (.inl hnone)
  refine ⟨hfits, ?_, ?_, ?_⟩
  · rw [find?_full_of_fits hfits]
    cases instruction <;> rfl
  · rintro fields rfl
    obtain ⟨funct, hfunct⟩ :=
      Option.ne_none_iff_exists'.1 (Instruction.format_eq_register_iff.1 hformat.symm)
    refine ⟨funct, hfunct, ?_⟩
    rw [hoperands, Instruction.withFunct_register hfunct, Operands.reduced, RegisterFields.reduced,
      Instruction.setWidth_code_umod]
    rfl
  · intro hother
    rw [hoperands, Instruction.withFunct_of_format_ne hother]

/-- All that `and` encodes goes to `mul`, with spare bits of the operands dropped. An
immediate that ends in the function code of `add` makes a word of `add`, and no other does. -/
theorem encoded_word_finds_encoder_of_and :
    let operands : Operands := .register ⟨10, 11, 9, 0xFF, 0xFF⟩
    let word := Instruction.and.encode operands
    Instruction.and.fits word = true ∧ full.find? word = some .mul ∧
      (Instruction.and.decode word).operands = .register ⟨10, 11, 9, 31, 0x24⟩ ∧
      Instruction.add.fits (Instruction.add.encode (.immediate ⟨1, 2, 0xFF20⟩)) = true ∧
      Instruction.add.fits (Instruction.add.encode (.immediate ⟨1, 2, 0xFF21⟩)) = false := by
  intro operands word
  obtain ⟨hown, -⟩ := encoded_word_finds_encoder .and operands
  obtain ⟨hfits, hfind, hcarried, -⟩ := hown rfl
  obtain ⟨funct, hfunct, hoperands⟩ := hcarried ⟨10, 11, 9, 0xFF, 0xFF⟩ rfl
  cases hfunct
  obtain ⟨-, hends⟩ := encoded_word_finds_encoder .add (.immediate ⟨1, 2, 0xFF20⟩)
  obtain ⟨-, hdiffers⟩ := encoded_word_finds_encoder .add (.immediate ⟨1, 2, 0xFF21⟩)
  refine ⟨hfits, hfind, hoperands, (hends (by decide)).2 (by decide), ?_⟩
  rw [Bool.eq_false_iff, Ne, hdiffers (by decide)]
  decide

end Catalog
end FacilityIsa
