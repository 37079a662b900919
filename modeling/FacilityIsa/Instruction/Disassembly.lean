import FacilityIsa.Instruction.Encoding

/-!
# Assembly text

A decoded word is written as its mnemonic and its operands in the order of the
layout. Registers appear by name, immediates as signed decimals, and a jump
target as the byte address that it stands for before the region is added. A
layout whose fields the operands lack shows the word itself.
-/

namespace FacilityIsa

/-- The fields of the immediate and the branch format. -/
def Operands.immediateFields? : Operands → Option ImmediateFields
  | .immediate fields => some fields
  | .branch fields => some fields
  | _ => none

namespace Layout

/-- The operands as the layout writes them, if they have the fields it needs. -/
def write? : Layout → Operands → Option String
  | rdRsRt, .register fields =>
    some (fields.rd.name ++ ", " ++ fields.rs.name ++ ", " ++ fields.rt.name)
  | target, .jump fields => some (Word.toHex (fields.target <<< 2))
  | rdRsRt, _ => none
  | target, _ => none
  | rsRtBranch, operands => operands.immediateFields?.map fun fields =>
    fields.rs.name ++ ", " ++ fields.rt.name ++ ", " ++ fields.simm.toDecimal
  | rsRtImm, operands => operands.immediateFields?.map fun fields =>
    fields.rs.name ++ ", " ++ fields.rt.name ++ ", " ++ fields.simm.toDecimal
  | rtRsImm, operands => operands.immediateFields?.map fun fields =>
    fields.rt.name ++ ", " ++ fields.rs.name ++ ", " ++ fields.simm.toDecimal
  | rtOffsetBase, operands => operands.immediateFields?.map fun fields =>
    fields.rt.name ++ ", " ++ fields.simm.toDecimal ++ "(" ++ fields.rs.name ++ ")"
  | imm, operands => operands.immediateFields?.map fun fields => fields.simm.toDecimal
  | rtImm, operands => operands.immediateFields?.map fun fields =>
    fields.rt.name ++ ", " ++ fields.simm.toDecimal
  | rs, operands => operands.immediateFields?.map fun fields => fields.rs.name

end Layout

/-- A word taken apart as a word of an instruction. -/
structure DecodedWord where
  instruction : Instruction
  operands : Operands
  word : Word
  deriving DecidableEq

namespace Instruction

def decode (instruction : Instruction) (word : Word) : DecodedWord :=
  ⟨instruction, instruction.operandsOf word, word⟩

end Instruction

namespace DecodedWord

def text (decoded : DecodedWord) : String :=
  let operands := (decoded.instruction.spec.layout.write? decoded.operands).getD decoded.word.toHex
  decoded.instruction.mnemonic ++ " " ++ operands

end DecodedWord
end FacilityIsa
