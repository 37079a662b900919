import FacilityIsa.Instruction.Basic
import FacilityIsa.Operands.Codec

/-!
# Encoding of instructions

A word belongs to an instruction when it has the opcode of the instruction
and, for the register format, its function code too. These are the fixed bits;
no other bit of a word tells instructions apart. Two instructions overlap when
they agree on the bits that are fixed in both, so that some word belongs to
both.
-/

namespace FacilityIsa
namespace Instruction

variable (instruction : Instruction)

/-- The bits that a word must share with the instruction. -/
def fixedMask : Word :=
  match instruction.spec.funct with
  | some _ => 0xFC00003F
  | none => 0xFC000000

/-- The values of the fixed bits, and zeros elsewhere. -/
def fixedBits : Word :=
  instruction.spec.opcode ++ (0 : BitVec 20) ++ instruction.spec.funct.getD 0

def fits (word : Word) : Bool :=
  word &&& instruction.fixedMask = instruction.fixedBits

/-- Some word belongs to both instructions. -/
def overlaps (other : Instruction) : Bool :=
  let common := instruction.fixedMask &&& other.fixedMask
  instruction.fixedBits &&& common = other.fixedBits &&& common

theorem fixedBits_and_fixedMask :
    instruction.fixedBits &&& instruction.fixedMask = instruction.fixedBits := by
  cases instruction <;> decide

theorem overlaps_comm (other : Instruction) :
    instruction.overlaps other = other.overlaps instruction := by
  simp only [overlaps, BitVec.and_comm instruction.fixedMask, eq_comm]

/-- The operands of a word that belongs to the instruction. -/
def operandsOf (word : Word) : Operands :=
  Operands.decode instruction.format word

/-- Register operands with the function code of the instruction, if it has one;
all other operands as they are. -/
def withFunct : Operands → Operands
  | .register fields =>
    match instruction.spec.funct with
    | some funct => .register { fields with funct := funct.setWidth 8 }
    | none => .register fields
  | operands => operands

/-- The word of the instruction with the given operands, of whatever format. -/
def encode (operands : Operands) : Word :=
  (instruction.withFunct operands).encode (instruction.spec.opcode.setWidth 8)

end Instruction
end FacilityIsa
