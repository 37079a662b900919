import FacilityIsa.Register.Basic
import FacilityIsa.Word

/-!
# Operands

Below its opcode an instruction holds operands in one of four formats: three
registers, two registers and an immediate, a jump target, or two registers and
a branch displacement. The last has the fields of the second and is told apart
from it by meaning only. Immediates are kept as the 16 bits they are.
-/

namespace FacilityIsa

inductive Format where
  | register
  | immediate
  | jump
  | branch
  deriving DecidableEq, Repr

namespace Format

/-- The name shown in messages and listings. -/
def label : Format → String
  | .register => "R"
  | .immediate => "I"
  | .jump => "J"
  | .branch => "I-BRANCH"

/-- The name as one word. -/
def tag : Format → String
  | .register => "R"
  | .immediate => "I"
  | .jump => "J"
  | .branch => "IBranch"

/-- The label in a column. -/
def padded (padding : Text.Padding) (format : Format) : String :=
  padding.apply format.label

end Format

/-- Three registers, a shift amount and a function code. -/
structure RegisterFields where
  rs : Register
  rt : Register
  rd : Register
  shamt : BitVec 8
  funct : BitVec 8
  deriving DecidableEq

/-- Two registers and 16 raw bits. -/
structure ImmediateFields where
  rs : Register
  rt : Register
  imm : BitVec 16
  deriving DecidableEq

namespace ImmediateFields

/-- The fields with the low 16 bits of a number as their immediate. -/
def ofNumber (rs rt : Register) (number : Word) : ImmediateFields :=
  ⟨rs, rt, number.setWidth 16⟩

/-- The immediate as a signed number. -/
def simm (fields : ImmediateFields) : Word :=
  fields.imm.signExtend 32

@[simp] theorem toInt_simm (fields : ImmediateFields) : fields.simm.toInt = fields.imm.toInt :=
  BitVec.toInt_signExtend_of_le (by decide)

end ImmediateFields

/-- A target counted in words. An encoded target has 26 bits. -/
structure JumpFields where
  target : Word
  deriving DecidableEq

namespace JumpFields

/-- The fields with the low 26 bits of a number as their target. -/
def ofNumber (number : Word) : JumpFields :=
  ⟨number &&& Word.lowMask 26⟩

end JumpFields

inductive Operands where
  | register (fields : RegisterFields)
  | immediate (fields : ImmediateFields)
  | jump (fields : JumpFields)
  | branch (fields : ImmediateFields)
  deriving DecidableEq

namespace Operands

def format : Operands → Format
  | .register _ => .register
  | .immediate _ => .immediate
  | .jump _ => .jump
  | .branch _ => .branch

end Operands
end FacilityIsa
