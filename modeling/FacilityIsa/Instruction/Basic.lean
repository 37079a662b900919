import FacilityIsa.Operands.Basic

/-!
# Instructions

The instruction set has a base part of arithmetic, control and memory
instructions and a thematic part for running a containment facility. Each
instruction is described by a record: how it is written, which bits of a word
are fixed, which hold the first, second and third operand (`f`, `s` and `t`),
and what it does.

`mul` and `and` have the same fixed bits. In the order of `Instruction.all`
the words of both belong to `mul`.
-/

namespace FacilityIsa

inductive Instruction where
  | add | sub | mul | and | or | slt
  | j | jal | beq | bne
  | addi | lw | sw
  | extract | winst | winsight | wattach | wrepress
  | suppress | ordeal | ego | panic | meltdown
  deriving DecidableEq, Repr

/-- Which operands are written, and in which order. -/
inductive Layout where
  | rdRsRt
  | target
  | rsRtBranch
  | rtRsImm
  | rtOffsetBase
  | rsRtImm
  | imm
  | rtImm
  | rs
  deriving DecidableEq, Repr

/-- What is known of an instruction besides its effect. -/
structure InstructionSpec where
  mnemonic : String
  /-- An example of how the instruction is written. -/
  sample : String
  /-- The 32 bits in groups: `0` and `1` are fixed, letters are operands. -/
  pattern : String
  description : String
  opcode : BitVec 6
  /-- The function code, for instructions of the register format. -/
  funct : Option (BitVec 6) := none
  format : Format
  layout : Layout
  deriving DecidableEq

namespace InstructionSpec

/-- An instruction from two registers into a third, told apart by its function code. -/
def threeRegister (mnemonic codePattern description : String) (funct : BitVec 6) :
    InstructionSpec where
  mnemonic := mnemonic
  sample := mnemonic ++ " $t1,$t2,$t3"
  pattern := "000000 sssss ttttt fffff 00000 " ++ codePattern
  description := description
  opcode := 0
  funct := some funct
  format := .register
  layout := .rdRsRt

/-- An instruction that adds a signed immediate to a virtue of an agent. -/
def work (mnemonic sample codePattern description : String) (opcode : BitVec 6) :
    InstructionSpec where
  mnemonic := mnemonic
  sample := sample
  pattern := codePattern ++ " sssss fffff tttttttttttttttt"
  description := description
  opcode := opcode
  format := .immediate
  layout := .rtRsImm

end InstructionSpec

namespace Instruction

/-- Every instruction, in the order in which dispatch tries them. -/
def all : List Instruction :=
  [add, sub, mul, and, or, slt, j, jal, beq, bne, addi, lw, sw, extract, winst, winsight,
   wattach, wrepress, suppress, ordeal, ego, panic, meltdown]

theorem mem_all (instruction : Instruction) : instruction ∈ all := by
  cases instruction <;> decide

def spec : Instruction → InstructionSpec
  | add => .threeRegister "add" "100000"
      "Addition with overflow: set $t1 to ($t2 plus $t3)" 0b100000
  | sub => .threeRegister "sub" "100010"
      "Subtraction with overflow: set $t1 to ($t2 minus $t3)" 0b100010
  | mul => .threeRegister "mul" "100100"
      "Multiplication: set $t1 to the low 32 bits of ($t2 times $t3)" 0b100100
  | and => .threeRegister "and" "100100"
      "Bitwise AND: set $t1 to ($t2 AND $t3)" 0b100100
  | or => .threeRegister "or" "100101"
      "Bitwise OR: set $t1 to ($t2 OR $t3)" 0b100101
  | slt => .threeRegister "slt" "101010"
      "Set less than: set $t1 to 1 if $t2 < $t3 (signed) else 0" 0b101010
  | j =>
    { mnemonic := "j"
      sample := "j target"
      pattern := "000010 ffffffffffffffffffffffffff"
      description := "Jump unconditionally: jump to statement at target address"
      opcode := 0b000010
      format := .jump
      layout := .target }
  | jal =>
    { mnemonic := "jal"
      sample := "jal target"
      pattern := "000011 ffffffffffffffffffffffffff"
      description := "Jump and link: set $ra to the return address then jump to target address"
      opcode := 0b000011
      format := .jump
      layout := .target }
  | beq =>
    { mnemonic := "beq"
      sample := "beq $t1,$t2,label"
      pattern := "000100 fffff sssss tttttttttttttttt"
      description := "Branch if equal: branch to statement at label's address if $t1 == $t2"
      opcode := 0b000100
      format := .branch
      layout := .rsRtBranch }
  | bne =>
    { mnemonic := "bne"
      sample := "bne $t1,$t2,label"
      pattern := "000101 fffff sssss tttttttttttttttt"
      description := "Branch if not equal: branch to statement at label's address if $t1 != $t2"
      opcode := 0b000101
      format := .branch
      layout := .rsRtBranch }
  | addi =>
    { mnemonic := "addi"
      sample := "addi $t1,$t2,-100"
      pattern := "001000 sssss fffff tttttttttttttttt"
      description :=
        "Addition immediate with overflow: set $t1 to ($t2 plus signed 16-bit immediate)"
      opcode := 0b001000
      format := .immediate
      layout := .rtRsImm }
  | lw =>
    { mnemonic := "lw"
      sample := "lw $t1,-100($t2)"
      pattern := "100011 ttttt fffff ssssssssssssssss"
      description := "Load word: set $t1 to contents of effective memory word address"
      opcode := 0b100011
      format := .immediate
      layout := .rtOffsetBase }
  | sw =>
    { mnemonic := "sw"
      sample := "sw $t1,-100($t2)"
      pattern := "101011 ttttt fffff ssssssssssssssss"
      description := "Store word: store contents of $t1 into effective memory word address"
      opcode := 0b101011
      format := .immediate
      layout := .rtOffsetBase }
  | extract =>
    { mnemonic := "extract"
      sample := "extract $t1,$t2,1"
      pattern := "010000 sssss fffff tttttttttttttttt"
      description := "Extract PE-Box: set $t1 to ($t2 plus a random amount scaled by risk)"
      opcode := 0b010000
      format := .immediate
      layout := .rtRsImm }
  | winst => .work "winst" "winst $t1,$t2,15" "010001"
      "Work: Instinct (Fortitude): set $t1 to ($t2 plus signed immediate)" 0b010001
  | winsight => .work "winsight" "winsight $t1,$t2,10" "010010"
      "Work: Insight (Prudence): set $t1 to ($t2 plus signed immediate)" 0b010010
  | wattach => .work "wattach" "wattach $t1,$t2,8" "010011"
      "Work: Attachment (Temperance): set $t1 to ($t2 plus signed immediate)" 0b010011
  | wrepress => .work "wrepress" "wrepress $t1,$t2,12" "010100"
      "Work: Repression (Justice): set $t1 to ($t2 plus signed immediate)" 0b010100
  | suppress =>
    { mnemonic := "suppress"
      sample := "suppress $t1,$t2,3"
      pattern := "010101 fffff sssss tttttttttttttttt"
      description := "Suppress breach: set $v0 to 1 if $t1 > ($t2 scaled by risk) else 0"
      opcode := 0b010101
      format := .immediate
      layout := .rsRtImm }
  | ordeal =>
    { mnemonic := "ordeal"
      sample := "ordeal 0"
      pattern := "010110 00000 00000 ffffffffffffffff"
      description :=
        "Trigger an Ordeal (0 = Dawn, 1 = Noon, 2 = Dusk, 3 = Midnight) against a random agent"
      opcode := 0b010110
      format := .immediate
      layout := .imm }
  | ego =>
    { mnemonic := "ego"
      sample := "ego $t0,3"
      pattern := "010111 00000 fffff ssssssssssssssss"
      description := "Equip E.G.O: add the bonus of E.G.O id to $t0"
      opcode := 0b010111
      format := .branch
      layout := .rtImm }
  | panic =>
    { mnemonic := "panic"
      sample := "panic $t1"
      pattern := "011000 fffff 00000 0000000000000000"
      description := "Clerk panic: set $t1 to 0"
      opcode := 0b011000
      format := .immediate
      layout := .rs }
  | meltdown =>
    { mnemonic := "meltdown"
      sample := "meltdown $s1"
      pattern := "011001 fffff 00000 0000000000000000"
      description :=
        "Trigger Qliphoth Meltdown: penalize every agent and raise the global risk counter"
      opcode := 0b011001
      format := .immediate
      layout := .rs }

def mnemonic (instruction : Instruction) : String :=
  instruction.spec.mnemonic

def format (instruction : Instruction) : Format :=
  instruction.spec.format

theorem mnemonic_injective {first second : Instruction} (h : first.mnemonic = second.mnemonic) :
    first = second := by
  revert h
  cases first <;> cases second <;> decide

/-- The mnemonic, the format and the pattern, as a record. -/
def summary (instruction : Instruction) : String :=
  "InstructionDescriptor \x7b mnemonic: \"" ++ instruction.mnemonic ++ "\", format: " ++
    instruction.format.tag ++ ", pattern: \"" ++ instruction.spec.pattern ++ "\" \x7d"

end Instruction
end FacilityIsa
