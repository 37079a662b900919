import FacilityIsa.Execution.Context

/-!
# Jumps and branches

These run with the program counter already past the instruction. A jump keeps
the highest four bits of the counter and replaces the others; a branch moves
the counter by a signed number of instructions.
-/

namespace FacilityIsa
namespace Context

variable {ρ ω : Type} (context : Context ρ ω)

/-- The address that a target stands for in the region of the program counter. -/
def jumpTarget (fields : JumpFields) : Address :=
  (context.pc &&& 0xF0000000) ||| (fields.target <<< 2)

def j (fields : JumpFields) : Context ρ ω :=
  { context with machine := context.machine.jump (context.jumpTarget fields) }

/-- Jumps, with the address of the next instruction kept in `$ra`. -/
def jal (fields : JumpFields) : Context ρ ω :=
  let target := context.jumpTarget fields
  { context with machine := (context.machine.link Register.returnAddress).jump target }

def branchBy (displacement : Word) : Context ρ ω :=
  { context with machine := context.machine.branch displacement }

def beq (fields : ImmediateFields) : Context ρ ω :=
  if context.register fields.rs = context.register fields.rt then context.branchBy fields.simm
  else context

def bne (fields : ImmediateFields) : Context ρ ω :=
  if context.register fields.rs = context.register fields.rt then context
  else context.branchBy fields.simm

end Context
end FacilityIsa
