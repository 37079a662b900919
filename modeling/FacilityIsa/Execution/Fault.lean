import FacilityIsa.Catalog
import FacilityIsa.Memory.AddressError

/-!
# Faults

Why a single instruction did not complete: its word belongs to no instruction,
its exact result is no signed word, its operands are of another format than it
takes, or an access to memory was refused. The last cause is none of these and
is not reported: a sum that is not meant to wrap was too great, and execution
is abandoned on the spot.
-/

namespace FacilityIsa

inductive Fault where
  | undefined (error : UndefinedInstruction)
  | arithmeticOverflow (instruction : Instruction)
  | operandFormat (instruction : Instruction) (found : Format)
  | address (error : AddressError)
  /-- Execution was abandoned within an instruction. -/
  | abort
  deriving DecidableEq

def Fault.message : Fault → String
  | .undefined error => error.message
  | .arithmeticOverflow instruction => "arithmetic overflow in " ++ instruction.mnemonic
  | .operandFormat instruction found =>
    instruction.mnemonic ++ " expects " ++ instruction.format.label ++ " operands, got " ++
      found.label
  | .address error => "address error: " ++ error.message
  | .abort => "attempt to add with overflow"

end FacilityIsa
