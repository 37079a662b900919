import FacilityIsa.CheckedSum
import FacilityIsa.Execution.Context

/-!
# Arithmetic instructions

Sums and differences of signed words are checked, and an overflow leaves the
context as it was. Products wrap.
-/

namespace FacilityIsa
namespace Context

variable {ρ ω : Type} (context : Context ρ ω)

/-- Stores a checked result, or reports that the instruction overflowed. -/
def setChecked (instruction : Instruction) (register : Register) :
    Option Word → Execution ρ ω Unit
  | some value => .done () (context.setRegister register value)
  | none => .failed (.arithmeticOverflow instruction) context

def add (fields : RegisterFields) : Execution ρ ω Unit :=
  context.setChecked .add fields.rd
    (addSigned? (context.register fields.rs) (context.register fields.rt))

def sub (fields : RegisterFields) : Execution ρ ω Unit :=
  context.setChecked .sub fields.rd
    (subSigned? (context.register fields.rs) (context.register fields.rt))

def addi (fields : ImmediateFields) : Execution ρ ω Unit :=
  context.setChecked .addi fields.rt (addSigned? (context.register fields.rs) fields.simm)

def mul (fields : RegisterFields) : Context ρ ω :=
  context.setRegister fields.rd (context.register fields.rs * context.register fields.rt)

def and (fields : RegisterFields) : Context ρ ω :=
  context.setRegister fields.rd (context.register fields.rs &&& context.register fields.rt)

def or (fields : RegisterFields) : Context ρ ω :=
  context.setRegister fields.rd (context.register fields.rs ||| context.register fields.rt)

/-- Sets a register to one if the first operand is the lesser signed number. -/
def slt (fields : RegisterFields) : Context ρ ω :=
  context.setRegister fields.rd
    (if (context.register fields.rs).slt (context.register fields.rt) then 1 else 0)

end Context
end FacilityIsa
