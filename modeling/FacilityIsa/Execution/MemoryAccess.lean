import FacilityIsa.Execution.Context

/-!
# Loads and stores

Both address memory by a register plus a signed offset, wrapping. An access
that memory refuses leaves the context as it was.
-/

namespace FacilityIsa
namespace Context

variable {ρ ω : Type} (context : Context ρ ω)

def effectiveAddress (fields : ImmediateFields) : Address :=
  context.register fields.rs + fields.simm

def lw (fields : ImmediateFields) : Execution ρ ω Unit :=
  match context.machine.readWord (context.effectiveAddress fields) with
  | .ok value => .done () (context.setRegister fields.rt value)
  | .error error => .failed (.address error) context

def sw (fields : ImmediateFields) : Execution ρ ω Unit :=
  let value := context.register fields.rt
  match context.machine.writeWord (context.effectiveAddress fields) value with
  | .ok machine => .done () { context with machine }
  | .error error => .failed (.address error) context

end Context
end FacilityIsa
