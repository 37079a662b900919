import FacilityIsa.Attempt
import FacilityIsa.Draws.Source
import FacilityIsa.Execution.Fault
import FacilityIsa.Machine.Basic
import FacilityIsa.Transcript

/-!
# Execution contexts

All that an instruction may read or change: the machine, the source of draws
and the sink of emitted lines. An instruction that can fail answers with an
attempt on a context; one that cannot is a plain function on contexts.
-/

namespace FacilityIsa

structure Context (ρ ω : Type) where
  machine : Machine
  draws : ρ
  output : ω

/-- An attempt to execute something, with the context it leaves. -/
abbrev Execution (ρ ω α : Type) := Attempt Fault α (Context ρ ω)

namespace Context

variable {ρ ω : Type} (context : Context ρ ω)

def pc : Address :=
  context.machine.pc

def register (register : Register) : Word :=
  context.machine.register register

def setRegister (register : Register) (value : Word) : Context ρ ω :=
  { context with machine := context.machine.setRegister register value }

def setPc (address : Address) : Context ρ ω :=
  { context with machine := context.machine.setPc address }

def emit [LineSink ω] (line : String) : Context ρ ω :=
  { context with output := LineSink.emit context.output line }

/-- Draws a number meant to be below the bound. -/
def draw [DrawSource ρ] (bound : Word) : Word × Context ρ ω :=
  let (value, draws) := DrawSource.below context.draws bound
  (value, { context with draws })

@[simp] theorem register_setPc (address : Address) (register : Register) :
    (context.setPc address).register register = context.register register := rfl

@[simp] theorem pc_setPc (address : Address) : (context.setPc address).pc = address := rfl

@[simp] theorem machine_emit [LineSink ω] (line : String) :
    (context.emit line).machine = context.machine := rfl

@[simp] theorem draws_emit [LineSink ω] (line : String) :
    (context.emit line).draws = context.draws := rfl

@[simp] theorem output_emit [LineSink ω] (line : String) :
    (context.emit line).output = LineSink.emit context.output line := rfl

@[simp] theorem pc_setRegister (register : Register) (value : Word) :
    (context.setRegister register value).pc = context.pc :=
  Machine.pc_setRegister _ _ _

theorem register_setRegister (register other : Register) (value : Word) :
    (context.setRegister register value).register other =
      if other = register ∧ register ≠ Register.zero then value else context.register other :=
  Machine.register_setRegister _ _ _ _

end Context
end FacilityIsa
