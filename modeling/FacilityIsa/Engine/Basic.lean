import FacilityIsa.Execution.Dispatch
import FacilityIsa.Machine.Loading

/-!
# Engines

An engine is a machine with its own source of draws and its own sink, and the
range of addresses that the loaded program takes up. Loading resets the machine
first. When a program has no place the machine stays reset with the words that
found one, and the program range is still the previous one. Draws go on from
where they were.
-/

namespace FacilityIsa

/-- The addresses of a program: from `first` up to but not including `stop`. -/
structure ProgramRange where
  first : Address
  stop : Address
  deriving DecidableEq

namespace ProgramRange

def contains (range : ProgramRange) (address : Address) : Bool :=
  range.first ≤ address && address < range.stop

theorem contains_iff {range : ProgramRange} {address : Address} :
    range.contains address = true ↔ range.first ≤ address ∧ address < range.stop := by
  simp [contains]

end ProgramRange

structure Engine (ρ ω : Type) where
  context : Context ρ ω
  program : ProgramRange

namespace Engine

variable {ρ ω : Type}

/-- An engine that was just built holds no program. -/
def new (config : MachineConfig) (draws : ρ) (output : ω) : Engine ρ ω where
  context := ⟨Machine.new config, draws, output⟩
  program := ⟨config.textBase, config.textBase⟩

variable (engine : Engine ρ ω)

def machine : Machine :=
  engine.context.machine

def withMachine (machine : Machine) : Engine ρ ω :=
  { engine with context := { engine.context with machine } }

/-- Resets the machine and places a program. -/
def load (words : List Word) : Attempt AddressError Unit (Engine ρ ω) :=
  match engine.machine.reset.loadProgram words with
  | ⟨.ok stop, machine⟩ =>
    .done () { engine.withMachine machine with program := ⟨machine.config.textBase, stop⟩ }
  | ⟨.error error, machine⟩ => .failed error (engine.withMachine machine)

@[simp] theorem machine_withMachine (machine : Machine) :
    (engine.withMachine machine).machine = machine := rfl

@[simp] theorem program_withMachine (machine : Machine) :
    (engine.withMachine machine).program = engine.program := rfl

variable (words : List Word)

theorem answer_load :
    (engine.load words).answer =
      (engine.machine.reset.loadProgram words).answer.map fun _ => () := by
  unfold load
  split <;> next hplace => rw [hplace]; rfl

@[simp] theorem machine_load :
    (engine.load words).after.machine = (engine.machine.reset.loadProgram words).after := by
  unfold load
  split <;> next hplace => rw [hplace]; rfl

variable {engine words}

theorem program_load_of_ok {stop : Address}
    (h : (engine.machine.reset.loadProgram words).answer = .ok stop) :
    (engine.load words).after.program = ⟨engine.machine.config.textBase, stop⟩ := by
  have hconfig : (engine.machine.reset.loadProgram words).after.config = engine.machine.config :=
    Machine.config_loadProgram _ _
  unfold load
  split
  · next hplace =>
    rw [hplace] at h hconfig
    cases h
    rw [← hconfig]
    rfl
  · next hplace =>
    rw [hplace] at h
    exact nomatch h

theorem program_load_of_error {error : AddressError}
    (h : (engine.machine.reset.loadProgram words).answer = .error error) :
    (engine.load words).after.program = engine.program := by
  unfold load
  split
  · next hplace =>
    rw [hplace] at h
    exact nomatch h
  · rfl

end Engine
end FacilityIsa
