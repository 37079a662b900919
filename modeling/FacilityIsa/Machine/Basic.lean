import FacilityIsa.Machine.Config
import FacilityIsa.Memory.Basic
import FacilityIsa.Register.File

/-!
# The machine

A register file over a segmented memory. A reset clears the registers and the
memory, keeps the segments, and sets the two pointers and the program counter
from the configuration.
-/

namespace FacilityIsa

structure Machine where
  config : MachineConfig
  registers : RegisterFile
  memory : Memory

namespace Machine

def reset (machine : Machine) : Machine :=
  let config := machine.config
  let pointed := (RegisterFile.cleared.write Register.globalPointer config.globalPointer).write
    Register.stackPointer config.stackPointer
  { machine with
    registers := pointed.setPc config.textBase
    memory := machine.memory.clear }

/-- A machine just reset, with the regions of its configuration mapped. -/
def new (config : MachineConfig) : Machine :=
  reset ⟨config, RegisterFile.cleared, Memory.ofRegions config.regions⟩

variable (machine : Machine)

def pc : Address :=
  machine.registers.pc

def register (register : Register) : Word :=
  machine.registers.read register

def setRegister (register : Register) (value : Word) : Machine :=
  { machine with registers := machine.registers.write register value }

def setPc (address : Address) : Machine :=
  { machine with registers := machine.registers.setPc address }

def readWord (address : Address) : Except AddressError Word :=
  machine.memory.read address

def writeWord (address : Address) (word : Word) : Except AddressError Machine :=
  (machine.memory.write address word).map fun memory => { machine with memory }

/-- Moves the program counter by a signed number of instructions. -/
def branch (displacement : Word) : Machine :=
  machine.setPc (machine.pc + displacement <<< 2)

def jump (target : Address) : Machine :=
  machine.setPc target

/-- Keeps the program counter in a register. -/
def link (register : Register) : Machine :=
  machine.setRegister register machine.pc

@[simp] theorem config_reset : machine.reset.config = machine.config := rfl

@[simp] theorem pc_reset : machine.reset.pc = machine.config.textBase := rfl

@[simp] theorem segments_reset : machine.reset.memory.segments = machine.memory.segments := rfl

@[simp] theorem pc_setPc (address : Address) : (machine.setPc address).pc = address := rfl

@[simp] theorem pc_setRegister (register : Register) (value : Word) :
    (machine.setRegister register value).pc = machine.pc := by
  simp [pc, setRegister]

@[simp] theorem register_setPc (address : Address) (register : Register) :
    (machine.setPc address).register register = machine.register register := rfl

theorem register_setRegister (register other : Register) (value : Word) :
    (machine.setRegister register value).register other =
      if other = register ∧ register ≠ Register.zero then value else machine.register other :=
  RegisterFile.read_write _ _ _ _

@[simp] theorem memory_setRegister (register : Register) (value : Word) :
    (machine.setRegister register value).memory = machine.memory := rfl

theorem writeWord_eq_ok_iff {written : Machine} {address : Address} {word : Word} :
    machine.writeWord address word = .ok written ↔
      (∃ segment, machine.memory.access address = .ok segment ∧ segment.writable = true) ∧
        { machine with memory := machine.memory.store address word } = written := by
  unfold writeWord
  cases hwrite : machine.memory.write address word with
  | error error =>
    have hrefused : ¬∃ segment,
        machine.memory.access address = .ok segment ∧ segment.writable = true := by
      intro hadmitted
      exact nomatch hwrite.symm.trans (Memory.write_eq_ok_iff.2 ⟨hadmitted, rfl⟩)
    simp only [Except.map, reduceCtorEq, hrefused, false_and]
  | ok memory =>
    obtain ⟨hadmitted, rfl⟩ := Memory.write_eq_ok_iff.1 hwrite
    simp only [Except.map, Except.ok.injEq, hadmitted, true_and]

@[simp] theorem memory_setPc (address : Address) :
    (machine.setPc address).memory = machine.memory := rfl

end Machine
end FacilityIsa
