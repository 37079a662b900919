import FacilityIsa.Register.Basic
import FacilityIsa.Word

/-!
# The register file

The 32 general-purpose registers and the program counter. Register `$zero`
starts at zero and drops every write, so it stays zero. A write is seen by
reads of the same register only and never moves the program counter.
-/

namespace FacilityIsa

structure RegisterFile where
  cells : Vector Word 32
  pc : Address
  deriving DecidableEq

namespace RegisterFile

/-- All registers and the program counter at zero. -/
def cleared : RegisterFile :=
  ⟨Vector.replicate 32 0, 0⟩

def read (file : RegisterFile) (register : Register) : Word :=
  have hregister : register.toNat < 32 := register.isLt
  file.cells[register.toNat]

/-- Stores a value in a register other than `$zero`. -/
def write (file : RegisterFile) (register : Register) (value : Word) : RegisterFile :=
  if register = Register.zero then file
  else { file with cells := file.cells.set register.toNat value register.isLt }

def setPc (file : RegisterFile) (address : Address) : RegisterFile :=
  { file with pc := address }

variable (file : RegisterFile) (register other : Register) (value : Word) (address : Address)

@[simp] theorem read_cleared : cleared.read register = 0 := by
  simp [cleared, read]

@[simp] theorem pc_cleared : cleared.pc = 0 := rfl

@[simp] theorem write_zero : file.write Register.zero value = file := by
  simp [write]

theorem read_write : (file.write register value).read other =
    if other = register ∧ register ≠ Register.zero then value else file.read other := by
  by_cases hzero : register = Register.zero
  · simp [write, hzero]
  · by_cases hsame : other = register
    · simp [write, read, hzero, hsame]
    · have : register.toNat ≠ other.toNat := fun h => hsame (BitVec.eq_of_toNat_eq h.symm)
      simp [write, read, hzero, hsame, Vector.getElem_set_ne, this]

@[simp] theorem pc_write : (file.write register value).pc = file.pc := by
  unfold write; split <;> rfl

@[simp] theorem read_setPc : (file.setPc address).read register = file.read register := rfl

@[simp] theorem pc_setPc : (file.setPc address).pc = address := rfl

/-- The registers that do not hold zero, by index, with their values. -/
def nonZero : List (Register × Word) :=
  (Register.all.map fun register => (register, file.read register)).filter (·.2 ≠ 0)

/-- The program counter and the registers that do not hold zero, by name. -/
def listing : String :=
  let entry (name : String) (word : Word) := "\"" ++ name ++ "\": " ++ word.toHex
  let entries := file.nonZero.map fun (register, word) => entry register.name word
  "\x7b" ++ String.intercalate ", " (entry "pc" file.pc :: entries) ++ "\x7d"

end RegisterFile
end FacilityIsa
