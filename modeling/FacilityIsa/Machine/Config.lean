import FacilityIsa.Memory.Region

/-!
# Machine configuration

Where programs are placed, what the global and the stack pointer hold after a
reset, and which regions of memory are mapped, in the order of mapping. By
default a read-only text segment holds programs and a writable data segment
lies above it.
-/

namespace FacilityIsa

structure MachineConfig where
  textBase : Address := 0x00400000
  globalPointer : Word := 0x10008000
  stackPointer : Word := 0x7FFFEFFC
  regions : List Region :=
    [{ start := 0x00400000, stop := 0x10000000, segment := Segment.text },
     { start := 0x10000000, stop := 0x80000000, segment := Segment.data }]
  deriving DecidableEq

instance : Inhabited MachineConfig := ⟨{}⟩

end FacilityIsa
