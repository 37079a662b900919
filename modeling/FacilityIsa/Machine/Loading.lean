import FacilityIsa.Attempt
import FacilityIsa.Machine.Basic

/-!
# Loading a program

The words of a program are placed one after another from the text base on,
whether or not their segment is writable. The first word that has no place
ends the loading: the words before it stay where they are, and the program
counter does not move. Once all are placed the program counter is at the first.
-/

namespace FacilityIsa

/-- Places words from an address on and answers with the address after the last. -/
def Memory.place (memory : Memory) (address : Address) :
    List Word → Attempt AddressError Address Memory
  | [] => .done address memory
  | word :: words =>
    match memory.access address with
    | .ok _ => place (memory.store address word) (Word.next address) words
    | .error error => .failed error memory

@[simp] theorem Memory.segments_place (memory : Memory) (address : Address) (words : List Word) :
    (memory.place address words).after.segments = memory.segments := by
  fun_induction place memory address words with
  | case1 => rfl
  | case2 _ _ _ _ _ _ ih => exact ih
  | case3 => rfl

namespace Machine

/-- Places words at the text base and answers with the address after the last. -/
def loadProgram (machine : Machine) (words : List Word) : Attempt AddressError Address Machine :=
  let base := machine.config.textBase
  match machine.memory.place base words with
  | ⟨.ok stop, memory⟩ => .done stop ({ machine with memory }.setPc base)
  | ⟨.error error, memory⟩ => .failed error { machine with memory }

@[simp] theorem config_loadProgram (machine : Machine) (words : List Word) :
    (machine.loadProgram words).after.config = machine.config := by
  unfold loadProgram
  dsimp only
  split <;> rfl

end Machine
end FacilityIsa
