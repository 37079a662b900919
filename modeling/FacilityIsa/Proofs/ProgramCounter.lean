import FacilityIsa.Proofs.Footprints
import FacilityIsa.Proofs.OperandUse
import Mathlib.Algebra.Group.Nat.Defs

/-!
# The program counter over the integers

A step moves the program counter in one of three ways, all exact on numbers modulo `2 ^ 32`:
past the word, past it and on by a signed number of words, or to a target that replaces the
low 28 bits of the address past it. So a jump does not leave the region of `2 ^ 28` bytes in
which the next word lies, which at the end of a region is the following one. Branches made
from outside add up.
-/

namespace FacilityIsa

theorem Word.toNat_next (address : Address) :
    (Word.next address).toNat = (address.toNat + 4) % 2 ^ 32 := by
  have hfour : (4 : Word).toNat = 4 := rfl
  rw [Word.next, BitVec.toNat_add, hfour]

theorem Word.toNat_add_shiftLeft (address displacement : Word) :
    ((address + displacement <<< 2).toNat : Int) =
      (address.toNat + 4 * displacement.toInt) % 2 ^ 32 := by
  rw [BitVec.toNat_add, BitVec.toNat_shiftLeft, Nat.shiftLeft_eq, BitVec.toInt_eq_toNat_cond]
  split <;> omega

namespace Machine

variable (machine : Machine)

theorem toNat_pc_branch (displacement : Word) :
    ((machine.branch displacement).pc.toNat : Int) =
      (machine.pc.toNat + 4 * displacement.toInt) % 2 ^ 32 :=
  Word.toNat_add_shiftLeft machine.pc displacement

theorem branch_branch (first second : Word) :
    (machine.branch first).branch second = machine.branch (first + second) := by
  have hsum : machine.pc + first <<< 2 + second <<< 2 =
      machine.pc + (first + second) <<< 2 := by
    apply BitVec.eq_of_toNat_eq
    simp only [BitVec.toNat_add, BitVec.toNat_shiftLeft, Nat.shiftLeft_eq]
    omega
  exact congrArg machine.setPc hsum

end Machine

namespace Context

section Targets

variable {ρ ω : Type} (context : Context ρ ω) (word : Word)

/-- A jump target is the four highest bits of the counter, the 26 bits in the word and two
zeros. -/
theorem jumpTarget_decode :
    context.jumpTarget (JumpFields.decode word) =
      context.pc.extractLsb' 28 4 ++ (word.extractLsb' 0 26 ++ 0#2) := by
  apply BitVec.eq_of_getLsbD_eq
  intro index hindex
  rw [context.getLsbD_jumpTarget _ hindex]
  simp only [BitVec.getLsbD_append, BitVec.getLsbD_extractLsb', JumpFields.decode,
    BitVec.getLsbD_setWidth, BitVec.getLsbD_zero]
  rcases (by omega : index < 2 ∨ (2 ≤ index ∧ index < 28) ∨ 28 ≤ index) with h | ⟨hlow, hhigh⟩ | h
  · simp [h, show index < 28 by omega, show ¬28 ≤ index by omega, show ¬2 ≤ index by omega]
  · simp [hlow, hhigh, show ¬28 ≤ index by omega, show ¬index < 2 by omega,
      show index - 2 < 26 by omega, show index - 2 < 32 by omega]
  · simp [h, show ¬index < 28 by omega, show index - 28 < 4 by omega,
      show ¬index - 2 < 26 by omega, show 28 + (index - 28) = index by omega]

theorem toNat_jumpTarget_decode :
    (context.jumpTarget (JumpFields.decode word)).toNat =
      context.pc.toNat / 2 ^ 28 * 2 ^ 28 + 4 * (word.toNat % 2 ^ 26) := by
  rw [jumpTarget_decode, BitVec.toNat_append, BitVec.toNat_append, BitVec.extractLsb'_toNat,
    BitVec.extractLsb'_toNat, Nat.shiftRight_eq_div_pow, Nat.shiftRight_zero]
  have hcounter := context.pc.isLt
  have htarget : (word.toNat % 2 ^ 26) <<< 2 ||| (0#2).toNat = 4 * (word.toNat % 2 ^ 26) := by
    rw [BitVec.toNat_zero, Nat.or_zero, Nat.shiftLeft_eq, Nat.mul_comm]
  rw [htarget, ← Nat.shiftLeft_add_eq_or_of_lt (by omega), Nat.shiftLeft_eq,
    Nat.mod_eq_of_lt (by omega)]

/-- The word is a branch whose two registers compare as it asks. -/
def Branches : Instruction → Prop
  | .beq => context.register (word.extractLsb' 21 5) = context.register (word.extractLsb' 16 5)
  | .bne => context.register (word.extractLsb' 21 5) ≠ context.register (word.extractLsb' 16 5)
  | _ => False

end Targets

section Instructions

variable {ρ ω : Type} [DrawSource ρ] [LineSink ω] {context : Context ρ ω} {word : Word}
  {instruction : Instruction}

theorem pc_perform_of_jump (h : instruction = .j ∨ instruction = .jal) :
    (instruction.perform (instruction.operandsOf word) context).after.pc =
      context.jumpTarget (JumpFields.decode word) := by
  rcases h with rfl | rfl <;> rfl

theorem pc_perform_of_branches (h : context.Branches word instruction) :
    (instruction.perform (instruction.operandsOf word) context).after.pc =
      context.pc + ((word.extractLsb' 0 16).signExtend 32) <<< 2 := by
  cases instruction
  case beq => exact congrArg Context.pc (if_pos h)
  case bne => exact congrArg Context.pc (if_neg h)
  all_goals exact h.elim

theorem pc_perform_of_not_branches (hj : instruction ≠ .j) (hjal : instruction ≠ .jal)
    (h : ¬context.Branches word instruction) :
    (instruction.perform (instruction.operandsOf word) context).after.pc = context.pc := by
  have hconfined := Instruction.confined_perform
    (Operands.format_decode instruction.spec.format word) context
  cases instruction
  case j => exact absurd rfl hj
  case jal => exact absurd rfl hjal
  case beq => exact congrArg Context.pc (if_neg h)
  case bne => exact congrArg Context.pc (if_pos (not_not.1 h))
  all_goals exact hconfined.confines.pc_eq rfl

theorem register_perform_jal :
    (Instruction.jal.perform (Instruction.jal.operandsOf word) context).after.register
      Register.returnAddress = context.pc :=
  (context.register_setRegister _ _ _).trans (if_pos ⟨rfl, by decide⟩)

end Instructions

end Context

variable {ρ ω : Type} [DrawSource ρ] [LineSink ω]

/-- Where a completed step leaves the program counter, and a jump that links the return
address; and what branches made from outside add to the counter. -/
theorem program_counter_is_exact {catalog : Catalog} {context : Context ρ ω} {word : Word}
    {instruction : Instruction} (hfetch : context.machine.readWord context.pc = .ok word)
    (hstep : (catalog.step context).answer = .ok instruction) :
    let after := (catalog.step context).after
    let next := (context.pc.toNat + 4) % 2 ^ 32
    let displacement := (word.extractLsb' 0 16).toInt
    (instruction = .j ∨ instruction = .jal →
        after.pc.toNat = next / 2 ^ 28 * 2 ^ 28 + 4 * (word.toNat % 2 ^ 26) ∧
          after.pc.toNat / 2 ^ 28 = next / 2 ^ 28 ∧ after.pc.toNat % 4 = 0) ∧
      (instruction = .jal →
        (after.register Register.returnAddress).toInt = (next : Int).bmod (2 ^ 32)) ∧
      (context.Branches word instruction →
        (after.pc.toNat : Int) = (context.pc.toNat + 4 + 4 * displacement) % 2 ^ 32) ∧
      (instruction ≠ .j → instruction ≠ .jal → ¬context.Branches word instruction →
        after.pc.toNat = next) ∧
      ∀ (machine : Machine) (m n : Word),
        ((machine.branch n).pc.toNat : Int) = (machine.pc.toNat + 4 * n.toInt) % 2 ^ 32 ∧
          (machine.branch m).branch n = machine.branch (m + n) := by
  intro after next displacement
  let advanced := context.setPc (Word.next context.pc)
  have hnext : advanced.pc.toNat = next := Word.toNat_next context.pc
  have hafter : after = (instruction.perform (instruction.operandsOf word) advanced).after := by
    rw [Catalog.step_of_fetched hfetch] at hstep
    have hfind := (Catalog.answer_execute_eq_ok_iff.1 hstep).1
    change (catalog.step context).after = _
    rw [Catalog.step_of_fetched hfetch, Catalog.execute_of_find?_eq_some hfind,
      Attempt.after_map]
  rw [hafter]
  refine ⟨?_, ?_, ?_, ?_, fun machine m n =>
    ⟨machine.toNat_pc_branch n, machine.branch_branch m n⟩⟩
  · intro hjump
    rw [Context.pc_perform_of_jump hjump, Context.toNat_jumpTarget_decode, hnext]
    have hregion : next < 2 ^ 32 := Nat.mod_lt _ (by decide)
    omega
  · rintro rfl
    rw [Context.register_perform_jal, BitVec.toInt_eq_toNat_bmod, hnext]
  · intro hbranches
    have hbranches : advanced.Branches word instruction := hbranches
    rw [Context.pc_perform_of_branches hbranches, Word.toNat_add_shiftLeft,
      hnext, BitVec.toInt_signExtend_of_le (by decide)]
    simp only [next, displacement]
    omega
  · intro hj hjal hbranches
    have hbranches : ¬advanced.Branches word instruction := hbranches
    rw [Context.pc_perform_of_not_branches hj hjal hbranches, hnext]

/-- The last word of the address space is followed by the first region: a jump from there goes
to the target counted from zero and links zero, and a branch by minus one goes nowhere. -/
theorem program_counter_is_exact_at_last_word :
    let config : MachineConfig :=
      { textBase := 0xFFFFFFFC
        regions := [{ start := 0xFFFFFFF0, stop := 0xFFFFFFFF, segment := Segment.text }] }
    let machine := Machine.new config
    let holding (word : Word) : Context Script Transcript :=
      ⟨{ machine with memory := machine.memory.store 0xFFFFFFFC word }, { values := [] }, {}⟩
    (Catalog.full.step (holding 0x0C000001)).answer = .ok .jal ∧
      (Catalog.full.step (holding 0x0C000001)).after.pc.toNat = 4 ∧
      ((Catalog.full.step (holding 0x0C000001)).after.register Register.returnAddress).toInt = 0 ∧
      (Catalog.full.step (holding 0x1000FFFF)).answer = .ok .beq ∧
      ((Catalog.full.step (holding 0x1000FFFF)).after.pc.toNat : Int) = 0xFFFFFFFC := by
  intro config machine holding
  have hpc : ∀ word, (holding word).pc.toNat = 0xFFFFFFFC := fun _ => rfl
  have hfetch : ∀ word, (holding word).machine.readWord (holding word).pc = .ok word := by
    intro word
    have haligned : Word.IsAligned (holding word).pc := by
      change Word.IsAligned 0xFFFFFFFC
      decide
    have hmapped : (holding word).machine.memory.segmentAt (holding word).pc =
        some Segment.text := rfl
    exact Memory.read_store haligned hmapped
  have hlinked : (Catalog.full.step (holding 0x0C000001)).answer = .ok .jal := by
    have hfind : Catalog.full.find? 0x0C000001 = some .jal := by decide
    rw [Catalog.step_of_fetched (hfetch _), Catalog.execute_of_find?_eq_some hfind]
    rfl
  have hstayed : (Catalog.full.step (holding 0x1000FFFF)).answer = .ok .beq := by
    have hfind : Catalog.full.find? 0x1000FFFF = some .beq := by decide
    rw [Catalog.step_of_fetched (hfetch _), Catalog.execute_of_find?_eq_some hfind]
    rfl
  obtain ⟨hjump, hlink, -, -, -⟩ := program_counter_is_exact (hfetch 0x0C000001) hlinked
  obtain ⟨-, -, hbranch, -, -⟩ := program_counter_is_exact (hfetch 0x1000FFFF) hstayed
  refine ⟨hlinked, (hjump (.inr rfl)).1.trans ?_, (hlink rfl).trans ?_, hstayed,
    (hbranch rfl).trans ?_⟩
  all_goals
    rw [hpc]
    decide

end FacilityIsa
