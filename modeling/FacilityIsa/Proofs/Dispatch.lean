import FacilityIsa.Catalog
import Mathlib.Tactic.ByContra

/-!
# Opcodes and function codes

Which instruction a word belongs to is decided by its opcode and, for the
instructions that share opcode zero, by its function code. Masking and comparing
the fixed bits tests exactly this.
-/

namespace FacilityIsa

theorem append_eq_append_iff {m n : Nat} {high high' : BitVec m} {low low' : BitVec n} :
    high ++ low = high' ++ low' ↔ high = high' ∧ low = low' := by
  constructor
  · intro h
    have hhigh := congrArg (BitVec.extractLsb' n m) h
    have hlow := congrArg (BitVec.extractLsb' 0 n) h
    rw [BitVec.extractLsb'_append_eq_left, BitVec.extractLsb'_append_eq_left] at hhigh
    rw [BitVec.extractLsb'_append_eq_right, BitVec.extractLsb'_append_eq_right] at hlow
    exact ⟨hhigh, hlow⟩
  · rintro ⟨rfl, rfl⟩
    rfl

theorem Word.opcode_append_funct (word : Word) :
    word.opcode ++ word.extractLsb' 6 20 ++ word.funct = word := by
  have hhigh : word.opcode ++ word.extractLsb' 6 20 = word.extractLsb' 6 26 :=
    BitVec.extractLsb'_append_extractLsb'_eq_extractLsb' rfl
  have hall : word.extractLsb' 6 26 ++ word.funct = word.extractLsb' 0 32 :=
    BitVec.extractLsb'_append_extractLsb'_eq_extractLsb' rfl
  rw [hhigh, hall, BitVec.extractLsb'_eq_self]

namespace Instruction

variable {instruction : Instruction} {word : Word}

theorem funct_eq_none_iff : instruction.spec.funct = none ↔ instruction.spec.opcode ≠ 0 := by
  cases instruction <;> decide

theorem opcode_eq_zero_of_funct {funct : BitVec 6} (h : instruction.spec.funct = some funct) :
    instruction.spec.opcode = 0 := by
  by_contra hne
  rw [funct_eq_none_iff.2 hne] at h
  exact nomatch h

/-- What is left of a word under the mask: the opcode, and the function code if
the instruction has one. -/
theorem and_fixedMask (instruction : Instruction) (word : Word) :
    word &&& instruction.fixedMask =
      word.opcode ++ (0 : BitVec 20) ++
        (if instruction.spec.funct = none then 0 else word.funct) := by
  have hboth : (0xFC00003F : Word) = BitVec.allOnes 6 ++ (0 : BitVec 20) ++ BitVec.allOnes 6 := by
    decide
  have hopcode : (0xFC000000 : Word) = BitVec.allOnes 6 ++ (0 : BitVec 20) ++ (0 : BitVec 6) := by
    decide
  conv => lhs; rw [← word.opcode_append_funct]
  cases hfunct : instruction.spec.funct with
  | none =>
    simp only [fixedMask, hfunct, hopcode, if_true]
    rw [BitVec.and_append, BitVec.and_append, BitVec.and_allOnes]
    simp only [BitVec.ofNat_eq_ofNat, BitVec.and_zero]
  | some funct =>
    simp only [fixedMask, hfunct, hboth, reduceCtorEq, if_false]
    rw [BitVec.and_append, BitVec.and_append, BitVec.and_allOnes, BitVec.and_allOnes]
    simp only [BitVec.ofNat_eq_ofNat, BitVec.and_zero]

theorem fits_iff :
    instruction.fits word = true ↔
      instruction.spec.opcode = word.opcode ∧
        (word.opcode = 0 → instruction.spec.funct = some word.funct) := by
  rw [fits, decide_eq_true_eq, and_fixedMask, fixedBits, append_eq_append_iff,
    append_eq_append_iff]
  cases hfunct : instruction.spec.funct with
  | none =>
    have hopcode := funct_eq_none_iff.1 hfunct
    simp only [if_true, Option.getD_none, and_true, reduceCtorEq, imp_false]
    constructor
    · intro h
      exact ⟨h.symm, fun hzero => hopcode (h.symm.trans hzero)⟩
    · exact fun h => h.1.symm
  | some funct =>
    have hopcode := opcode_eq_zero_of_funct hfunct
    simp only [reduceCtorEq, if_false, Option.getD_some, and_true, Option.some.injEq, hopcode]
    constructor
    · rintro ⟨h, hcode⟩
      exact ⟨h.symm, fun _ => hcode.symm⟩
    · rintro ⟨h, hcode⟩
      exact ⟨h.symm, (hcode h.symm).symm⟩

end Instruction

namespace Catalog

variable {catalog : Catalog} {word : Word}

theorem find?_eq_none_iff :
    catalog.find? word = none ↔ ∀ instruction ∈ catalog.entries,
      ¬(instruction.spec.opcode = word.opcode ∧
        (word.opcode = 0 → instruction.spec.funct = some word.funct)) := by
  simp only [find?, List.find?_eq_none, Instruction.fits_iff]

end Catalog
end FacilityIsa
