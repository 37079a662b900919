import FacilityIsa.Proofs.EncodedDispatch
import Mathlib.Data.List.Basic

/-!
# Dispatch as a table

A catalog tries its instructions one after another, but no word carries the codes of
two instructions, `mul` and `and` apart. So dispatch comes to looking up the codes of the
word among the instructions of the catalog, in whatever order these stand and however
often, and only which of `mul` and `and` comes first makes a difference.
-/

namespace FacilityIsa

section Search

variable {α : Type} {p : α → Bool}

theorem find?_eq_of_unique [DecidableEq α] {value : α} (hvalue : p value = true)
    (hunique : ∀ other, p other = true → other = value) (values : List α) :
    values.find? p = if value ∈ values then some value else none := by
  split
  · next hmem =>
    obtain ⟨found, hfound⟩ :=
      Option.isSome_iff_exists.1 (List.find?_isSome.2 ⟨value, hmem, hvalue⟩)
    rw [hfound, hunique found (List.find?_some hfound)]
  · next hmem =>
    rw [List.find?_eq_none]
    intro other hother hpassed
    exact hmem (hunique other hpassed ▸ hother)

theorem find?_eq_of_pair [DecidableEq α] {first second : α} (hne : first ≠ second)
    (hp : ∀ value, p value = true ↔ value = first ∨ value = second)
    (values : List α) :
    values.find? p =
      if values.idxOf first < values.idxOf second then some first
      else if second ∈ values then some second else none := by
  induction values with
  | nil => rfl
  | cons value values ih =>
    by_cases hfirst : value = first
    · have hfound := (hp value).2 (.inl hfirst)
      subst hfirst
      rw [List.find?_cons_of_pos hfound, List.idxOf_cons_self, List.idxOf_cons_ne _ hne,
        if_pos (Nat.succ_pos _)]
    · by_cases hsecond : value = second
      · have hfound := (hp value).2 (.inr hsecond)
        subst hsecond
        rw [List.find?_cons_of_pos hfound, List.idxOf_cons_self, if_neg (Nat.not_lt_zero _),
          if_pos List.mem_cons_self]
      · have hpassed : ¬p value = true := fun h =>
          ((hp value).1 h).elim hfirst hsecond
        simp only [List.find?_cons_of_neg hpassed, ih, List.idxOf_cons_ne _ hfirst,
          List.idxOf_cons_ne _ hsecond, Nat.succ_lt_succ_iff, List.mem_cons,
          Ne.symm hsecond, false_or]

end Search

namespace Instruction

variable {instruction other : Instruction} {word : Word}

/-- The word carries the opcode of the instruction and, in the register format, its
function code. -/
def HasCodes (instruction : Instruction) (word : Word) : Prop :=
  instruction.spec.opcode = word.opcode ∧
    (instruction.format = .register → instruction.spec.funct = some word.funct)

instance (instruction : Instruction) (word : Word) : Decidable (instruction.HasCodes word) :=
  inferInstanceAs (Decidable (_ ∧ _))

theorem fits_iff_hasCodes : instruction.fits word = true ↔ instruction.HasCodes word := by
  rw [fits_iff, HasCodes]
  refine and_congr_right fun hopcode => ?_
  rw [format_eq_register_iff, Ne, funct_eq_none_iff, not_not, hopcode]

theorem fits_iff_of_shared (hopcode : word.opcode = 0) (hfunct : word.funct = 0x24) :
    instruction.fits word = true ↔ instruction = .mul ∨ instruction = .and := by
  rw [fits_iff, hopcode, hfunct]
  cases instruction <;> decide

theorem eq_of_hasCodes (hshared : ¬(word.opcode = 0 ∧ word.funct = 0x24))
    (h : instruction.HasCodes word) (hother : other.HasCodes word) : other = instruction := by
  have hself : ∀ {instruction : Instruction}, instruction.HasCodes word →
      instruction.dispatched = instruction := by
    intro instruction h
    cases instruction with
    | and => exact absurd ⟨h.1.symm, (Option.some.inj (h.2 rfl)).symm⟩ hshared
    | _ => rfl
  obtain ⟨hopcode, hfunct⟩ := code_eq_of_fits (fits_iff_hasCodes.2 hother) (fits_iff_hasCodes.2 h)
  rw [← hself h, ← hself hother, dispatched_eq_of_code hopcode hfunct]

end Instruction

namespace Catalog

variable {first second : Catalog} {word : Word}

theorem find?_of_shared (catalog : Catalog) (hopcode : word.opcode = 0)
    (hfunct : word.funct = 0x24) :
    catalog.find? word =
      if catalog.entries.idxOf .mul < catalog.entries.idxOf .and then some .mul
      else if .and ∈ catalog.entries then some .and else none :=
  find?_eq_of_pair (by decide) (fun _ => Instruction.fits_iff_of_shared hopcode hfunct) _

theorem find?_of_hasCodes (catalog : Catalog) {instruction : Instruction}
    (hshared : ¬(word.opcode = 0 ∧ word.funct = 0x24)) (h : instruction.HasCodes word) :
    catalog.find? word = if instruction ∈ catalog.entries then some instruction else none := by
  refine find?_eq_of_unique (p := (Instruction.fits · word)) (Instruction.fits_iff_hasCodes.2 h) ?_ _
  intro other hother
  exact Instruction.eq_of_hasCodes hshared h (Instruction.fits_iff_hasCodes.1 hother)

theorem find?_of_forall_not_hasCodes (catalog : Catalog)
    (h : ∀ instruction : Instruction, ¬instruction.HasCodes word) :
    catalog.find? word = none := by
  rw [find?, List.find?_eq_none]
  intro instruction _ hfits
  exact h instruction (Instruction.fits_iff_hasCodes.1 hfits)

/-- Only the instructions of a catalog and the order of `mul` and `and` tell in a search. -/
theorem find?_eq_of_mem_iff (hmem : ∀ instruction : Instruction,
      instruction ∈ first.entries ↔ instruction ∈ second.entries)
    (horder : first.entries.idxOf .mul < first.entries.idxOf .and ↔
      second.entries.idxOf .mul < second.entries.idxOf .and) (word : Word) :
    first.find? word = second.find? word := by
  by_cases hshared : word.opcode = 0 ∧ word.funct = 0x24
  · simp only [find?_of_shared _ hshared.1 hshared.2, hmem, horder]
  · by_cases hcodes : ∃ instruction : Instruction, instruction.HasCodes word
    · obtain ⟨instruction, h⟩ := hcodes
      simp only [find?_of_hasCodes _ hshared h, hmem]
    · have hnone := not_exists.1 hcodes
      rw [find?_of_forall_not_hasCodes _ hnone, find?_of_forall_not_hasCodes _ hnone]

theorem find?_eq_of_codes_eq (catalog : Catalog) {word other : Word}
    (hopcode : word.opcode = other.opcode) (hfunct : word.opcode = 0 → word.funct = other.funct) :
    catalog.find? word = catalog.find? other := by
  refine congrArg (catalog.entries.find? ·) (funext fun instruction => ?_)
  rw [Bool.eq_iff_iff, Instruction.fits_iff, Instruction.fits_iff, ← hopcode]
  refine and_congr_right fun _ => forall_congr' fun hzero => ?_
  rw [hfunct hzero]

/-- A catalog of any instructions in any order finds for a word the one instruction that has
its opcode and function code, if the catalog has it, and for the words of `mul` and `and` the
one of them that comes first. So catalogs of the same instructions that agree on this order
decode alike, and words with the same codes are dispatched alike. -/
theorem dispatch_is_code_lookup :
    (∀ (catalog : Catalog) (word : Word),
        (word.opcode = 0 ∧ word.funct = 0x24 →
          catalog.find? word =
            if catalog.entries.idxOf .mul < catalog.entries.idxOf .and then some .mul
            else if .and ∈ catalog.entries then some .and else none) ∧
        (¬(word.opcode = 0 ∧ word.funct = 0x24) →
          ∀ instruction : Instruction, instruction.HasCodes word →
            (∀ other : Instruction, other.HasCodes word → other = instruction) ∧
              catalog.find? word =
                if instruction ∈ catalog.entries then some instruction else none) ∧
        ((∀ instruction : Instruction, ¬instruction.HasCodes word) →
          catalog.find? word = none)) ∧
      (∀ first second : Catalog,
        (∀ instruction : Instruction,
          instruction ∈ first.entries ↔ instruction ∈ second.entries) →
        (first.entries.idxOf .mul < first.entries.idxOf .and ↔
          second.entries.idxOf .mul < second.entries.idxOf .and) →
        ∀ word, first.find? word = second.find? word ∧ first.decode word = second.decode word) ∧
      ∀ (catalog : Catalog) (word other : Word), word.opcode = other.opcode →
        (word.opcode = 0 → word.funct = other.funct) →
          catalog.find? word = catalog.find? other := by
  refine ⟨?_, ?_, ?_⟩
  · intro catalog word
    refine ⟨?_, ?_, catalog.find?_of_forall_not_hasCodes⟩
    · rintro ⟨hopcode, hfunct⟩
      exact catalog.find?_of_shared hopcode hfunct
    · intro hshared instruction h
      exact ⟨fun other hother => Instruction.eq_of_hasCodes hshared h hother,
        catalog.find?_of_hasCodes hshared h⟩
  · intro first second hmem horder word
    have hfind := find?_eq_of_mem_iff hmem horder word
    refine ⟨hfind, ?_⟩
    rw [decode, decode, hfind]
  · intro catalog word other hopcode hfunct
    exact catalog.find?_eq_of_codes_eq hopcode hfunct

/-- Turning a catalog around exchanges `mul` and `and`; with these two in their old order
nothing is changed by the reversal, nor by spare bits in the word. -/
theorem dispatch_is_code_lookup_of_reversed :
    let listed : Catalog := ⟨[.add, .mul, .sw, .and, .add]⟩
    let turned : Catalog := ⟨[.and, .sw, .mul, .add]⟩
    let mixed : Catalog := ⟨[.sw, .mul, .and, .add, .and]⟩
    listed.find? 0x014B4FE4 = some .mul ∧ turned.find? 0x014B4FE4 = some .and ∧
      turned.find? 0x014B4FE0 = some .add ∧ turned.find? 0x014B4FE2 = none ∧
      turned.find? 0xFC000000 = none ∧
      (∀ word, listed.find? word = mixed.find? word ∧ listed.decode word = mixed.decode word) ∧
      turned.find? 0x014B4820 = turned.find? 0x000007E0 := by
  intro listed turned mixed
  obtain ⟨hlookup, hsame, hcodes⟩ := dispatch_is_code_lookup
  have hadd := (hlookup turned 0x014B4FE0).2.1 (by decide) .add (by decide)
  have hsub := (hlookup turned 0x014B4FE2).2.1 (by decide) .sub (by decide)
  have hnone : ∀ instruction : Instruction, ¬instruction.HasCodes 0xFC000000 := by
    intro instruction
    cases instruction <;> decide
  have hmem : ∀ instruction : Instruction,
      instruction ∈ listed.entries ↔ instruction ∈ mixed.entries := by
    intro instruction
    cases instruction <;> decide
  refine ⟨(hlookup listed _).1 (by decide), (hlookup turned _).1 (by decide), hadd.2, hsub.2,
    (hlookup turned _).2.2 hnone, hsame listed mixed hmem (by decide), ?_⟩
  exact hcodes turned 0x014B4820 0x000007E0 (by decide) (by decide)

end Catalog
end FacilityIsa
