import FacilityIsa.Proofs.EncodedDispatch
import Mathlib.Data.List.FinRange
import Mathlib.Data.Prod.Lex

/-!
# Collisions

Two instructions overlap when they agree on the bits that both fix, and then the fixed bits
of the two together make a word of both. Words of both there are only if the two have the
same codes, and then all words of the one are words of the other. So an instruction that
stands behind one that it collides with is never reached, and in a catalog without
collisions the order of the instructions makes no difference.
-/

namespace FacilityIsa

namespace Instruction

variable {first second : Instruction} {word : Word}

theorem or_and_eq_of_agree {bits other mask otherMask : Word} (hbits : bits &&& mask = bits)
    (hother : other &&& otherMask = other)
    (hagree : bits &&& (mask &&& otherMask) = other &&& (mask &&& otherMask)) :
    (bits ||| other) &&& mask = bits := by
  apply BitVec.eq_of_getLsbD_eq
  intro index _
  have hbit := congrArg (·.getLsbD index) hbits
  have hbit' := congrArg (·.getLsbD index) hother
  have hboth := congrArg (·.getLsbD index) hagree
  simp only [BitVec.getLsbD_and, BitVec.getLsbD_or] at hbit hbit' hboth ⊢
  grind

theorem overlaps_iff :
    first.overlaps second = true ↔ ∃ word, first.fits word = true ∧ second.fits word = true := by
  simp only [overlaps, fits, decide_eq_true_eq]
  constructor
  · intro hagree
    refine ⟨first.fixedBits ||| second.fixedBits,
      or_and_eq_of_agree first.fixedBits_and_fixedMask second.fixedBits_and_fixedMask hagree, ?_⟩
    rw [BitVec.or_comm]
    refine or_and_eq_of_agree second.fixedBits_and_fixedMask first.fixedBits_and_fixedMask ?_
    rw [BitVec.and_comm second.fixedMask]
    exact hagree.symm
  · rintro ⟨word, hfirst, hsecond⟩
    calc first.fixedBits &&& (first.fixedMask &&& second.fixedMask)
      _ = word &&& first.fixedMask &&& second.fixedMask := by
        rw [← BitVec.and_assoc, first.fixedBits_and_fixedMask, hfirst]
      _ = word &&& second.fixedMask &&& first.fixedMask := by
        rw [BitVec.and_assoc, BitVec.and_comm first.fixedMask, ← BitVec.and_assoc]
      _ = second.fixedBits &&& (first.fixedMask &&& second.fixedMask) := by
        rw [BitVec.and_comm first.fixedMask, ← BitVec.and_assoc, second.fixedBits_and_fixedMask,
          hsecond]

theorem fits_fixedBits (instruction : Instruction) :
    instruction.fits instruction.fixedBits = true :=
  decide_eq_true instruction.fixedBits_and_fixedMask

/-- Instructions with one word in common have all their words in common. -/
theorem fits_eq_of_overlaps (h : first.overlaps second = true) (word : Word) :
    first.fits word = second.fits word := by
  obtain ⟨shared, hfirst, hsecond⟩ := overlaps_iff.1 h
  obtain ⟨hopcode, hfunct⟩ := code_eq_of_fits hfirst hsecond
  rw [Bool.eq_iff_iff, fits_iff, fits_iff, hopcode, hfunct]

end Instruction

namespace Catalog

variable {entries other : List Instruction} {catalog : Catalog}

/-- The positions of the pairs that collide, by the first and then by the second. -/
def collisionPositions :
    (entries : List Instruction) → List (Fin entries.length × Fin entries.length)
  | [] => []
  | first :: rest =>
    ((List.finRange rest.length).filter fun later => first.overlaps (rest.get later)).map
        (fun later => (0, later.succ)) ++
      (collisionPositions rest).map (Prod.map Fin.succ Fin.succ)

theorem collisionsIn_eq_map (entries : List Instruction) :
    collisionsIn entries =
      (collisionPositions entries).map fun pair => ⟨entries.get pair.1, entries.get pair.2⟩ := by
  induction entries with
  | nil => rfl
  | cons first rest ih =>
    have hlater : rest.filter first.overlaps =
        ((List.finRange rest.length).filter fun later => first.overlaps (rest.get later)).map
          rest.get := by
      conv => lhs; rw [← List.map_get_finRange rest, List.filter_map]
      rfl
    rw [collisionsIn, hlater, ih, collisionPositions, List.map_append, List.map_map, List.map_map,
      List.map_map]
    rfl

theorem pairwise_collisionPositions (entries : List Instruction) :
    (collisionPositions entries).Pairwise (Prod.Lex (· < ·) (· < ·)) := by
  induction entries with
  | nil => exact .nil
  | cons first rest ih =>
    rw [collisionPositions, List.pairwise_append, List.pairwise_map, List.pairwise_map]
    refine ⟨?_, ?_, ?_⟩
    · exact ((List.pairwise_lt_finRange _).filter _).imp
        fun h => .right _ (Fin.succ_lt_succ_iff.2 h)
    · refine ih.imp fun h => ?_
      cases h with
      | left _ _ h => exact .left _ _ (Fin.succ_lt_succ_iff.2 h)
      | right _ h => exact .right _ (Fin.succ_lt_succ_iff.2 h)
    · intro pair hpair pair' hpair'
      obtain ⟨later, -, rfl⟩ := List.mem_map.1 hpair
      obtain ⟨inner, -, rfl⟩ := List.mem_map.1 hpair'
      exact .left _ _ (Fin.succ_pos _)

theorem mem_collisionPositions_iff {i j : Fin entries.length} :
    (i, j) ∈ collisionPositions entries ↔
      i < j ∧ (entries.get i).overlaps (entries.get j) = true := by
  induction entries with
  | nil => exact i.elim0
  | cons first rest ih =>
    rw [collisionPositions, List.mem_append, List.mem_map, List.mem_map]
    have hzero : ∀ later : Fin rest.length, 0 ≠ later.succ := fun later => later.succ_ne_zero.symm
    cases i using Fin.cases with
    | zero =>
      cases j using Fin.cases with
      | zero => simp [Fin.succ_ne_zero]
      | succ j => simp [Fin.succ_ne_zero]
    | succ i =>
      cases j using Fin.cases with
      | zero => simp [Fin.succ_ne_zero]
      | succ j => simp [hzero, ih]

theorem collides_of_ne {i j : Fin entries.length} (hne : i ≠ j)
    (h : (entries.get i).overlaps (entries.get j) = true) :
    (i, j) ∈ collisionPositions entries ∨ (j, i) ∈ collisionPositions entries := by
  obtain hlt | hlt := Nat.lt_or_gt_of_ne (Fin.val_ne_of_ne hne)
  · exact .inl (mem_collisionPositions_iff.2 ⟨hlt, h⟩)
  · exact .inr (mem_collisionPositions_iff.2 ⟨hlt, by rwa [Instruction.overlaps_comm]⟩)

section Strictness

theorem strict_eq_error_iff {collision : Collision} : strict entries = .error collision ↔
    ∃ pair, (collisionPositions entries).head? = some pair ∧
      collision = ⟨entries.get pair.1, entries.get pair.2⟩ := by
  rw [strict, collisionsIn_eq_map]
  cases collisionPositions entries with
  | nil => simp
  | cons pair pairs => simp [eq_comm]

theorem strict_eq_ok_iff :
    strict entries = .ok catalog ↔ collisionPositions entries = [] ∧ catalog = ⟨entries⟩ := by
  rw [strict, collisionsIn_eq_map]
  cases collisionPositions entries with
  | nil => simp [eq_comm]
  | cons pair pairs => simp

theorem collisionPositions_eq_nil_iff : collisionPositions entries = [] ↔
    entries.Pairwise fun first second => ¬first.overlaps second = true := by
  rw [List.eq_nil_iff_forall_not_mem, List.pairwise_iff_getElem, Prod.forall]
  simp only [mem_collisionPositions_iff, not_and]
  constructor
  · intro h i j hi hj hlt
    exact h ⟨i, hi⟩ ⟨j, hj⟩ hlt
  · intro h i j hlt
    exact h i j i.isLt j.isLt hlt

end Strictness

section Dispatch

/-- The position at which the search for a word ends. -/
def position? (catalog : Catalog) (word : Word) : Option (Fin catalog.entries.length) :=
  catalog.entries.findFinIdx? (·.fits word)

theorem find?_eq_map_position? (catalog : Catalog) (word : Word) :
    catalog.find? word = (catalog.position? word).map catalog.entries.get :=
  List.find?_eq_map_findFinIdx?_getElem

/-- An instruction is reached unless it collides with an earlier one. -/
theorem exists_position?_iff {j : Fin entries.length} :
    (∃ word, (Catalog.mk entries).position? word = some j) ↔
      ∀ i, (i, j) ∉ collisionPositions entries := by
  simp only [position?, List.findFinIdx?_eq_some_iff, mem_collisionPositions_iff, not_and]
  constructor
  · rintro ⟨word, hfits, hearlier⟩ i hlt hoverlaps
    exact hearlier i hlt ((Instruction.fits_eq_of_overlaps hoverlaps word).trans hfits)
  · intro h
    refine ⟨(entries.get j).fixedBits, (entries.get j).fits_fixedBits, fun i hlt hfits => ?_⟩
    exact h i hlt (Instruction.overlaps_iff.2 ⟨_, hfits, (entries.get j).fits_fixedBits⟩)

theorem find?_eq_some_iff_of_strict (h : collisionPositions entries = [])
    {instruction : Instruction} {word : Word} :
    (Catalog.mk entries).find? word = some instruction ↔
      instruction ∈ entries ∧ instruction.fits word = true := by
  rw [find?]
  constructor
  · intro hfound
    have hfits := List.find?_some hfound
    exact ⟨List.mem_of_find?_eq_some hfound, hfits⟩
  · rintro ⟨hmem, hfits⟩
    have hsome : (entries.find? (·.fits word)).isSome :=
      List.find?_isSome.2 ⟨instruction, hmem, hfits⟩
    obtain ⟨found, hfound⟩ := Option.isSome_iff_exists.1 hsome
    obtain ⟨i, rfl⟩ := List.mem_iff_get.1 hmem
    obtain ⟨j, rfl⟩ := List.mem_iff_get.1 (List.mem_of_find?_eq_some hfound)
    by_cases hsame : j = i
    · rw [← hsame]
      exact hfound
    · have hfoundFits := List.find?_some hfound
      have hoverlaps := Instruction.overlaps_iff.2 ⟨word, hfoundFits, hfits⟩
      have hcollides := collides_of_ne hsame hoverlaps
      rw [h] at hcollides
      exact absurd hcollides (by simp)

theorem strict_of_perm (hstrict : strict entries = .ok catalog) (hperm : entries.Perm other) :
    strict other = .ok ⟨other⟩ ∧ ∀ word, (Catalog.mk other).find? word = catalog.find? word := by
  obtain ⟨hnone, rfl⟩ := strict_eq_ok_iff.1 hstrict
  have hother : collisionPositions other = [] := by
    rw [collisionPositions_eq_nil_iff] at hnone ⊢
    refine (hperm.pairwise_iff ?_).1 hnone
    intro first second h
    rwa [Instruction.overlaps_comm]
  refine ⟨strict_eq_ok_iff.2 ⟨hother, rfl⟩, fun word => Option.ext fun instruction => ?_⟩
  rw [find?_eq_some_iff_of_strict hother, find?_eq_some_iff_of_strict hnone, hperm.mem_iff]

end Dispatch

/-- The collisions of a list are those pairs of its positions, in lexicographic order and
each once, whose instructions have a word in common. A strict catalog is refused for the
first of them and else keeps the list as it is. An instruction is dispatched some word
unless it is the second one of a collision, and the words of a strict catalog are dispatched
to the same instructions in whatever order it lists them. -/
theorem collisions_are_exact (entries : List Instruction) :
    let catalog : Catalog := ⟨entries⟩
    let positions := collisionPositions entries
    positions.Pairwise (Prod.Lex (· < ·) (· < ·)) ∧
      (∀ i j, (i, j) ∈ positions ↔
        i < j ∧ ∃ word, (entries.get i).fits word = true ∧ (entries.get j).fits word = true) ∧
      catalog.collisions = (positions.map fun pair => ⟨entries.get pair.1, entries.get pair.2⟩) ∧
      (∀ collision, strict entries = .error collision ↔
        ∃ pair, positions.head? = some pair ∧
          collision = ⟨entries.get pair.1, entries.get pair.2⟩) ∧
      (∀ made, strict entries = .ok made ↔ positions = [] ∧ made = catalog) ∧
      (∀ word, catalog.find? word = (catalog.position? word).map entries.get) ∧
      (∀ j, (∃ word, catalog.position? word = some j) ↔ ∀ i, (i, j) ∉ positions) ∧
      ∀ made, strict entries = .ok made → ∀ other, entries.Perm other →
        strict other = .ok ⟨other⟩ ∧
          ∀ word, (Catalog.mk other).find? word = made.find? word := by
  intro catalog positions
  refine ⟨pairwise_collisionPositions entries, ?_, collisionsIn_eq_map entries,
    fun _ => strict_eq_error_iff, fun _ => strict_eq_ok_iff, catalog.find?_eq_map_position?,
    fun _ => exists_position?_iff, ?_⟩
  · intro i j
    rw [mem_collisionPositions_iff, Instruction.overlaps_iff]
  · intro made hmade other hperm
    exact strict_of_perm hmade hperm

/-- A repeated instruction collides with itself. -/
theorem collisions_are_exact_of_repeated :
    let entries : List Instruction := [.add, .mul, .and, .add]
    collisionPositions entries = [(0, 3), (1, 2)] ∧
      strict entries = .error ⟨.add, .add⟩ ∧
      (∀ word, (Catalog.mk entries).position? word ≠ some 2) ∧
      strict [.or, .j, .and] = .ok ⟨[.or, .j, .and]⟩ ∧
      ∀ word, (Catalog.mk [.or, .j, .and]).find? word =
        (Catalog.mk [.and, .or, .j]).find? word := by
  intro entries
  have hpositions : collisionPositions entries = [(0, 3), (1, 2)] := by decide
  obtain ⟨-, -, -, hrefused, -, -, hreached, -⟩ := collisions_are_exact entries
  obtain ⟨-, -, -, -, hmade, -, -, hperm⟩ := collisions_are_exact [.and, .or, .j]
  have hstrict := (hmade _).2 ⟨by decide, rfl⟩
  obtain ⟨hother, hsame⟩ := hperm _ hstrict [.or, .j, .and] (by decide)
  refine ⟨hpositions, (hrefused _).2 ⟨(0, 3), by rw [hpositions]; rfl, rfl⟩, ?_, hother, hsame⟩
  intro word hword
  refine (hreached 2).1 ⟨word, hword⟩ 1 ?_
  rw [hpositions]
  decide

end Catalog
end FacilityIsa
