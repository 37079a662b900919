import FacilityIsa.BitRange
import Mathlib.Algebra.Group.Nat.Defs

/-!
# Fields as parts of a word

A field of a word can be read and replaced like a component of a record. What was put there
is read back, as far as there is room for it; putting back what is there changes nothing; of
two values put there the later one stays; and fields without a bit in common do not notice
each other. Two bounds that make no range are refused, a bound that is no bit of a word
before a range that is reversed.
-/

namespace FacilityIsa

namespace BitRange

/-- No bit lies in both ranges. -/
def Disjoint (first second : BitRange) : Prop :=
  first.hi < second.lo ∨ second.hi < first.lo

instance (first second : BitRange) : Decidable (first.Disjoint second) :=
  inferInstanceAs (Decidable (_ ∨ _))

variable {hi lo : Nat} {error : BitRangeError}

theorem ofBounds_self (range : BitRange) : ofBounds range.hi range.lo = .ok range :=
  ofBounds_eq_ok_iff.2 ⟨rfl, rfl⟩

theorem ofBounds_eq_error_iff :
    ofBounds hi lo = .error error ↔
      32 ≤ hi ∧ error = .outOfBounds hi lo ∨ hi < 32 ∧ hi < lo ∧ error = .reversed hi lo := by
  unfold ofBounds
  split
  · next hhi =>
    split
    · next hlo => simp [Nat.not_le.2 hhi, Nat.not_lt.2 hlo]
    · next hlo => simp [Nat.not_le.2 hhi, hhi, Nat.not_le.1 hlo, eq_comm]
  · next hhi => simp [Nat.not_lt.1 hhi, hhi, eq_comm]

theorem toOption_ofBounds_eq_none_iff :
    (ofBounds hi lo).toOption = none ↔ 32 ≤ hi ∨ hi < lo := by
  cases hbounds : ofBounds hi lo with
  | error error =>
    have hrefused := ofBounds_eq_error_iff.1 hbounds
    simp only [Except.toOption, true_iff]
    omega
  | ok range =>
    obtain ⟨rfl, rfl⟩ := ofBounds_eq_ok_iff.1 hbounds
    have hhi := range.hi_lt
    have hlo := range.lo_le_hi
    simp only [Except.toOption, reduceCtorEq, false_iff]
    omega

end BitRange

namespace Word

variable (word value later : Word) (range : BitRange)

theorem toNat_field_withField :
    ((word.withField range value).field range).toNat =
      value.toNat % 2 ^ (range.hi - range.lo + 1) := by
  have hbounds := range.lo_le_hi
  have hkept : (word.withField range value).field range =
      BitVec.ofNat 32 (value.toNat % 2 ^ (range.hi - range.lo + 1)) := by
    apply BitVec.eq_of_getLsbD_eq
    intro index hindex
    rw [getLsbD_field, getLsbD_withField, BitRange.width, BitVec.getLsbD_ofNat,
      Nat.testBit_mod_two_pow]
    by_cases hwidth : index < range.hi - range.lo + 1
    · have hinside : range.lo ≤ range.lo + index ∧ range.lo + index ≤ range.hi := by omega
      simp [hwidth, hinside, hindex, BitVec.getLsbD]
    · simp [hwidth]
  have hfits : value.toNat % 2 ^ (range.hi - range.lo + 1) < 2 ^ 32 :=
    Nat.lt_of_le_of_lt (Nat.mod_le _ _) value.isLt
  rw [hkept, BitVec.toNat_ofNat, Nat.mod_eq_of_lt hfits]

theorem withField_field : word.withField range (word.field range) = word := by
  apply BitVec.eq_of_getLsbD_eq
  intro index _
  rw [getLsbD_withField]
  split
  · next hinside =>
    have hwidth : index - range.lo < range.width := by
      have hbounds := range.lo_le_hi
      rw [BitRange.width]
      omega
    simp [getLsbD_field, hwidth, Nat.add_sub_cancel' hinside.1]
  · rfl

theorem withField_withField :
    (word.withField range value).withField range later = word.withField range later := by
  apply BitVec.eq_of_getLsbD_eq
  intro index _
  simp only [getLsbD_withField]
  split <;> rfl

theorem withField_comm {other : BitRange} (h : range.Disjoint other) :
    (word.withField range value).withField other later =
      (word.withField other later).withField range value := by
  apply BitVec.eq_of_getLsbD_eq
  intro index _
  simp only [getLsbD_withField]
  by_cases hfirst : range.lo ≤ index ∧ index ≤ range.hi
  · have hsecond : ¬(other.lo ≤ index ∧ index ≤ other.hi) := by
      unfold BitRange.Disjoint at h
      omega
    simp only [if_pos hfirst, if_neg hsecond]
  · simp only [if_neg hfirst]

variable {hi lo : Nat}

theorem tryField_eq_error_iff {error : BitRangeError} :
    word.tryField hi lo = .error error ↔
      32 ≤ hi ∧ error = .outOfBounds hi lo ∨ hi < 32 ∧ hi < lo ∧ error = .reversed hi lo := by
  rw [← BitRange.ofBounds_eq_error_iff, tryField]
  cases BitRange.ofBounds hi lo <;> simp [Except.map]

theorem tryField_of_range : word.tryField range.hi range.lo = .ok (word.field range) := by
  rw [tryField, range.ofBounds_self]
  rfl

theorem field?_of_range : word.field? range.hi range.lo = some (word.field range) := by
  rw [field?, range.ofBounds_self]
  rfl

theorem withField?_of_range :
    word.withField? range.hi range.lo value = some (word.withField range value) := by
  rw [withField?, range.ofBounds_self]
  rfl

/-- Fields are read and replaced bit by bit, as components of a word that do not depend on each
other. Bounds are refused if the high one is no bit of a word, else if they are reversed, and
else they are those of a range. -/
theorem fields_are_components (word value later : Word) :
    (∀ range : BitRange,
      (∀ index, (word.field range).getLsbD index =
        if index ≤ range.hi - range.lo then word.getLsbD (range.lo + index) else false) ∧
      (∀ index, (word.withField range value).getLsbD index =
        if range.lo ≤ index ∧ index ≤ range.hi then value.getLsbD (index - range.lo)
        else word.getLsbD index) ∧
      ((word.withField range value).field range).toNat =
        value.toNat % 2 ^ (range.hi - range.lo + 1) ∧
      word.withField range (word.field range) = word ∧
      (word.withField range value).withField range later = word.withField range later ∧
      ∀ other, range.Disjoint other →
        (word.withField range value).withField other later =
          (word.withField other later).withField range value) ∧
    (∀ hi lo error, word.tryField hi lo = .error error ↔
      32 ≤ hi ∧ error = .outOfBounds hi lo ∨ hi < 32 ∧ hi < lo ∧ error = .reversed hi lo) ∧
    (∀ hi lo, (BitRange.ofInterval lo hi).map word.field = word.tryField hi lo) ∧
    (∀ hi lo, (word.field? hi lo = none ↔ 32 ≤ hi ∨ hi < lo) ∧
      (word.withField? hi lo value = none ↔ 32 ≤ hi ∨ hi < lo)) ∧
    ∀ range : BitRange,
      word.tryField range.hi range.lo = .ok (word.field range) ∧
        word.field? range.hi range.lo = some (word.field range) ∧
        word.withField? range.hi range.lo value = some (word.withField range value) := by
  refine ⟨?_, fun hi lo error => word.tryField_eq_error_iff, fun hi lo => rfl, ?_, ?_⟩
  · intro range
    refine ⟨?_, word.getLsbD_withField range value, word.toNat_field_withField value range,
      word.withField_field range, word.withField_withField value later range, ?_⟩
    · intro index
      have hwidth : index < range.width ↔ index ≤ range.hi - range.lo := Nat.lt_succ_iff
      simp [getLsbD_field, hwidth]
    · intro other hdisjoint
      exact word.withField_comm value later range hdisjoint
  · intro hi lo
    simp [field?, withField?, BitRange.toOption_ofBounds_eq_none_iff]
  · intro range
    exact ⟨word.tryField_of_range range, word.field?_of_range range,
      word.withField?_of_range value range⟩

/-- The opcode and the low halfword of a word are set in either order, the opcode to all ones
although the value for it is wider. -/
theorem fields_are_components_of_opcode_and_halfword :
    let opcode : BitRange := ⟨26, 31, by decide, by decide⟩
    let halfword : BitRange := ⟨0, 15, by decide, by decide⟩
    opcode.Disjoint halfword ∧
      (Word.withField 0 opcode 0xFF).withField halfword 0xFFFF1234 =
        (Word.withField 0 halfword 0xFFFF1234).withField opcode 0xFF ∧
      (Word.withField 0 opcode 0xFF).withField halfword 0xFFFF1234 = 0xFC001234 ∧
      Word.tryField 0 3 4 = .error (.reversed 3 4) ∧
      Word.tryField 0 32 33 = .error (.outOfBounds 32 33) := by
  intro opcode halfword
  obtain ⟨hfields, herrors, -⟩ := fields_are_components 0 0xFF 0xFFFF1234
  obtain ⟨-, -, -, -, -, hcomm⟩ := hfields opcode
  refine ⟨by decide, hcomm halfword (by decide), by decide, ?_, ?_⟩
  · exact (herrors 3 4 _).2 (.inr ⟨by decide, by decide, rfl⟩)
  · exact (herrors 32 33 _).2 (.inl ⟨by decide, rfl⟩)

end Word
end FacilityIsa
