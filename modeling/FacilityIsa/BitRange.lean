import FacilityIsa.Word

/-!
# Bit ranges and fields

A bit range runs from a low bit to a high bit of a word, both included, with
bit 0 the least significant. Two bounds make a range only if the high one is a
bit of the word and the low one does not exceed it; the first of these tests
is made first. Extracting a field and replacing it are total on ranges, so
only the making of a range can fail.
-/

namespace FacilityIsa

/-- The bits `lo` to `hi` of a word, both included. -/
structure BitRange where
  lo : Nat
  hi : Nat
  lo_le_hi : lo ≤ hi
  hi_lt : hi < 32
  deriving DecidableEq

/-- Why two bounds make no range. -/
inductive BitRangeError where
  | outOfBounds (hi lo : Nat)
  | reversed (hi lo : Nat)
  deriving DecidableEq, Repr

def BitRangeError.message : BitRangeError → String
  | .outOfBounds hi lo => s!"bit range {hi}..={lo} out of bounds, must be within [0, 32)"
  | .reversed hi lo => s!"bit range {hi}..={lo} is reversed"

namespace BitRange

/-- The range with the given bounds, the high one named first. -/
def ofBounds (hi lo : Nat) : Except BitRangeError BitRange :=
  if hhi : hi < 32 then
    if hlo : lo ≤ hi then .ok ⟨lo, hi, hlo, hhi⟩ else .error (.reversed hi lo)
  else .error (.outOfBounds hi lo)

/-- The range that starts at bit `start` and ends with bit `last`. -/
def ofInterval (start last : Nat) : Except BitRangeError BitRange :=
  ofBounds last start

def width (range : BitRange) : Nat :=
  range.hi - range.lo + 1

theorem ofBounds_eq_ok_iff {hi lo : Nat} {range : BitRange} :
    ofBounds hi lo = .ok range ↔ range.hi = hi ∧ range.lo = lo := by
  obtain ⟨l, h, hle, hlt⟩ := range
  simp only [ofBounds]
  split
  · split
    · simp only [Except.ok.injEq, mk.injEq]
      exact ⟨fun ⟨a, b⟩ => ⟨b.symm, a.symm⟩, fun ⟨a, b⟩ => ⟨b.symm, a.symm⟩⟩
    · simp only [reduceCtorEq, false_iff]; omega
  · simp only [reduceCtorEq, false_iff]; omega

end BitRange

namespace Word

/-- The field of a word in a bit range, moved down to bit 0. -/
def field (word : Word) (range : BitRange) : Word :=
  (word >>> range.lo) &&& lowMask range.width

/-- The word with the bits of the range replaced by the low bits of `value`. -/
def withField (word : Word) (range : BitRange) (value : Word) : Word :=
  let mask := lowMask range.width <<< range.lo
  (word &&& ~~~mask) ||| ((value <<< range.lo) &&& mask)

theorem getLsbD_field (word : Word) (range : BitRange) (i : Nat) :
    (word.field range).getLsbD i = (decide (i < range.width) && word.getLsbD (range.lo + i)) := by
  have hhi := range.hi_lt
  have hlo := range.lo_le_hi
  simp only [field, BitVec.getLsbD_and, BitVec.getLsbD_ushiftRight, getLsbD_lowMask]
  by_cases hi : i < range.width
  · have : i < 32 := by simp only [BitRange.width] at hi; omega
    simp [hi, this]
  · simp [hi]

theorem getLsbD_withField (word : Word) (range : BitRange) (value : Word) (i : Nat) :
    (word.withField range value).getLsbD i =
      if range.lo ≤ i ∧ i ≤ range.hi then value.getLsbD (i - range.lo) else word.getLsbD i := by
  have hhi := range.hi_lt
  have hlo := range.lo_le_hi
  simp only [withField, BitVec.getLsbD_or, BitVec.getLsbD_and, BitVec.getLsbD_not,
    BitVec.getLsbD_shiftLeft, getLsbD_lowMask, BitRange.width]
  by_cases hi : i < 32
  · by_cases hbelow : i < range.lo
    · simp [hi, hbelow, Nat.not_le.2 hbelow]
    · have hle : range.lo ≤ i := Nat.not_lt.1 hbelow
      by_cases habove : i ≤ range.hi
      · have : i - range.lo < range.hi - range.lo + 1 ∧ i - range.lo < 32 := by omega
        simp [hi, hbelow, hle, habove, this]
      · have : ¬(i - range.lo < range.hi - range.lo + 1) := by omega
        simp [hi, hbelow, hle, habove, this]
  · have : ¬(i ≤ range.hi) := by omega
    simp [hi, this, BitVec.getLsbD_of_ge _ _ (Nat.not_lt.1 hi)]

/-- The field between two bounds that nobody has checked yet. -/
def tryField (word : Word) (hi lo : Nat) : Except BitRangeError Word :=
  (BitRange.ofBounds hi lo).map word.field

/-- The field between two bounds, or nothing where they make no range. -/
def field? (word : Word) (hi lo : Nat) : Option Word :=
  (BitRange.ofBounds hi lo).toOption.map word.field

/-- Replaces the field between two bounds, or nothing where they make no range. -/
def withField? (word : Word) (hi lo : Nat) (value : Word) : Option Word :=
  (BitRange.ofBounds hi lo).toOption.map (word.withField · value)

end Word
end FacilityIsa
