import FacilityIsa.Draws.Keystream
import FacilityIsa.Draws.Source

/-!
# Seeded draws

A seed of 64 bits determines a key, the key a keystream, and the keystream
every draw. To draw below a bound, words are taken from the stream until the
low half of a word's product with the bound lies in an acceptance zone; the
draw is the high half. The zone is the largest multiple of the bound by a power
of two that fits a word, so each number below the bound has as many accepted
words as any other.
-/

namespace FacilityIsa

/-- One step of the congruential generator that expands a seed. -/
def seedStep (state : BitVec 64) : BitVec 64 :=
  state * 6364136223846793005 + 11634580027462260723

/-- The word of a generator state: folded bits, rotated by the highest ones. -/
def seedWord (state : BitVec 64) : Word :=
  ((((state >>> 18) ^^^ state) >>> 27).setWidth 32).rotateRight (state >>> 59).toNat

/-- The key of a seed: the words of the eight states that follow it. -/
def seedKey (seed : BitVec 64) : Vector Word 8 :=
  Vector.ofFn fun i => seedWord (Nat.repeat seedStep (i.val + 1) seed)

/-- The largest low half of a product that is accepted. -/
def acceptanceZone (bound : Word) : Nat :=
  bound.toNat * Nat.pow 2 (31 - bound.toNat.log2) - 1

def isAccepted (bound word : Word) : Bool :=
  word.toNat * bound.toNat % Nat.pow 2 32 ≤ acceptanceZone bound

/-- The number below a bound that a word stands for. -/
def scaleDown (bound word : Word) : Word :=
  BitVec.ofNat 32 (word.toNat * bound.toNat / Nat.pow 2 32)

theorem toNat_scaleDown (bound word : Word) :
    (scaleDown bound word).toNat = word.toNat * bound.toNat / Nat.pow 2 32 := by
  have hword := word.isLt
  have hbound := bound.isLt
  have : word.toNat * bound.toNat / Nat.pow 2 32 < Nat.pow 2 32 :=
    Nat.div_lt_of_lt_mul (Nat.mul_lt_mul'' hword hbound)
  simp only [scaleDown, BitVec.toNat_ofNat, Nat.mod_eq_of_lt this]

theorem scaleDown_lt {bound : Word} (h : 0 < bound) (word : Word) :
    scaleDown bound word < bound := by
  have hbound : 0 < bound.toNat := h
  rw [BitVec.lt_def, toNat_scaleDown]
  exact Nat.div_lt_of_lt_mul (Nat.mul_lt_mul_of_pos_right word.isLt hbound)

namespace Keystream

/-- The number of words after which the stream repeats itself, as the number of
a block has 64 bits. -/
def period : Nat := Nat.pow 2 68

/-- Takes words until one is accepted, or as many as there are. -/
def takeAccepted (bound : Word) : Nat → Keystream → Word × Keystream
  | 0, stream => (stream.current, stream.advance)
  | attempts + 1, stream =>
    if isAccepted bound stream.current then (stream.current, stream.advance)
    else takeAccepted bound attempts stream.advance

end Keystream

/-- Draws that a seed determines. -/
structure Seeded where
  stream : Keystream

namespace Seeded

def ofSeed (seed : BitVec 64) : Seeded :=
  ⟨Keystream.after (seedKey seed) 0⟩

def draw (source : Seeded) (bound : Word) : Word × Seeded :=
  let (word, rest) := source.stream.takeAccepted bound Keystream.period
  (scaleDown bound word, ⟨rest⟩)

instance : DrawSource Seeded := ⟨draw⟩

theorem draw_lt (source : Seeded) {bound : Word} (h : 0 < bound) :
    (source.draw bound).1 < bound :=
  scaleDown_lt h _

/-- Draws below one bound after another, or nothing where a bound is zero: there
is no number to draw. -/
def drawAll? (source : Seeded) : List Word → Option (List Word)
  | [] => some []
  | bound :: bounds =>
    if bound = 0 then none
    else
      let (value, rest) := source.draw bound
      (rest.drawAll? bounds).map (value :: ·)

end Seeded
end FacilityIsa
