import FacilityIsa.Word

/-!
# The keystream

A stream of words made from a key of eight words: the words of the blocks
number 0, 1, 2 and so on, sixteen to a block. A block mixes the key, its number
and four constants in twelve rounds of additions, exclusive ors and rotations
(the ChaCha permutation) and adds what it started from. The block that the next
word comes from is kept, together with the fact that it is that block.
-/

namespace FacilityIsa

/-- Mixes four words. -/
def quarterRound (a b c d : Word) : Word × Word × Word × Word :=
  let a := a + b
  let d := (d ^^^ a).rotateLeft 16
  let c := c + d
  let b := (b ^^^ c).rotateLeft 12
  let a := a + b
  let d := (d ^^^ a).rotateLeft 8
  let c := c + d
  let b := (b ^^^ c).rotateLeft 7
  (a, b, c, d)

/-- Mixes the words at four places of a block. -/
def mixAt (block : Vector Word 16) (i j k l : Fin 16) : Vector Word 16 :=
  let (a, b, c, d) := quarterRound block[i] block[j] block[k] block[l]
  (((block.set i a).set j b).set k c).set l d

/-- Mixes the columns of a block, seen as a square, and then its diagonals. -/
def doubleRound (block : Vector Word 16) : Vector Word 16 :=
  let block := mixAt block 0 4 8 12
  let block := mixAt block 1 5 9 13
  let block := mixAt block 2 6 10 14
  let block := mixAt block 3 7 11 15
  let block := mixAt block 0 5 10 15
  let block := mixAt block 1 6 11 12
  let block := mixAt block 2 7 8 13
  mixAt block 3 4 9 14

/-- What a block starts from: four constants, the key and the block's number. -/
def seedBlock (key : Vector Word 8) (number : BitVec 64) : Vector Word 16 :=
  #v[0x61707865, 0x3320646E, 0x79622D32, 0x6B206574,
     key[0], key[1], key[2], key[3], key[4], key[5], key[6], key[7],
     number.extractLsb' 0 32, number.extractLsb' 32 32, 0, 0]

/-- The block of a number, after six double rounds. -/
def keystreamBlock (key : Vector Word 8) (number : Nat) : Vector Word 16 :=
  let start := seedBlock key (BitVec.ofNat 64 number)
  (Nat.repeat doubleRound 6 start).zipWith (· + ·) start

structure Keystream where
  key : Vector Word 8
  /-- How many words have been taken. -/
  taken : Nat
  block : Vector Word 16
  block_eq : block = keystreamBlock key (taken / 16)

namespace Keystream

/-- The stream of a key after a number of words. -/
def after (key : Vector Word 8) (taken : Nat) : Keystream :=
  ⟨key, taken, keystreamBlock key (taken / 16), rfl⟩

def current (stream : Keystream) : Word :=
  have := Nat.mod_lt stream.taken (by decide : 16 > 0)
  stream.block[stream.taken % 16]

/-- The stream without its next word. -/
def advance (stream : Keystream) : Keystream :=
  if h : (stream.taken + 1) % 16 = 0 then after stream.key (stream.taken + 1)
  else
    { stream with
      taken := stream.taken + 1
      block_eq := by
        rw [stream.block_eq, show (stream.taken + 1) / 16 = stream.taken / 16 by omega] }

/-- Taking a word leaves the stream that starts one word later. -/
theorem advance_eq_after (stream : Keystream) :
    stream.advance = after stream.key (stream.taken + 1) := by
  unfold advance
  split
  · rfl
  · next h =>
    have hblock := stream.block_eq
    rw [← show (stream.taken + 1) / 16 = stream.taken / 16 by omega] at hblock
    simp only [after, mk.injEq, true_and]
    exact hblock

end Keystream
end FacilityIsa
