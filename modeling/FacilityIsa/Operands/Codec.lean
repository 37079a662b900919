import FacilityIsa.Operands.Basic

/-!
# Operands as bits

An instruction word starts with six bits of opcode. What follows is, by format,

* `rs rt rd shamt funct` in 5, 5, 5, 5 and 6 bits,
* `rs rt imm` in 5, 5 and 16 bits, or
* `target` in 26 bits.

Encoding drops the bits of a field that do not fit, and decoding reads the
same bits back.
-/

namespace FacilityIsa
namespace Word

/-- The primary opcode, bits 31 to 26. -/
def opcode (word : Word) : BitVec 6 :=
  word.extractLsb' 26 6

/-- The function code of the register format, bits 5 to 0. -/
def funct (word : Word) : BitVec 6 :=
  word.extractLsb' 0 6

end Word

namespace RegisterFields

def decode (word : Word) : RegisterFields where
  rs := word.extractLsb' 21 5
  rt := word.extractLsb' 16 5
  rd := word.extractLsb' 11 5
  shamt := (word.extractLsb' 6 5).setWidth 8
  funct := word.funct.setWidth 8

def encode (opcode : BitVec 8) (fields : RegisterFields) : Word :=
  opcode.setWidth 6 ++ fields.rs ++ fields.rt ++ fields.rd ++ fields.shamt.setWidth 5 ++
    fields.funct.setWidth 6

theorem encode_decode (word : Word) : (decode word).encode (word.opcode.setWidth 8) = word := by
  apply BitVec.eq_of_getLsbD_eq
  intro i hi
  simp only [decode, encode, Word.opcode, Word.funct, BitVec.getLsbD_append,
    BitVec.getLsbD_setWidth, BitVec.getLsbD_extractLsb']
  split
  · next h => simp only [h, show i < 8 by omega, decide_true, Bool.true_and, Nat.zero_add]
  split
  · next _ h =>
    simp only [h, show i - 6 < 8 by omega, show 6 + (i - 6) = i by omega, decide_true,
      Bool.true_and]
  split
  · next _ h => rw [decide_eq_true h, Bool.true_and, show 11 + (i - 6 - 5) = i by omega]
  split
  · next _ h => rw [decide_eq_true h, Bool.true_and, show 16 + (i - 6 - 5 - 5) = i by omega]
  split
  · next _ h => rw [decide_eq_true h, Bool.true_and, show 21 + (i - 6 - 5 - 5 - 5) = i by omega]
  · have hlow : i - 6 - 5 - 5 - 5 - 5 < 6 := by omega
    have hpos : 26 + (i - 6 - 5 - 5 - 5 - 5) = i := by omega
    simp only [hlow, hpos, show i - 6 - 5 - 5 - 5 - 5 < 8 by omega, decide_true, Bool.true_and]

end RegisterFields

namespace ImmediateFields

def decode (word : Word) : ImmediateFields where
  rs := word.extractLsb' 21 5
  rt := word.extractLsb' 16 5
  imm := word.extractLsb' 0 16

def encode (opcode : BitVec 8) (fields : ImmediateFields) : Word :=
  opcode.setWidth 6 ++ fields.rs ++ fields.rt ++ fields.imm

theorem encode_decode (word : Word) : (decode word).encode (word.opcode.setWidth 8) = word := by
  apply BitVec.eq_of_getLsbD_eq
  intro i hi
  simp only [decode, encode, Word.opcode, BitVec.getLsbD_append, BitVec.getLsbD_setWidth,
    BitVec.getLsbD_extractLsb']
  split
  · next h => rw [decide_eq_true h, Bool.true_and, Nat.zero_add]
  split
  · next _ h => rw [decide_eq_true h, Bool.true_and, show 16 + (i - 16) = i by omega]
  split
  · next _ h => rw [decide_eq_true h, Bool.true_and, show 21 + (i - 16 - 5) = i by omega]
  · have hlow : i - 16 - 5 - 5 < 6 := by omega
    have hpos : 26 + (i - 16 - 5 - 5) = i := by omega
    simp only [hlow, hpos, show i - 16 - 5 - 5 < 8 by omega, decide_true, Bool.true_and]

end ImmediateFields

namespace JumpFields

def decode (word : Word) : JumpFields where
  target := (word.extractLsb' 0 26).setWidth 32

def encode (opcode : BitVec 8) (fields : JumpFields) : Word :=
  opcode.setWidth 6 ++ fields.target.setWidth 26

theorem encode_decode (word : Word) : (decode word).encode (word.opcode.setWidth 8) = word := by
  apply BitVec.eq_of_getLsbD_eq
  intro i hi
  simp only [decode, encode, Word.opcode, BitVec.getLsbD_append, BitVec.getLsbD_setWidth,
    BitVec.getLsbD_extractLsb']
  split
  · next h => simp only [h, hi, decide_true, Bool.true_and, Nat.zero_add]
  · have hlow : i - 26 < 6 := by omega
    have hpos : 26 + (i - 26) = i := by omega
    simp only [hlow, hpos, show i - 26 < 8 by omega, decide_true, Bool.true_and]

end JumpFields

namespace Operands

/-- Reads the operands of a word as those of the given format. -/
def decode (format : Format) (word : Word) : Operands :=
  match format with
  | .register => .register (RegisterFields.decode word)
  | .immediate => .immediate (ImmediateFields.decode word)
  | .jump => .jump (JumpFields.decode word)
  | .branch => .branch (ImmediateFields.decode word)

/-- The word with an opcode, of which the low six bits count, and operands. -/
def encode (opcode : BitVec 8) : Operands → Word
  | .register fields => fields.encode opcode
  | .immediate fields => fields.encode opcode
  | .jump fields => fields.encode opcode
  | .branch fields => fields.encode opcode

@[simp] theorem format_decode (format : Format) (word : Word) :
    (decode format word).format = format := by
  cases format <;> rfl

end Operands
end FacilityIsa
