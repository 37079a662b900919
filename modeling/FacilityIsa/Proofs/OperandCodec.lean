import FacilityIsa.Operands.Codec
import Mathlib.Data.Set.Function

/-!
# The operand codec

The fields of an instruction word tile it: decoding one that was encoded finds
each field where it was put, cut to the bits that there is room for. So operands
whose fields fit correspond one to one to the words with a given opcode, in each
of the four formats.
-/

namespace FacilityIsa

theorem setWidth_setWidth_eq_umod {width kept : Nat} (x : BitVec width) (h : kept < width) :
    (x.setWidth kept).setWidth width = x % BitVec.twoPow width kept := by
  apply BitVec.eq_of_toNat_eq
  rw [BitVec.toNat_setWidth, BitVec.toNat_setWidth, BitVec.toNat_umod,
    BitVec.toNat_twoPow_of_lt h]
  exact Nat.mod_eq_of_lt (Nat.lt_of_le_of_lt (Nat.mod_le _ _) x.isLt)

namespace RegisterFields

/-- The fields as far as a word has room for them. -/
def reduced (fields : RegisterFields) : RegisterFields :=
  { fields with shamt := fields.shamt % 32, funct := fields.funct % 64 }

variable (opcode : BitVec 8) (fields : RegisterFields)

theorem funct_encode : (fields.encode opcode).funct = fields.funct.setWidth 6 := by
  simp (disch := decide) only [encode, Word.funct, BitVec.extractLsb'_append_eq_of_add_le,
    BitVec.extractLsb'_eq_self]

theorem decode_encode : decode (fields.encode opcode) = fields.reduced := by
  have hshamt : (fields.shamt.setWidth 5).setWidth 8 = fields.shamt % 32 :=
    setWidth_setWidth_eq_umod _ (by decide)
  have hfunct : (fields.funct.setWidth 6).setWidth 8 = fields.funct % 64 :=
    setWidth_setWidth_eq_umod _ (by decide)
  rw [decode, funct_encode, hfunct, reduced, ← hshamt]
  simp (disch := decide) only [encode, BitVec.extractLsb'_append_eq_of_le,
    BitVec.extractLsb'_append_eq_of_add_le, Nat.reduceSub, BitVec.extractLsb'_eq_self]

end RegisterFields

namespace ImmediateFields

variable (opcode : BitVec 8) (fields : ImmediateFields)

theorem funct_encode : (fields.encode opcode).funct = fields.imm.setWidth 6 := by
  simp (disch := decide) only [encode, Word.funct, BitVec.extractLsb'_append_eq_of_add_le,
    BitVec.setWidth_eq_extractLsb']

theorem decode_encode : decode (fields.encode opcode) = fields := by
  simp (disch := decide) only [decode, encode, BitVec.extractLsb'_append_eq_of_le,
    BitVec.extractLsb'_append_eq_of_add_le, Nat.reduceSub, BitVec.extractLsb'_eq_self]

/-- The immediate made of a number is the one signed halfword that agrees with the number
in the low 16 bits. -/
theorem eq_toInt_simm_ofNumber_iff (rs rt : Register) (number : Word) (value : Int) :
    value = (ofNumber rs rt number).simm.toInt ↔
      -32768 ≤ value ∧ value ≤ 32767 ∧ value % 65536 = number.toInt % 65536 := by
  have hsimm : (ofNumber rs rt number).simm.toInt = Int.bmod number.toNat 65536 := by
    rw [toInt_simm, ofNumber, BitVec.toInt_setWidth]
  have hnumber : number.toInt % 65536 = number.toNat % 65536 := by
    rw [BitVec.toInt_eq_toNat_cond]
    split <;> omega
  rw [hsimm, hnumber, Int.bmod]
  split <;> omega

end ImmediateFields

namespace JumpFields

/-- The fields as far as a word has room for them. -/
def reduced (fields : JumpFields) : JumpFields :=
  ⟨fields.target % 0x4000000⟩

variable (opcode : BitVec 8) (fields : JumpFields)

theorem funct_encode : (fields.encode opcode).funct = fields.target.setWidth 6 := by
  rw [encode, Word.funct, BitVec.extractLsb'_append_eq_of_add_le (by decide),
    BitVec.extractLsb'_setWidth_of_le (by decide), BitVec.setWidth_eq_extractLsb' (by decide)]

theorem decode_encode : decode (fields.encode opcode) = fields.reduced := by
  have htarget : (fields.target.setWidth 26).setWidth 32 = fields.target % 0x4000000 :=
    setWidth_setWidth_eq_umod _ (by decide)
  rw [reduced, ← htarget]
  simp (disch := decide) only [decode, encode, BitVec.extractLsb'_append_eq_of_add_le,
    BitVec.extractLsb'_eq_self]

end JumpFields

namespace Operands

/-- The operands as far as a word has room for them. -/
def reduced : Operands → Operands
  | .register fields => .register fields.reduced
  | .immediate fields => .immediate fields
  | .jump fields => .jump fields.reduced
  | .branch fields => .branch fields

/-- The bits that the operands put where the register format has its function code. -/
def lowSix : Operands → BitVec 6
  | .register fields => fields.funct.setWidth 6
  | .immediate fields | .branch fields => fields.imm.setWidth 6
  | .jump fields => fields.target.setWidth 6

variable (operands : Operands) (opcode : BitVec 8)

theorem opcode_encode : (operands.encode opcode).opcode = opcode.setWidth 6 := by
  cases operands <;>
    simp (disch := decide) only [encode, RegisterFields.encode, ImmediateFields.encode,
      JumpFields.encode, Word.opcode, BitVec.extractLsb'_append_eq_of_le, Nat.reduceSub,
      BitVec.extractLsb'_eq_self]

theorem funct_encode : (operands.encode opcode).funct = operands.lowSix := by
  cases operands with
  | register fields => exact fields.funct_encode opcode
  | immediate fields | branch fields => exact fields.funct_encode opcode
  | jump fields => exact fields.funct_encode opcode

theorem decode_encode : decode operands.format (operands.encode opcode) = operands.reduced := by
  cases operands with
  | register fields => exact congrArg register (fields.decode_encode opcode)
  | immediate fields => exact congrArg immediate (fields.decode_encode opcode)
  | branch fields => exact congrArg branch (fields.decode_encode opcode)
  | jump fields => exact congrArg jump (fields.decode_encode opcode)

theorem encode_decode (format : Format) (word : Word) :
    (decode format word).encode (word.opcode.setWidth 8) = word := by
  cases format with
  | register => exact RegisterFields.encode_decode word
  | immediate | branch => exact ImmediateFields.encode_decode word
  | jump => exact JumpFields.encode_decode word

theorem encode_setWidth_setWidth :
    operands.encode ((opcode.setWidth 6).setWidth 8) = operands.encode opcode := by
  have hlow : ((opcode.setWidth 6).setWidth 8).setWidth 6 = opcode.setWidth 6 :=
    BitVec.setWidth_setWidth_of_le _ (by decide)
  cases operands <;>
    simp only [encode, RegisterFields.encode, ImmediateFields.encode, JumpFields.encode, hlow]

theorem reduced_decode (format : Format) (word : Word) :
    (decode format word).reduced = decode format word := by
  rw [← decode_encode _ (word.opcode.setWidth 8), encode_decode, format_decode]

theorem bijOn_encode (format : Format) :
    Set.BijOn (encode opcode) {operands | operands.format = format ∧ operands.reduced = operands}
      {word | word.opcode = opcode.setWidth 6} := by
  refine ⟨?_, ?_, ?_⟩
  · intro operands _
    exact operands.opcode_encode opcode
  · rintro first ⟨rfl, hfirst⟩ second ⟨hformat, hsecond⟩ hsame
    rw [← hfirst, ← hsecond, ← first.decode_encode opcode, ← second.decode_encode opcode, hformat]
    exact congrArg _ hsame
  · intro word hword
    refine ⟨decode format word, ⟨format_decode format word, reduced_decode format word⟩, ?_⟩
    rw [← encode_setWidth_setWidth, ← show word.opcode = opcode.setWidth 6 from hword]
    exact encode_decode format word

/-- Encoding and decoding undo each other as far as the fields of operands have room in a
word, and an immediate stands for the signed halfword that its number leaves. -/
theorem codec_is_bijective :
    (∀ (format : Format) (word : Word),
        (decode format word).encode (word.opcode.setWidth 8) = word) ∧
      (∀ (operands : Operands) (opcode : BitVec 8),
        (operands.encode opcode).opcode.toNat = opcode.toNat % 64 ∧
          decode operands.format (operands.encode opcode) = operands.reduced) ∧
      (∀ (format : Format) (opcode : BitVec 8),
        Set.BijOn (encode opcode)
          {operands | operands.format = format ∧ operands.reduced = operands}
          {word | word.opcode = opcode.setWidth 6}) ∧
      ∀ (rs rt : Register) (number : Word),
        let fields := ImmediateFields.ofNumber rs rt number
        (∀ value : Int, value = fields.simm.toInt ↔
            -32768 ≤ value ∧ value ≤ 32767 ∧ value % 65536 = number.toInt % 65536) ∧
          ∀ opcode, (ImmediateFields.decode (fields.encode opcode)).simm = fields.simm := by
  refine ⟨encode_decode, ?_, fun format opcode => bijOn_encode opcode format, ?_⟩
  · intro operands opcode
    rw [opcode_encode, BitVec.toNat_setWidth]
    exact ⟨rfl, operands.decode_encode opcode⟩
  · intro rs rt number fields
    refine ⟨ImmediateFields.eq_toInt_simm_ofNumber_iff rs rt number, ?_⟩
    intro opcode
    rw [ImmediateFields.decode_encode]

end Operands
end FacilityIsa
