/-!
# Machine words

Instructions, register values, memory cells and addresses are all words of 32
bits. Arithmetic on them wraps; a register value is read as a signed number
where an instruction says so (`BitVec.toInt`), an address never is. A word is
shown as eight upper-case hexadecimal digits after `0x`.
-/

namespace FacilityIsa

/-- A word of 32 bits. -/
abbrev Word := BitVec 32

/-- A word that names a place in memory, counted in bytes. -/
abbrev Address := Word

namespace Word

/-- The word whose `width` low bits are ones; from 32 on, all of them. -/
def lowMask (width : Nat) : Word :=
  BitVec.allOnes 32 >>> (32 - width)

theorem getLsbD_lowMask (width i : Nat) :
    (lowMask width).getLsbD i = decide (i < width ∧ i < 32) := by
  simp only [lowMask, BitVec.getLsbD_ushiftRight, BitVec.getLsbD_allOnes]
  by_cases h : i < width ∧ i < 32 <;> simp only [h, decide_false] <;> simp <;> omega

/-- The signed halfword in the low 16 bits, as a word. -/
def signExtend16 (word : Word) : Word :=
  (word.setWidth 16).signExtend 32

/-- Words lie in memory at the multiples of four. -/
def IsAligned (address : Address) : Prop :=
  address.toNat % 4 = 0

instance (address : Address) : Decidable (IsAligned address) :=
  inferInstanceAs (Decidable (_ = _))

/-- The address of the following word; the last one is followed by the first. -/
def next (address : Address) : Address :=
  address + 4

theorem isAligned_iff_getLsbD {address : Address} :
    IsAligned address ↔ address.getLsbD 0 = false ∧ address.getLsbD 1 = false := by
  simp only [IsAligned, BitVec.getLsbD, Nat.testBit_eq_decide_div_mod_eq, decide_eq_false_iff_not]
  omega

theorem isAligned_shiftLeft (count : Word) : IsAligned (count <<< 2) := by
  simp only [IsAligned, BitVec.toNat_shiftLeft, Nat.shiftLeft_eq]
  omega

theorem IsAligned.add {x y : Address} (hx : IsAligned x) (hy : IsAligned y) :
    IsAligned (x + y) := by
  simp only [IsAligned, BitVec.toNat_add] at *
  omega

theorem IsAligned.or {x y : Address} (hx : IsAligned x) (hy : IsAligned y) :
    IsAligned (x ||| y) := by
  rw [isAligned_iff_getLsbD] at *
  simp only [BitVec.getLsbD_or, hx, hy, Bool.or_self, and_self]

theorem IsAligned.and_left {mask : Word} (h : IsAligned mask) (x : Address) :
    IsAligned (x &&& mask) := by
  rw [isAligned_iff_getLsbD] at *
  simp only [BitVec.getLsbD_and, h, Bool.and_false, and_self]

/-- The upper-case hexadecimal digit of four bits. -/
def hexDigit (bits : BitVec 4) : Char :=
  if bits.toNat < 10 then Char.ofNat ('0'.toNat + bits.toNat)
  else Char.ofNat ('A'.toNat + (bits.toNat - 10))

/-- The eight hexadecimal digits of a word, the highest first. -/
def hexDigits (word : Word) : List Char :=
  [28, 24, 20, 16, 12, 8, 4, 0].map fun low => hexDigit (word.extractLsb' low 4)

def toHex (word : Word) : String :=
  "0x" ++ String.ofList word.hexDigits

/-- The signed value of a word in decimal. -/
def toDecimal (word : Word) : String :=
  toString word.toInt

end Word
end FacilityIsa
