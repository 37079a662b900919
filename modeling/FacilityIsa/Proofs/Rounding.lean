import FacilityIsa.Binary32
import Mathlib.Algebra.Group.Nat.Defs

/-!
# Rounding to 24 bits

Rounding keeps the order of numbers, leaves those with 24 significant bits alone
and commutes with doubling. So a number and its exponent may be rounded as one
natural number, and the integer part of a product with a rounded natural number
is monotone in that number.
-/

namespace FacilityIsa
namespace Binary32

theorem roundShift_bounds (value shift : Nat) :
    value / 2 ^ shift ≤ roundShift value shift ∧
      roundShift value shift ≤ value / 2 ^ shift + 1 := by
  unfold roundShift
  simp only [Nat.pow_eq]
  split <;> omega

theorem roundShift_mono {x y : Nat} (h : x ≤ y) (shift : Nat) :
    roundShift x shift ≤ roundShift y shift := by
  have hquotient : x / 2 ^ shift ≤ y / 2 ^ shift := Nat.div_le_div_right h
  rcases Nat.lt_or_eq_of_le hquotient with hlt | heq
  · have hx := (roundShift_bounds x shift).2
    have hy := (roundShift_bounds y shift).1
    omega
  · have hx := Nat.div_add_mod' x (2 ^ shift)
    have hy := Nat.div_add_mod' y (2 ^ shift)
    rw [heq] at hx
    have hrest : x % 2 ^ shift ≤ y % 2 ^ shift := by omega
    unfold roundShift
    simp only [Nat.pow_eq, heq]
    split <;> split <;> omega

theorem roundShift_mul_two_pow (value shift count : Nat) :
    roundShift (value * 2 ^ count) (shift + count) = roundShift value shift := by
  have hpos : 0 < 2 ^ count := Nat.two_pow_pos count
  have hquotient : value * 2 ^ count / 2 ^ (shift + count) = value / 2 ^ shift := by
    rw [Nat.pow_add, Nat.mul_div_mul_right _ _ hpos]
  have hrest : value * 2 ^ count % 2 ^ (shift + count) = value % 2 ^ shift * 2 ^ count := by
    rw [Nat.pow_add, Nat.mul_mod_mul_right]
  have hless : 2 ^ (shift + count) < 2 * (value % 2 ^ shift * 2 ^ count) ↔
      2 ^ shift < 2 * (value % 2 ^ shift) := by
    rw [Nat.pow_add, ← Nat.mul_assoc]
    exact Nat.mul_lt_mul_right hpos
  have hequal : 2 * (value % 2 ^ shift * 2 ^ count) = 2 ^ (shift + count) ↔
      2 * (value % 2 ^ shift) = 2 ^ shift := by
    rw [Nat.pow_add, ← Nat.mul_assoc]
    exact Nat.mul_left_inj (Nat.ne_of_gt hpos)
  simp only [roundShift, Nat.pow_eq, hquotient, hrest, hless, hequal]

theorem roundShift_exact (value shift : Nat) : roundShift (value * 2 ^ shift) shift = value := by
  have h := roundShift_mul_two_pow value 0 shift
  rwa [Nat.zero_add, roundShift_zero] at h

/-- How many bits more than 24 a number has. -/
def excess (value : Nat) : Nat :=
  value.log2 + 1 - 24

/-- A natural number rounded to 24 significant bits. -/
def roundNat (value : Nat) : Nat :=
  roundShift value (excess value) * 2 ^ excess value

theorem round_eq (significand : Nat) (exponent : Int) :
    round significand exponent =
      ⟨roundShift significand (excess significand), exponent + excess significand⟩ := rfl

theorem roundNat_of_lt {value : Nat} (h : value < 2 ^ 24) : roundNat value = value := by
  have hexcess : excess value = 0 := by
    rcases Nat.eq_zero_or_pos value with rfl | hpos
    · rfl
    · have hlog := (Nat.log2_lt (Nat.ne_of_gt hpos)).2 h
      rw [excess]
      omega
  rw [roundNat, hexcess, roundShift_zero, Nat.pow_zero, Nat.mul_one]

theorem log2_mul_two_pow {value : Nat} (hvalue : value ≠ 0) (count : Nat) :
    (value * 2 ^ count).log2 = value.log2 + count := by
  rw [Nat.log2_eq_iff (Nat.mul_ne_zero hvalue (Nat.ne_of_gt (Nat.two_pow_pos count)))]
  constructor
  · rw [Nat.pow_add]
    exact Nat.mul_le_mul_right _ (Nat.log2_self_le hvalue)
  · rw [show value.log2 + count + 1 = value.log2 + 1 + count by omega, Nat.pow_add]
    exact Nat.mul_lt_mul_of_pos_right Nat.lt_log2_self (Nat.two_pow_pos count)

theorem roundNat_mul_two_pow (value count : Nat) :
    roundNat (value * 2 ^ count) = roundNat value * 2 ^ count := by
  rcases Nat.eq_zero_or_pos value with rfl | hpos
  · simp only [Nat.zero_mul, roundNat_of_lt (Nat.two_pow_pos 24)]
  have hlog := log2_mul_two_pow (Nat.ne_of_gt hpos) count
  rcases Nat.lt_or_ge value.log2 23 with hsmall | hlarge
  · have hvalue : value < 2 ^ 24 := (Nat.log2_lt (Nat.ne_of_gt hpos)).1 (by omega)
    have hcount : count = count - excess (value * 2 ^ count) + excess (value * 2 ^ count) := by
      rw [excess, hlog]
      omega
    rw [roundNat_of_lt hvalue, roundNat]
    generalize excess (value * 2 ^ count) = shift at hcount
    rw [hcount, Nat.pow_add, ← Nat.mul_assoc, roundShift_exact]
  · have hexcess : excess (value * 2 ^ count) = excess value + count := by
      rw [excess, excess, hlog]
      omega
    rw [roundNat, hexcess, roundShift_mul_two_pow, roundNat, Nat.pow_add, Nat.mul_assoc]

theorem roundShift_two_pow {count shift : Nat} (h : shift ≤ count) :
    roundShift (2 ^ count) shift * 2 ^ shift = 2 ^ count := by
  have hsplit : 2 ^ count = 2 ^ (count - shift) * 2 ^ shift := by
    rw [← Nat.pow_add, Nat.sub_add_cancel h]
  rw [hsplit, roundShift_exact]

theorem roundNat_le_two_pow {value count : Nat} (h : value ≤ 2 ^ count)
    (hexcess : excess value ≤ count) : roundNat value ≤ 2 ^ count := by
  rw [← roundShift_two_pow hexcess]
  exact Nat.mul_le_mul_right _ (roundShift_mono h _)

theorem two_pow_le_roundNat {value count : Nat} (h : 2 ^ count ≤ value)
    (hexcess : excess value ≤ count) : 2 ^ count ≤ roundNat value := by
  rw [← roundShift_two_pow hexcess]
  exact Nat.mul_le_mul_right _ (roundShift_mono h _)

theorem roundNat_mono {x y : Nat} (h : x ≤ y) : roundNat x ≤ roundNat y := by
  rcases Nat.eq_zero_or_pos x with rfl | hpos
  · rw [roundNat_of_lt (Nat.two_pow_pos 24)]
    exact Nat.zero_le _
  have hx : x ≠ 0 := Nat.ne_of_gt hpos
  have hy : y ≠ 0 := Nat.ne_of_gt (Nat.lt_of_lt_of_le hpos h)
  have hlog : x.log2 ≤ y.log2 := (Nat.le_log2 hy).2 (Nat.le_trans (Nat.log2_self_le hx) h)
  rcases Nat.eq_or_lt_of_le hlog with heq | hlt
  · have hexcess : excess x = excess y := by rw [excess, excess, heq]
    rw [roundNat, roundNat, hexcess]
    exact Nat.mul_le_mul_right _ (roundShift_mono h _)
  · calc roundNat x ≤ 2 ^ (x.log2 + 1) :=
          roundNat_le_two_pow (Nat.le_of_lt Nat.lt_log2_self) (by rw [excess]; omega)
      _ ≤ 2 ^ y.log2 := Nat.pow_le_pow_right (by decide) hlt
      _ ≤ roundNat y := two_pow_le_roundNat (Nat.log2_self_le hy) (by rw [excess]; omega)

theorem lt_two_pow_excess (value : Nat) : value < 2 ^ (24 + excess value) := by
  rcases Nat.eq_zero_or_pos value with rfl | hpos
  · exact Nat.two_pow_pos _
  · apply (Nat.log2_lt (Nat.ne_of_gt hpos)).1
    rw [excess]
    omega

theorem excess_le {value count : Nat} (h : value < 2 ^ (24 + count)) : excess value ≤ count := by
  rcases Nat.eq_zero_or_pos value with rfl | hpos
  · exact Nat.zero_le count
  · have hlog := (Nat.log2_lt (Nat.ne_of_gt hpos)).2 h
    rw [excess]
    omega

/-- A number is rounded by at most half a unit of its last place. -/
theorem roundNat_near (value : Nat) :
    2 * roundNat value ≤ 2 * value + 2 ^ excess value ∧
      2 * value ≤ 2 * roundNat value + 2 ^ excess value :=
  roundShift_near value (excess value)

theorem le_roundNat_of_near {value factor count : Nat} (hexcess : excess value ≤ count)
    (h : 2 * (factor * 2 ^ count) < 2 * value + 2 ^ excess value) :
    factor * 2 ^ count ≤ roundNat value := by
  have hunits : factor * 2 ^ count = factor * 2 ^ (count - excess value) * 2 ^ excess value := by
    rw [Nat.mul_assoc, ← Nat.pow_add, Nat.sub_add_cancel hexcess]
  have hnear := (roundNat_near value).2
  rw [hunits] at h ⊢
  rw [roundNat] at hnear ⊢
  apply Nat.mul_le_mul_right
  apply Nat.le_of_not_lt
  intro hless
  have hnext := Nat.mul_le_mul_right (2 ^ excess value) (Nat.succ_le_of_lt hless)
  rw [Nat.succ_mul] at hnext
  omega

/-- Rounding by up to half a unit leaves the quotient alone, if that is so whatever the unit
of the last place may be. -/
theorem roundNat_div_two_pow {value quotient bits count : Nat} (hvalue : value < 2 ^ (24 + bits))
    (hbits : bits ≤ count)
    (h : ∀ unit ≤ 2 ^ bits, value < 2 ^ 24 * unit →
      2 * (quotient * 2 ^ count) < 2 * value + unit ∧
        2 * value + unit < 2 * ((quotient + 1) * 2 ^ count)) :
    roundNat value / 2 ^ count = quotient := by
  have hexcess := excess_le hvalue
  have hlength := lt_two_pow_excess value
  rw [Nat.pow_add] at hlength
  obtain ⟨hlow, hhigh⟩ := h _ (Nat.pow_le_pow_right (by decide) hexcess) hlength
  have hnear := (roundNat_near value).1
  apply Nat.div_eq_of_lt_le
  · exact le_roundNat_of_near (Nat.le_trans hexcess hbits) hlow
  · omega

theorem truncate_eq (significand up down : Nat) :
    (Binary32.mk significand (up - down : Int)).truncate = significand * 2 ^ up / 2 ^ down := by
  rw [truncate]
  simp only [Nat.pow_eq]
  split
  · next hexponent =>
    obtain ⟨extra, rfl⟩ := Nat.exists_eq_add_of_le (show down ≤ up by omega)
    rw [show ((down + extra : Nat) - down : Int).toNat = extra by omega, Nat.pow_add,
      Nat.mul_comm (2 ^ down), ← Nat.mul_assoc, Nat.mul_div_cancel _ (Nat.two_pow_pos down)]
  · next hexponent =>
    obtain ⟨extra, rfl⟩ := Nat.exists_eq_add_of_le (show up ≤ down by omega)
    rw [show (-((up : Int) - (up + extra : Nat))).toNat = extra by omega, Nat.pow_add,
      Nat.mul_comm (2 ^ up), Nat.mul_div_mul_right _ _ (Nat.two_pow_pos up)]

/-- A product with a natural number, cut off: both roundings are roundings of natural
numbers. -/
theorem truncate_mul_ofNat {x : Binary32} {down : Nat} (h : x.exponent = -down) (value : Nat) :
    (x.mul (ofNat value)).truncate =
      roundNat (x.significand * roundNat value) / 2 ^ down := by
  have hproduct : x.significand * roundNat value =
      x.significand * roundShift value (excess value) * 2 ^ excess value := by
    rw [roundNat, Nat.mul_assoc]
  rw [hproduct, roundNat_mul_two_pow, mul, ofNat, round_eq, round_eq, h]
  generalize roundShift value (excess value) = significand
  rw [roundNat, Nat.mul_assoc, ← Nat.pow_add, ← truncate_eq]
  dsimp only
  congr 2
  omega

theorem truncate_mul_ofNat_mono {x : Binary32} {down : Nat} (h : x.exponent = -down)
    {value greater : Nat} (hle : value ≤ greater) :
    (x.mul (ofNat value)).truncate ≤ (x.mul (ofNat greater)).truncate := by
  rw [truncate_mul_ofNat h, truncate_mul_ofNat h]
  exact Nat.div_le_div_right (roundNat_mono (Nat.mul_le_mul_left _ (roundNat_mono hle)))

theorem toInt_toSignedWord (x : Binary32) :
    x.toSignedWord.toInt = (min x.truncate (2 ^ 31 - 1) : Nat) := by
  have hcut : min x.truncate (2 ^ 31 - 1) < 2 ^ 31 := by omega
  have hnat : x.toSignedWord.toNat = min x.truncate (2 ^ 31 - 1) := by
    rw [toSignedWord, Nat.pow_eq, BitVec.toNat_ofNat, Nat.mod_eq_of_lt (by omega)]
  rw [BitVec.toInt_eq_toNat_of_lt (by omega), hnat]

end Binary32
end FacilityIsa
