import FacilityIsa.Execution.Arithmetic
import Mathlib.Algebra.Group.Int.Defs

/-!
# The range of a signed word

The sign rules for sums and differences say exactly that the result, computed
over the integers, lies outside the signed words; where they do not apply the
wrapped result is the exact one.
-/

namespace FacilityIsa

/-- The integers that a signed word can hold. -/
def Word.IsSigned (value : Int) : Prop :=
  -2 ^ 31 ≤ value ∧ value < 2 ^ 31

instance (value : Int) : Decidable (Word.IsSigned value) :=
  inferInstanceAs (Decidable (_ ∧ _))

open Word

theorem Word.isSigned_toInt (x : Word) : IsSigned x.toInt :=
  ⟨BitVec.le_toInt x, BitVec.toInt_lt⟩

theorem saddOverflow_eq_false_iff {x y : Word} :
    x.saddOverflow y = false ↔ IsSigned (x.toInt + y.toInt) := by
  simp only [BitVec.saddOverflow, IsSigned, Bool.or_eq_false_iff, decide_eq_false_iff_not]
  omega

theorem ssubOverflow_eq_false_iff {x y : Word} :
    x.ssubOverflow y = false ↔ IsSigned (x.toInt - y.toInt) := by
  simp only [BitVec.ssubOverflow, IsSigned, Bool.or_eq_false_iff, decide_eq_false_iff_not]
  omega

theorem Word.toInt_add_of_isSigned {x y : Word} (h : IsSigned (x.toInt + y.toInt)) :
    (x + y).toInt = x.toInt + y.toInt :=
  BitVec.toInt_add_of_not_saddOverflow (by simp [saddOverflow_eq_false_iff.2 h])

theorem Word.toInt_sub_of_isSigned {x y : Word} (h : IsSigned (x.toInt - y.toInt)) :
    (x - y).toInt = x.toInt - y.toInt :=
  BitVec.toInt_sub_of_not_ssubOverflow (by simp [ssubOverflow_eq_false_iff.2 h])

theorem addSigned?_eq (x y : Word) :
    addSigned? x y = if IsSigned (x.toInt + y.toInt) then some (x + y) else none := by
  have hrule := BitVec.saddOverflow_eq x y
  simp only [addSigned?, ← saddOverflow_eq_false_iff, hrule]
  cases x.msb <;> cases y.msb <;> cases (x + y).msb <;> rfl

theorem subSigned?_eq (x y : Word) :
    subSigned? x y = if IsSigned (x.toInt - y.toInt) then some (x - y) else none := by
  have hrule := BitVec.ssubOverflow_eq x y
  simp only [subSigned?, ← ssubOverflow_eq_false_iff, hrule]
  cases x.msb <;> cases y.msb <;> cases (x - y).msb <;> rfl

end FacilityIsa
