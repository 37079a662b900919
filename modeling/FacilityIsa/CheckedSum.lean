import FacilityIsa.Word

/-!
# Checked sums

A sum or a difference of words is checked without a wider word. An unsigned sum
is too great when the wrapped sum is below an operand. A signed sum overflows
when the operands have one sign and the wrapped sum has the other, a difference
when the operands differ in sign and the wrapped difference has the sign of the
subtrahend.
-/

namespace FacilityIsa

/-- The sum of two unsigned words, if it is one. -/
def addUnsigned? (x y : Word) : Option Word :=
  let sum := x + y
  if sum < x then none else some sum

/-- The sum of two signed words, if it is one. -/
def addSigned? (x y : Word) : Option Word :=
  let sum := x + y
  if x.msb = y.msb ∧ sum.msb ≠ x.msb then none else some sum

/-- The difference of two signed words, if it is one. -/
def subSigned? (x y : Word) : Option Word :=
  let difference := x - y
  if x.msb ≠ y.msb ∧ difference.msb ≠ x.msb then none else some difference

end FacilityIsa
