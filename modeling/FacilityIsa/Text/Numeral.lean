/-!
# Unsigned numerals

A numeral is an optional single plus sign and at least one digit of its base,
with any number of leading zeros. Reading one refuses every other character
and every value that does not fit the range it is read for, so a large
numeral is never reduced into range.
-/

namespace FacilityIsa
namespace Text

/-- The value of a digit; letters of either case stand for ten to fifteen. -/
def digitValue (c : Char) : Option Nat :=
  if '0' ≤ c ∧ c ≤ '9' then some (c.toNat - '0'.toNat)
  else if 'a' ≤ c ∧ c ≤ 'f' then some (c.toNat - 'a'.toNat + 10)
  else if 'A' ≤ c ∧ c ≤ 'F' then some (c.toNat - 'A'.toNat + 10)
  else none

/-- The value of a digit of the given base, which is at most sixteen. -/
def digitOf (base : Nat) (c : Char) : Option Nat :=
  (digitValue c).filter (· < base)

/-- The number that a list of digit values stands for, the first weighing most. -/
def ofDigits (base : Nat) (digits : List Nat) : Nat :=
  digits.foldl (fun value digit => value * base + digit) 0

def withoutPlus : List Char → List Char
  | '+' :: text => text
  | text => text

/-- Reads a numeral whose value is below `limit`. -/
def numeral? (base limit : Nat) (text : List Char) : Option Nat := do
  let digits ← (withoutPlus text).mapM (digitOf base)
  let value := ofDigits base digits
  if digits ≠ [] ∧ value < limit then some value else none

end Text
end FacilityIsa
