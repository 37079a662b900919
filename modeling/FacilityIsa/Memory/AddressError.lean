import FacilityIsa.Word

/-!
# Address errors

The three ways in which an access to memory can be refused, each with the
address at fault.
-/

namespace FacilityIsa

inductive AddressError where
  | unaligned (address : Address)
  | unmapped (address : Address)
  | readOnly (address : Address)
  deriving DecidableEq, Repr

def AddressError.message : AddressError → String
  | .unaligned address => "address " ++ address.toHex ++ " is not word-aligned"
  | .unmapped address => "address " ++ address.toHex ++ " is outside of any mapped segment"
  | .readOnly address => "address " ++ address.toHex ++ " is in a read-only segment"

end FacilityIsa
