/-!
# Padded text

A text is first cut to a precision, if there is one, and then filled with
spaces up to a width. Both count characters. Text that is already wide enough
is left alone, and an odd space of a centred text goes to its right.
-/

namespace FacilityIsa
namespace Text

inductive Alignment where
  | left
  | right
  | centre
  deriving DecidableEq, Repr

structure Padding where
  width : Nat := 0
  alignment : Alignment := .left
  precision : Option Nat := none
  deriving DecidableEq, Repr

/-- The spaces before and after a text that lacks `missing` characters. -/
def Alignment.split (missing : Nat) : Alignment → Nat × Nat
  | .left => (0, missing)
  | .right => (missing, 0)
  | .centre => (missing / 2, missing - missing / 2)

def spaces (count : Nat) : String :=
  String.ofList (List.replicate count ' ')

def Padding.apply (padding : Padding) (text : String) : String :=
  let shown := match padding.precision with
    | some limit => String.ofList (text.toList.take limit)
    | none => text
  let margins := padding.alignment.split (padding.width - shown.length)
  spaces margins.1 ++ shown ++ spaces margins.2

/-- The text in a column of the given width, at its left end. -/
def leftColumn (width : Nat) (text : String) : String :=
  Padding.apply ⟨width, .left, none⟩ text

/-- The text in a column of the given width, at its right end. -/
def rightColumn (width : Nat) (text : String) : String :=
  Padding.apply ⟨width, .right, none⟩ text

end Text
end FacilityIsa
