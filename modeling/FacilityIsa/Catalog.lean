import FacilityIsa.Instruction.Disassembly

/-!
# Catalogs

A catalog is a list of instructions. A word is dispatched to the first one to
whose fixed bits it conforms, so an instruction that overlaps an earlier one
loses words to it. Such pairs are the collisions of the catalog; a strict
catalog has none.
-/

namespace FacilityIsa

structure Catalog where
  entries : List Instruction
  deriving DecidableEq

/-- An instruction that can never be dispatched, and the one that takes its words. -/
structure Collision where
  first : Instruction
  second : Instruction
  deriving DecidableEq

def Collision.message (collision : Collision) : String :=
  "`" ++ collision.second.mnemonic ++ "` shares its encoding with `" ++
    collision.first.mnemonic ++ "` and can never be dispatched"

/-- A word that belongs to no instruction of a catalog. -/
structure UndefinedInstruction where
  word : Word
  deriving DecidableEq

def UndefinedInstruction.message (error : UndefinedInstruction) : String :=
  "word " ++ error.word.toHex ++ " does not map to a known instruction"

namespace Catalog

/-- The catalog of every instruction. -/
def full : Catalog := ⟨Instruction.all⟩

/-- The instruction that a word is dispatched to. -/
def find? (catalog : Catalog) (word : Word) : Option Instruction :=
  catalog.entries.find? (·.fits word)

def decode (catalog : Catalog) (word : Word) : Except UndefinedInstruction DecodedWord :=
  match catalog.find? word with
  | some instruction => .ok (instruction.decode word)
  | none => .error ⟨word⟩

/-- The first instruction with a mnemonic, in letters of either case. -/
def named? (catalog : Catalog) (mnemonic : String) : Option Instruction :=
  catalog.entries.find? fun instruction =>
    instruction.mnemonic.toList.map Char.toLower = mnemonic.toList.map Char.toLower

/-- The overlapping pairs, by the position of the first and then of the second. -/
def collisionsIn : List Instruction → List Collision
  | [] => []
  | first :: rest => (rest.filter first.overlaps).map (Collision.mk first) ++ collisionsIn rest

def collisions (catalog : Catalog) : List Collision :=
  collisionsIn catalog.entries

/-- The catalog of a list without collisions, or the first collision. -/
def strict (entries : List Instruction) : Except Collision Catalog :=
  match collisionsIn entries with
  | [] => .ok ⟨entries⟩
  | collision :: _ => .error collision

end Catalog
end FacilityIsa
