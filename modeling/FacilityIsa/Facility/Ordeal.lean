import FacilityIsa.Word

/-!
# Ordeals and equipment

An ordeal has one of four levels, each with the damage it deals to an agent.
E.G.O equipment is numbered and grants one of five bonuses. Numbers out of
range stand for the nearer end.
-/

namespace FacilityIsa

inductive OrdealLevel where
  | dawn
  | noon
  | dusk
  | midnight
  deriving DecidableEq, Repr

namespace OrdealLevel

def clamped (number : Word) : OrdealLevel :=
  match number.toInt.toNat with
  | 0 => dawn
  | 1 => noon
  | 2 => dusk
  | _ => midnight

def name : OrdealLevel → String
  | dawn => "Dawn"
  | noon => "Noon"
  | dusk => "Dusk"
  | midnight => "Midnight"

/-- Damage dealt to the struck agent. -/
def severity : OrdealLevel → Word
  | dawn => 5
  | noon => 10
  | dusk => 20
  | midnight => 40

end OrdealLevel

/-- The bonus that equipment of a number grants. -/
def egoBonus (number : Word) : Word :=
  match number.toInt.toNat with
  | 0 => 1
  | 1 => 2
  | 2 => 3
  | 3 => 5
  | _ => 8

end FacilityIsa
