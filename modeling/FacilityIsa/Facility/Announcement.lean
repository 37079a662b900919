import FacilityIsa.Register.Basic
import FacilityIsa.Word

/-!
# Announcements

The lines that the thematic instructions emit. Registers are named by their
decimal index, numbers are signed decimals.
-/

namespace FacilityIsa

/-- The four kinds of work with abnormalities, each training a virtue. -/
inductive Work where
  | instinct
  | insight
  | attachment
  | repression
  deriving DecidableEq, Repr

namespace Work

def label : Work → String
  | instinct => "WINST"
  | insight => "WINSIGHT"
  | attachment => "WATTACH"
  | repression => "WREPRESS"

def virtue : Work → String
  | instinct => "Fortitude"
  | insight => "Prudence"
  | attachment => "Temperance"
  | repression => "Justice"

def line (work : Work) (increase : Word) : String :=
  work.label ++ ": " ++ work.virtue ++ " increased by " ++ increase.toDecimal

end Work

def ordealLine (level : Word) (struck : Register) : String :=
  "Ordeal level " ++ level.toDecimal ++ " struck $" ++ toString struck.toNat ++ "!"

def egoLine (number bonus : Word) (agent : Register) : String :=
  "Equipped E.G.O id " ++ number.toDecimal ++ " on agent $" ++ toString agent.toNat ++
    " (+" ++ bonus.toDecimal ++ ")."

def panicLine (clerk : Register) : String :=
  "PANIC: Clerk in register $" ++ toString clerk.toNat ++
    " has panicked! Register cleared to 0."

def meltdownLine (department : Register) : String :=
  "MELTDOWN: Department " ++ toString department.toNat ++ " in full meltdown!"

def penaltyLine (penalty : Word) : String :=
  "All agents penalized by " ++ penalty.toDecimal ++ " points"

def riskLine : String :=
  "Global risk level increased"

end FacilityIsa
