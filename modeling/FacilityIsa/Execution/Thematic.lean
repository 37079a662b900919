import FacilityIsa.Execution.Context
import FacilityIsa.Facility.Announcement
import FacilityIsa.Facility.Extraction
import FacilityIsa.Facility.Ordeal

/-!
# Thematic instructions

None of these reports a failure. Table indices are clamped and register
arithmetic wraps. An extraction is abandoned, with its number drawn, if that
number is too great for the sums it makes of it. A meltdown raises a risk
counter in memory if it can and carries on if it cannot. Eight registers, `$t0`
to `$t7`, stand for the agents.
-/

namespace FacilityIsa

/-- How many points a meltdown takes from each agent. -/
def meltdownPenalty : Word := 10

/-- The risk counter lies this many bytes above the global pointer. -/
def riskCounterOffset : Word := 8

def riskCeiling : Word := 4

def agentCount : Nat := 8

/-- The register of an agent, counted from zero. -/
def agent (index : Nat) : Register :=
  Register.ofNat (8 + index)

def agents : List Register :=
  (List.range agentCount).map agent

/-- The agent that an ordeal strikes, whether or not the draw kept its bound. -/
def struckAgent (draw : Word) : Register :=
  agent (draw.toNat % agentCount)

/-- What a meltdown leaves an agent, never less than zero. -/
def penalized (value : Word) : Word :=
  if meltdownPenalty.sle value then value - meltdownPenalty else 0

/-- The risk counter after a meltdown, never above the ceiling. -/
def raisedRisk (risk : Word) : Word :=
  if risk.slt riskCeiling then risk + 1 else riskCeiling

/-- The machine with the word at an address raised, if memory admits it. -/
def Machine.raiseRisk (machine : Machine) (address : Address) : Except AddressError Machine :=
  match machine.readWord address with
  | .ok risk => machine.writeWord address (raisedRisk risk)
  | .error error => .error error

namespace Context

variable {ρ ω : Type} [DrawSource ρ] (context : Context ρ ω)

def extract (fields : ImmediateFields) : Execution ρ ω Unit :=
  let (draw, drawn) := context.draw extractionBound
  match extractionYield? (RiskTier.clamped fields.simm) draw with
  | some yield => .done () (drawn.setRegister fields.rt (drawn.register fields.rs + yield))
  | none => .failed .abort drawn

variable [LineSink ω]

def work (work : Work) (fields : ImmediateFields) : Context ρ ω :=
  let trained := context.setRegister fields.rt (context.register fields.rs + fields.simm)
  trained.emit (work.line fields.simm)

/-- Sets `$v0` to one if the power of an agent exceeds the scaled power of an
abnormality. -/
def suppress (fields : ImmediateFields) : Context ρ ω :=
  let tier := RiskTier.clamped fields.simm
  let threshold := tier.suppressionThreshold (context.register fields.rt)
  let success := threshold < (context.register fields.rs).toInt
  context.setRegister Register.v0 (if success then 1 else 0)

def ordeal (fields : ImmediateFields) : Context ρ ω :=
  let (draw, drawn) := context.draw (BitVec.ofNat 32 agentCount)
  let struck := struckAgent draw
  let severity := (OrdealLevel.clamped fields.simm).severity
  (drawn.setRegister struck (drawn.register struck - severity)).emit
    (ordealLine fields.simm struck)

def ego (fields : ImmediateFields) : Context ρ ω :=
  let bonus := egoBonus fields.simm
  (context.setRegister fields.rt (context.register fields.rt + bonus)).emit
    (egoLine fields.simm bonus fields.rt)

def panic (fields : ImmediateFields) : Context ρ ω :=
  (context.setRegister fields.rs 0).emit (panicLine fields.rs)

/-- Takes the penalty from every agent. -/
def penalizeAgents : Context ρ ω :=
  agents.foldl (fun context agent => context.setRegister agent (penalized (context.register agent)))
    context

def meltdown (fields : ImmediateFields) : Context ρ ω :=
  let penalized := ((context.emit (meltdownLine fields.rs)).penalizeAgents).emit
    (penaltyLine meltdownPenalty)
  let address := penalized.register Register.globalPointer + riskCounterOffset
  match penalized.machine.raiseRisk address with
  | .ok machine => { penalized with machine }.emit riskLine
  | .error _ => penalized

omit [LineSink ω]

variable {context} {fields : ImmediateFields}

theorem extract_of_yield {amount : Word}
    (h : extractionYield? (RiskTier.clamped fields.simm) (context.draw extractionBound).1 =
      some amount) :
    context.extract fields =
      .done () ((context.draw extractionBound).2.setRegister fields.rt
        (context.register fields.rs + amount)) := by
  simp only [extract, h]
  rfl

theorem extract_of_no_yield
    (h : extractionYield? (RiskTier.clamped fields.simm) (context.draw extractionBound).1 = none) :
    context.extract fields = .failed .abort (context.draw extractionBound).2 := by
  simp only [extract, h]

end Context
end FacilityIsa
