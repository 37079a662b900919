import FacilityIsa.Engine.Basic

/-!
# Bounded runs

A run steps until the program counter leaves the program, a given number of
instructions has completed, or an instruction faults, and looks for these in
this order before each step. The faulting instruction is not counted. A run
that is abandoned counts as one that faults, with a fault that nobody sees.
-/

namespace FacilityIsa

inductive StopReason where
  | endOfProgram
  | stepLimit
  | fault (cause : Fault)
  deriving DecidableEq

def StopReason.message : StopReason → String
  | .endOfProgram => "end of program"
  | .stepLimit => "step limit reached"
  | .fault cause => "fault: " ++ cause.message

def StopReason.isFault : StopReason → Bool
  | .fault _ => true
  | _ => false

/-- How many instructions a run completed and why it stopped. -/
structure RunSummary where
  steps : Nat
  stop : StopReason
  deriving DecidableEq

namespace Engine

variable {ρ ω : Type} [DrawSource ρ] [LineSink ω]

/-- The program counter is inside the program. -/
def inProgram (engine : Engine ρ ω) : Bool :=
  engine.program.contains engine.context.pc

/-- Executes the instruction at the program counter. -/
def step (engine : Engine ρ ω) : Attempt Fault Instruction (Engine ρ ω) :=
  let program := engine.program
  match Catalog.full.step engine.context with
  | ⟨answer, context⟩ => ⟨answer, ⟨context, program⟩⟩

/-- Goes on with a run that has completed `done` instructions and may complete
`left` more. -/
def runOn (engine : Engine ρ ω) (done : Nat) (left : Nat) : RunSummary × Engine ρ ω :=
  if engine.inProgram then
    match left with
    | 0 => (⟨done, .stepLimit⟩, engine)
    | left + 1 =>
      match engine.step with
      | ⟨.ok _, engine⟩ => engine.runOn (done + 1) left
      | ⟨.error fault, engine⟩ => (⟨done, .fault fault⟩, engine)
  else (⟨done, .endOfProgram⟩, engine)

/-- Runs for at most `limit` instructions. -/
def run (engine : Engine ρ ω) (limit : Nat) : RunSummary × Engine ρ ω :=
  engine.runOn 0 limit

/-- The instructions already completed only add to the count. -/
theorem runOn_eq (engine : Engine ρ ω) (done left : Nat) :
    engine.runOn done left =
      ({ (engine.run left).1 with steps := done + (engine.run left).1.steps },
        (engine.run left).2) := by
  suffices h : ∀ start, engine.runOn (done + start) left =
      ({ (engine.runOn start left).1 with steps := done + (engine.runOn start left).1.steps },
        (engine.runOn start left).2) from h 0
  induction left generalizing engine with
  | zero => intro start; rw [runOn, runOn]; split <;> rfl
  | succ left ih =>
    intro start
    rw [runOn, runOn]
    split
    · cases engine.step with
      | mk answer after => cases answer with
        | ok _ => exact ih after (start + 1)
        | error _ => rfl
    · rfl

theorem run_outside {engine : Engine ρ ω} (h : engine.inProgram = false) (limit : Nat) :
    engine.run limit = (⟨0, .endOfProgram⟩, engine) := by
  rw [run, runOn.eq_def]
  simp [h]

theorem run_zero {engine : Engine ρ ω} (h : engine.inProgram = true) :
    engine.run 0 = (⟨0, .stepLimit⟩, engine) := by
  rw [run, runOn.eq_def]
  simp [h]

theorem run_succ_of_ok {engine next : Engine ρ ω} {instruction : Instruction}
    (h : engine.inProgram = true) (hstep : engine.step = ⟨.ok instruction, next⟩) (limit : Nat) :
    engine.run (limit + 1) =
      ({ (next.run limit).1 with steps := (next.run limit).1.steps + 1 }, (next.run limit).2) := by
  rw [run, runOn.eq_def]
  simp only [h, if_true, hstep]
  rw [runOn_eq, Nat.zero_add, Nat.add_comm]

theorem run_succ_of_error {engine next : Engine ρ ω} {fault : Fault}
    (h : engine.inProgram = true) (hstep : engine.step = ⟨.error fault, next⟩) (limit : Nat) :
    engine.run (limit + 1) = (⟨0, .fault fault⟩, next) := by
  rw [run, runOn.eq_def]
  simp only [h, if_true, hstep]

end Engine
end FacilityIsa
