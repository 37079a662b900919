import FacilityIsa.Proofs.Effects
import FacilityIsa.Proofs.Placement

/-!
# Sessions

A session is all that a host does with an engine, one action after another. The
host may fail at any of them and go on. It may also drive the machine itself, by
single words, steps and instructions, and then brings its own source of draws
and its own sink. Every action keeps the configuration and the segments, only a
load changes the program range, and most actions change the machine in no other
way than instructions do.
-/

namespace FacilityIsa

/-- What a host may do with an engine and its machine. -/
inductive HostAction : Type 1 where
  | load (words : List Word)
  | run (limit : Nat)
  | reset
  | loadProgram (words : List Word)
  | readRegister (register : Register)
  | setRegister (register : Register) (value : Word)
  | readWord (address : Address)
  | writeWord (address : Address) (word : Word)
  | setPc (address : Address)
  | branch (displacement : Word)
  | jump (target : Address)
  | link (register : Register)
  | execute {σ τ : Type} [DrawSource σ] [LineSink τ] (catalog : Catalog) (word : Word)
      (draws : σ) (output : τ)
  | step {σ τ : Type} [DrawSource σ] [LineSink τ] (catalog : Catalog) (draws : σ) (output : τ)
  | perform {σ τ : Type} [DrawSource σ] [LineSink τ] (instruction : Instruction)
      (operands : Operands) (draws : σ) (output : τ)

namespace HostAction

/-- Where the action moves the program counter to an address of the host's choice,
that is a multiple of four. -/
def MovesAligned : HostAction → Prop
  | .setPc address | .jump address => Word.IsAligned address
  | _ => True

/-- The action changes the machine only as instructions may. -/
def IsGradual : HostAction → Prop
  | .load _ | .loadProgram _ | .reset | .setPc _ | .jump _ => False
  | _ => True

end HostAction

namespace Engine

variable {ρ ω : Type}

@[simp] theorem config_load (engine : Engine ρ ω) (words : List Word) :
    (engine.load words).after.machine.config = engine.machine.config := by
  rw [machine_load, Machine.config_loadProgram, Machine.config_reset]

@[simp] theorem segments_load (engine : Engine ρ ω) (words : List Word) :
    (engine.load words).after.machine.memory.segments = engine.machine.memory.segments := by
  rw [machine_load, Machine.segments_loadProgram, Machine.segments_reset]

variable [DrawSource ρ] [LineSink ω]

/-- The engine after an action, whether or not it failed. -/
def act (engine : Engine ρ ω) : HostAction → Engine ρ ω
  | .load words => (engine.load words).after
  | .run limit => (engine.run limit).2
  | .reset => engine.withMachine engine.machine.reset
  | .loadProgram words => engine.withMachine (engine.machine.loadProgram words).after
  | .readRegister _ | .readWord _ => engine
  | .setRegister register value => engine.withMachine (engine.machine.setRegister register value)
  | .writeWord address word =>
    match engine.machine.writeWord address word with
    | .ok machine => engine.withMachine machine
    | .error _ => engine
  | .setPc address => engine.withMachine (engine.machine.setPc address)
  | .branch displacement => engine.withMachine (engine.machine.branch displacement)
  | .jump target => engine.withMachine (engine.machine.jump target)
  | .link register => engine.withMachine (engine.machine.link register)
  | @HostAction.execute _ _ _ _ catalog word draws output =>
    engine.withMachine (catalog.execute word ⟨engine.machine, draws, output⟩).after.machine
  | @HostAction.step _ _ _ _ catalog draws output =>
    engine.withMachine (catalog.step ⟨engine.machine, draws, output⟩).after.machine
  | @HostAction.perform _ _ _ _ instruction operands draws output =>
    engine.withMachine
      (instruction.perform operands ⟨engine.machine, draws, output⟩).after.machine

/-- The engine after a session. -/
def session (engine : Engine ρ ω) (actions : List HostAction) : Engine ρ ω :=
  actions.foldl act engine

theorem session_preserves {Holds : Engine ρ ω → Prop} {actions : List HostAction}
    (hact : ∀ action ∈ actions, ∀ engine, Holds engine → Holds (engine.act action))
    {engine : Engine ρ ω} (h : Holds engine) : Holds (engine.session actions) := by
  induction actions generalizing engine with
  | nil => exact h
  | cons action actions ih =>
    have hfirst := hact action (.head actions) engine h
    exact ih (fun later hlater => hact later (.tail action hlater)) hfirst

theorem effects_act {action : HostAction} (h : action.IsGradual) (engine : Engine ρ ω) :
    engine.machine.Effects (engine.act action).machine := by
  cases action with
  | load | loadProgram | reset | setPc | jump => exact h.elim
  | run limit => exact (engine.run_outcome limit).effects
  | readRegister | readWord => exact .refl
  | setRegister register value => exact .single (.setRegister _ _ _)
  | writeWord address word =>
    unfold act
    dsimp only
    split
    · next hwrite => exact .single (.writeWord hwrite)
    · exact .refl
  | branch displacement => exact .single (.branch _ _)
  | link register => exact .single (.setRegister _ _ _)
  | execute catalog word draws output =>
    exact catalog.effects_execute ⟨engine.machine, draws, output⟩ word
  | step catalog draws output => exact catalog.effects_step ⟨engine.machine, draws, output⟩
  | perform instruction operands draws output =>
    exact instruction.effects_perform operands ⟨engine.machine, draws, output⟩

theorem program_act {action : HostAction} (h : ∀ words, action ≠ .load words)
    (engine : Engine ρ ω) : (engine.act action).program = engine.program := by
  cases action with
  | load words => exact absurd rfl (h words)
  | run limit => exact (engine.run_outcome limit).program_eq
  | writeWord address word =>
    unfold act
    dsimp only
    split <;> rfl
  | _ => rfl

theorem config_act (engine : Engine ρ ω) (action : HostAction) :
    (engine.act action).machine.config = engine.machine.config := by
  cases action with
  | load words => exact engine.config_load words
  | loadProgram words => exact Machine.config_loadProgram _ _
  | reset | setPc | jump => rfl
  | _ =>
    refine (effects_act ?_ engine).config_eq
    exact trivial

theorem segments_act (engine : Engine ρ ω) (action : HostAction) :
    (engine.act action).machine.memory.segments = engine.machine.memory.segments := by
  cases action with
  | load words => exact engine.segments_load words
  | loadProgram words => exact Machine.segments_loadProgram _ _
  | reset | setPc | jump => rfl
  | _ =>
    refine (effects_act ?_ engine).segments_eq
    exact trivial

theorem config_session (engine : Engine ρ ω) (actions : List HostAction) :
    (engine.session actions).machine.config = engine.machine.config := by
  have hact : ∀ action ∈ actions, ∀ reached : Engine ρ ω,
      reached.machine.config = engine.machine.config →
        (reached.act action).machine.config = engine.machine.config :=
    fun action _ reached h => (reached.config_act action).trans h
  exact session_preserves hact rfl

theorem segments_session (engine : Engine ρ ω) (actions : List HostAction) :
    (engine.session actions).machine.memory.segments = engine.machine.memory.segments := by
  have hact : ∀ action ∈ actions, ∀ reached : Engine ρ ω,
      reached.machine.memory.segments = engine.machine.memory.segments →
        (reached.act action).machine.memory.segments = engine.machine.memory.segments :=
    fun action _ reached h => (reached.segments_act action).trans h
  exact session_preserves hact rfl

end Engine
end FacilityIsa
