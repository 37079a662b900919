import FacilityIsa.Proofs.Runs
import Mathlib.Logic.Relation

/-!
# What instructions do to a machine

Whatever an instruction does to the machine is a sequence of changes of four
kinds: a register is set, a word is stored where memory admits a store, the
program counter moves by a number of instructions, or it moves to a multiple of
four. So an instruction, a step and a run preserve all that these preserve.
-/

namespace FacilityIsa

/-- One change that an instruction may make to the machine. -/
inductive Machine.Effect : Machine → Machine → Prop
  | setRegister (machine : Machine) (register : Register) (value : Word) :
      Effect machine (machine.setRegister register value)
  | writeWord {machine written : Machine} {address : Address} {word : Word}
      (h : machine.writeWord address word = .ok written) : Effect machine written
  | branch (machine : Machine) (displacement : Word) :
      Effect machine (machine.branch displacement)
  | jump (machine : Machine) {target : Address} (h : Word.IsAligned target) :
      Effect machine (machine.jump target)

namespace Machine

/-- Changes one after another. -/
abbrev Effects : Machine → Machine → Prop :=
  Relation.ReflTransGen Effect

variable {before after : Machine}

theorem Effect.config_eq (h : Effect before after) : after.config = before.config := by
  cases h with
  | writeWord hwrite =>
    obtain ⟨-, rfl⟩ := (writeWord_eq_ok_iff _).1 hwrite
    rfl
  | _ => rfl

theorem Effect.segments_eq (h : Effect before after) :
    after.memory.segments = before.memory.segments := by
  cases h with
  | writeWord hwrite =>
    obtain ⟨-, rfl⟩ := (writeWord_eq_ok_iff _).1 hwrite
    rfl
  | _ => rfl

theorem Effect.isAligned_pc (h : Effect before after) (hbefore : Word.IsAligned before.pc) :
    Word.IsAligned after.pc := by
  cases h with
  | setRegister =>
    rw [pc_setRegister]
    exact hbefore
  | writeWord hwrite =>
    obtain ⟨-, rfl⟩ := (writeWord_eq_ok_iff _).1 hwrite
    exact hbefore
  | branch displacement => exact hbefore.add (Word.isAligned_shiftLeft displacement)
  | jump htarget => exact htarget

namespace Effects

theorem preserves {Holds : Machine → Prop}
    (hstep : ∀ {before after}, Effect before after → Holds before → Holds after)
    (h : Effects before after) (hbefore : Holds before) : Holds after := by
  induction h with
  | refl => exact hbefore
  | tail _ hlast ih => exact hstep hlast ih

theorem config_eq (h : Effects before after) : after.config = before.config :=
  h.preserves (fun heffect heq => heffect.config_eq.trans heq) rfl

theorem segments_eq (h : Effects before after) :
    after.memory.segments = before.memory.segments :=
  h.preserves (fun heffect heq => heffect.segments_eq.trans heq) rfl

theorem isAligned_pc (h : Effects before after) (hbefore : Word.IsAligned before.pc) :
    Word.IsAligned after.pc :=
  h.preserves Effect.isAligned_pc hbefore

end Effects
end Machine

open Machine Relation

namespace Context

variable {ρ ω : Type} (context : Context ρ ω)

theorem effects_setChecked (instruction : Instruction) (register : Register)
    (value : Option Word) :
    Effects context.machine (context.setChecked instruction register value).after.machine := by
  cases value with
  | some value => exact .single (.setRegister _ _ _)
  | none => exact .refl

theorem isAligned_jumpTarget (fields : JumpFields) : Word.IsAligned (context.jumpTarget fields) :=
  (Word.IsAligned.and_left (by decide) _).or (Word.isAligned_shiftLeft _)

theorem effects_jal (fields : JumpFields) :
    Effects context.machine (context.jal fields).machine :=
  ReflTransGen.tail (.single (.setRegister _ _ _)) (.jump _ (context.isAligned_jumpTarget fields))

theorem effects_beq (fields : ImmediateFields) :
    Effects context.machine (context.beq fields).machine := by
  unfold beq
  split
  · exact .single (.branch _ _)
  · exact .refl

theorem effects_bne (fields : ImmediateFields) :
    Effects context.machine (context.bne fields).machine := by
  unfold bne
  split
  · exact .refl
  · exact .single (.branch _ _)

theorem effects_lw (fields : ImmediateFields) :
    Effects context.machine (context.lw fields).after.machine := by
  unfold lw
  split
  · exact .single (.setRegister _ _ _)
  · exact .refl

theorem effects_sw (fields : ImmediateFields) :
    Effects context.machine (context.sw fields).after.machine := by
  unfold sw
  dsimp only
  split
  · next hwrite => exact .single (.writeWord hwrite)
  · exact .refl

theorem effects_extract [DrawSource ρ] (fields : ImmediateFields) :
    Effects context.machine (context.extract fields).after.machine := by
  unfold extract
  dsimp only
  split
  · exact .single (.setRegister _ _ _)
  · exact .refl

theorem effects_penalizeAgents : Effects context.machine context.penalizeAgents.machine := by
  unfold penalizeAgents
  generalize agents = remaining
  induction remaining generalizing context with
  | nil => exact .refl
  | cons agent remaining ih =>
    have hrest := ih (context.setRegister agent (penalized (context.register agent)))
    exact ReflTransGen.head (.setRegister _ _ _) hrest

theorem effects_meltdown [LineSink ω] (fields : ImmediateFields) :
    Effects context.machine (context.meltdown fields).machine := by
  unfold meltdown
  dsimp only
  generalize hpenalized : ((context.emit (meltdownLine fields.rs)).penalizeAgents).emit
    (penaltyLine meltdownPenalty) = penalized
  have hfirst : Effects context.machine penalized.machine := by
    rw [← hpenalized, machine_emit, ← context.machine_emit (meltdownLine fields.rs)]
    exact effects_penalizeAgents _
  split
  · next machine hraise =>
    unfold raiseRisk at hraise
    split at hraise
    · exact hfirst.tail (.writeWord hraise)
    · exact nomatch hraise
  · exact hfirst

end Context

variable {ρ ω : Type} [DrawSource ρ] [LineSink ω]

theorem Instruction.effects_perform (instruction : Instruction) (operands : Operands)
    (context : Context ρ ω) :
    Effects context.machine (instruction.perform operands context).after.machine := by
  unfold Instruction.perform
  split
  case h_1 | h_2 | h_11 => exact context.effects_setChecked _ _ _
  case h_7 => exact .single (.jump _ (context.isAligned_jumpTarget _))
  case h_8 => exact context.effects_jal _
  case h_9 => exact context.effects_beq _
  case h_10 => exact context.effects_bne _
  case h_12 => exact context.effects_lw _
  case h_13 => exact context.effects_sw _
  case h_14 => exact context.effects_extract _
  case h_23 fields =>
    rw [Attempt.after_done]
    exact context.effects_meltdown fields
  case h_24 => exact .refl
  all_goals exact .single (.setRegister _ _ _)

namespace Catalog

variable (catalog : Catalog) (context : Context ρ ω)

theorem effects_execute (word : Word) :
    Effects context.machine (catalog.execute word context).after.machine := by
  cases hfind : catalog.find? word with
  | none =>
    rw [execute_of_find?_eq_none hfind]
    exact .refl
  | some instruction =>
    rw [execute_of_find?_eq_some hfind]
    exact instruction.effects_perform _ context

theorem effects_step : Effects context.machine (catalog.step context).after.machine := by
  cases hread : context.machine.readWord context.pc with
  | error error =>
    rw [step_of_fetch_refused hread]
    exact .refl
  | ok word =>
    rw [step_of_fetched hread]
    exact .head (.branch context.machine 1)
      (catalog.effects_execute (context.setPc (Word.next context.pc)) word)

end Catalog

namespace Engine

variable {engine before reached : Engine ρ ω}

theorem effects_step (engine : Engine ρ ω) :
    Effects engine.machine engine.step.after.machine :=
  Catalog.full.effects_step engine.context

theorem Completes.effects {count : Nat} (h : engine.Completes count reached) :
    Effects engine.machine reached.machine := by
  induction h with
  | refl => exact .refl
  | @step engine next reached instruction count hin hstep hrest ih =>
    have hfirst := engine.effects_step
    rw [hstep] at hfirst
    exact hfirst.trans ih

theorem Completes.program_eq {count : Nat} (h : engine.Completes count reached) :
    reached.program = engine.program := by
  induction h with
  | refl => rfl
  | @step engine next reached instruction count hin hstep hrest ih =>
    have hfirst : engine.step.after.program = engine.program := rfl
    rw [hstep] at hfirst
    exact ih.trans hfirst

theorem Outcome.effects {limit : Nat} {summary : RunSummary}
    (h : engine.Outcome limit summary reached) : Effects engine.machine reached.machine := by
  cases h with
  | endOfProgram _ hcompletes _ => exact hcompletes.effects
  | stepLimit hcompletes _ => exact hcompletes.effects
  | @fault _ before _ _ _ hcompletes _ hstep =>
    have hlast := before.effects_step
    rw [hstep] at hlast
    exact hcompletes.effects.trans hlast

theorem Outcome.program_eq {limit : Nat} {summary : RunSummary}
    (h : engine.Outcome limit summary reached) : reached.program = engine.program := by
  cases h with
  | endOfProgram _ hcompletes _ => exact hcompletes.program_eq
  | stepLimit hcompletes _ => exact hcompletes.program_eq
  | @fault _ before _ _ _ hcompletes _ hstep =>
    have hlast : before.step.after.program = before.program := rfl
    rw [hstep] at hlast
    exact hlast.trans hcompletes.program_eq

end Engine
end FacilityIsa
