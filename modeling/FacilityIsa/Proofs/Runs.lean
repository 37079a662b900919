import FacilityIsa.Draws.Script
import FacilityIsa.Engine.Run

/-!
# Runs as sequences of steps

A bounded run is a sequence of completed steps, each taken inside the program,
that ends in one of three ways: the program counter is outside the program, the
bound is reached, or the next step fails. So a run may be cut in two at any
bound that it reaches, and a run that ended early is not changed by a larger
bound.
-/

namespace FacilityIsa
namespace Engine

variable {ρ ω : Type} [DrawSource ρ] [LineSink ω]

/-- A number of steps, each inside the program and each successful, lead from one
engine to another. -/
inductive Completes : Engine ρ ω → Nat → Engine ρ ω → Prop
  | refl (engine : Engine ρ ω) : Completes engine 0 engine
  | step {engine next reached : Engine ρ ω} {instruction : Instruction} {count : Nat}
      (hin : engine.inProgram = true) (hstep : engine.step = ⟨.ok instruction, next⟩)
      (hrest : Completes next count reached) : Completes engine (count + 1) reached

/-- The three ways in which a run within a bound ends. -/
inductive Outcome (engine : Engine ρ ω) (limit : Nat) : RunSummary → Engine ρ ω → Prop
  | endOfProgram {count reached} (hcount : count ≤ limit)
      (hcompletes : engine.Completes count reached) (hout : reached.inProgram = false) :
      Outcome engine limit ⟨count, .endOfProgram⟩ reached
  | stepLimit {reached} (hcompletes : engine.Completes limit reached)
      (hin : reached.inProgram = true) : Outcome engine limit ⟨limit, .stepLimit⟩ reached
  | fault {count before fault reached} (hcount : count < limit)
      (hcompletes : engine.Completes count before) (hin : before.inProgram = true)
      (hstep : before.step = ⟨.error fault, reached⟩) :
      Outcome engine limit ⟨count, .fault fault⟩ reached

variable {engine next reached : Engine ρ ω}

theorem Outcome.after_step {instruction : Instruction} {limit : Nat} {summary : RunSummary}
    (hin : engine.inProgram = true) (hstep : engine.step = ⟨.ok instruction, next⟩)
    (h : next.Outcome limit summary reached) :
    engine.Outcome (limit + 1) { summary with steps := summary.steps + 1 } reached := by
  cases h with
  | endOfProgram hcount hcompletes hout =>
    exact .endOfProgram (Nat.succ_le_succ hcount) (.step hin hstep hcompletes) hout
  | stepLimit hcompletes hreached => exact .stepLimit (.step hin hstep hcompletes) hreached
  | fault hcount hcompletes hbefore hfault =>
    exact .fault (Nat.succ_lt_succ hcount) (.step hin hstep hcompletes) hbefore hfault

/-- A run ends in one of the three ways. -/
theorem run_outcome (engine : Engine ρ ω) (limit : Nat) :
    engine.Outcome limit (engine.run limit).1 (engine.run limit).2 := by
  induction limit generalizing engine with
  | zero =>
    cases hin : engine.inProgram with
    | false =>
      rw [run_outside hin]
      exact .endOfProgram (Nat.le_refl 0) (.refl engine) hin
    | true =>
      rw [run_zero hin]
      exact .stepLimit (.refl engine) hin
  | succ limit ih =>
    cases hin : engine.inProgram with
    | false =>
      rw [run_outside hin]
      exact .endOfProgram (Nat.zero_le _) (.refl engine) hin
    | true =>
      match hstep : engine.step with
      | ⟨.ok instruction, next⟩ =>
        rw [run_succ_of_ok hin hstep]
        exact (ih next).after_step hin hstep
      | ⟨.error fault, reached⟩ =>
        rw [run_succ_of_error hin hstep]
        exact .fault (Nat.succ_pos limit) (.refl engine) hin hstep

theorem Completes.run_add {count : Nat} (h : engine.Completes count reached) (limit : Nat) :
    engine.run (count + limit) =
      ({ (reached.run limit).1 with steps := count + (reached.run limit).1.steps },
        (reached.run limit).2) := by
  induction h with
  | refl engine => simp only [Nat.zero_add]
  | @step engine next reached instruction count hin hstep hrest ih =>
    rw [show count + 1 + limit = count + limit + 1 by omega, run_succ_of_ok hin hstep, ih]
    simp only [Nat.add_right_comm]

namespace Outcome

variable {limit : Nat} {summary : RunSummary}

theorem steps_le (h : engine.Outcome limit summary reached) : summary.steps ≤ limit := by
  cases h with
  | endOfProgram hcount => exact hcount
  | stepLimit => exact Nat.le_refl limit
  | fault hcount => exact Nat.le_of_lt hcount

theorem stop_eq_stepLimit_iff (h : engine.Outcome limit summary reached) :
    summary.stop = .stepLimit ↔
      summary.steps = limit ∧ reached.inProgram = true ∧ ∀ fault, summary.stop ≠ .fault fault := by
  cases h with
  | endOfProgram _ _ hout => simp [hout]
  | stepLimit _ hin => simp [hin]
  | fault => simp

theorem inProgram_eq_false (h : engine.Outcome limit summary reached)
    (hstop : summary.stop = .endOfProgram) : reached.inProgram = false := by
  cases h with
  | endOfProgram _ _ hout => exact hout
  | stepLimit => exact nomatch hstop
  | fault => exact nomatch hstop

theorem exists_failed_step {fault : Fault} (h : engine.Outcome limit summary reached)
    (hstop : summary.stop = .fault fault) :
    ∃ before, summary.steps < limit ∧ engine.Completes summary.steps before ∧
      before.inProgram = true ∧ before.step = ⟨.error fault, reached⟩ := by
  cases h with
  | endOfProgram => exact nomatch hstop
  | stepLimit => exact nomatch hstop
  | fault hcount hcompletes hin hstep =>
    cases hstop
    exact ⟨_, hcount, hcompletes, hin, hstep⟩

theorem run_add_of_stepLimit (h : engine.Outcome limit summary reached)
    (hstop : summary.stop = .stepLimit) (extra : Nat) :
    engine.run (limit + extra) =
      ({ (reached.run extra).1 with steps := limit + (reached.run extra).1.steps },
        (reached.run extra).2) := by
  cases h with
  | endOfProgram => exact nomatch hstop
  | stepLimit hcompletes => exact hcompletes.run_add extra
  | fault => exact nomatch hstop

/-- A run that ended before its bound does not depend on the bound. -/
theorem run_add_of_ne_stepLimit (h : engine.Outcome limit summary reached)
    (hstop : summary.stop ≠ .stepLimit) (extra : Nat) :
    engine.run (limit + extra) = (summary, reached) := by
  cases h with
  | @endOfProgram count _ hcount hcompletes hout =>
    obtain ⟨left, rfl⟩ := Nat.exists_eq_add_of_le hcount
    rw [Nat.add_assoc, hcompletes.run_add, run_outside hout]
    rfl
  | stepLimit => exact absurd rfl hstop
  | @fault count before fault _ hcount hcompletes hin hstep =>
    obtain ⟨left, rfl⟩ := Nat.exists_eq_add_of_lt hcount
    rw [show count + left + 1 + extra = count + (left + extra + 1) by omega,
      hcompletes.run_add, run_succ_of_error hin hstep]
    rfl

end Outcome

/-- What a run within one bound says of the runs within larger ones, and of the
runs that follow it. -/
theorem run_compose (engine : Engine ρ ω) (a b : Nat) :
    let steps := (engine.run a).1.steps
    let stop := (engine.run a).1.stop
    let reached := (engine.run a).2
    steps ≤ a ∧
      (stop = .stepLimit ↔
        steps = a ∧ reached.inProgram = true ∧ ∀ fault, stop ≠ .fault fault) ∧
      (stop = .stepLimit →
        engine.run (a + b) =
          (⟨a + (reached.run b).1.steps, (reached.run b).1.stop⟩, (reached.run b).2)) ∧
      ((stop = .endOfProgram ∨ ∃ fault, stop = .fault fault) →
        engine.run (a + b) = (⟨steps, stop⟩, reached)) ∧
      (stop = .endOfProgram → ∀ c, reached.run c = (⟨0, .endOfProgram⟩, reached)) := by
  intro steps stop reached
  have houtcome := engine.run_outcome a
  refine ⟨houtcome.steps_le, houtcome.stop_eq_stepLimit_iff, ?_, ?_, ?_⟩
  · intro hstop
    exact houtcome.run_add_of_stepLimit hstop b
  · intro hstop
    have hne : stop ≠ .stepLimit := by
      rcases hstop with hstop | ⟨fault, hstop⟩
      · rw [hstop]
        exact nofun
      · rw [hstop]
        exact nofun
    exact houtcome.run_add_of_ne_stepLimit hne b
  · intro hstop c
    exact run_outside (houtcome.inProgram_eq_false hstop) c

/-- A jump to itself reaches every bound, so its runs add up. -/
theorem run_compose_of_jump_to_itself :
    let memory := (Machine.new {}).memory.store 0x00400000 0x08100000
    let context : Context Script Transcript :=
      ⟨{ Machine.new {} with memory }, { values := [3] }, {}⟩
    let engine : Engine Script Transcript := ⟨context, ⟨0x00400000, 0x00400004⟩⟩
    engine.run 2 = (⟨2, .stepLimit⟩, engine) ∧
      engine.run (2 + 3) = (⟨2 + (engine.run 3).1.steps, (engine.run 3).1.stop⟩, engine) := by
  intro memory context engine
  have hin : engine.inProgram = true := by decide
  have haligned : Word.IsAligned context.pc := by decide
  have hmapped : context.machine.memory.segmentAt context.pc = some Segment.text := rfl
  have hfetch : context.machine.readWord context.pc = .ok 0x08100000 :=
    Memory.read_store haligned hmapped
  have hfind : Catalog.full.find? 0x08100000 = some .j := by decide
  have hstep : engine.step = ⟨.ok .j, engine⟩ := by
    have htarget : (context.setPc (Word.next context.pc)).jumpTarget
        (JumpFields.decode 0x08100000) = 0x00400000 := by decide
    have hjump : (context.setPc (Word.next context.pc)).j (JumpFields.decode 0x08100000) =
        context := by
      rw [Context.j, htarget]
      rfl
    rw [step, Catalog.step_of_fetched hfetch, Catalog.execute_of_find?_eq_some hfind]
    exact congrArg
      (fun context => Attempt.done Instruction.j (Engine.mk context engine.program)) hjump
  have hrun : ∀ limit, engine.run limit = (⟨limit, .stepLimit⟩, engine) := by
    intro limit
    induction limit with
    | zero => exact run_zero hin
    | succ limit ih => rw [run_succ_of_ok hin hstep, ih]
  have hadd := (run_compose engine 2 3).2.2.1 (congrArg (·.1.stop) (hrun 2))
  refine ⟨hrun 2, ?_⟩
  rw [hadd, hrun 2, hrun 3]

end Engine
end FacilityIsa
