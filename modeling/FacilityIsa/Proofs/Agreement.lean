import FacilityIsa.Proofs.Traces

/-!
# Executions that agree

Two contexts agree when they have the same machine and their sources and sinks are
related. Instructions keep them in agreement, with the same answer, as long as emitting a
line keeps sinks related and drawing gives related sources the same number. Of the
sources only the second matters, and only to an instruction that draws.
-/

namespace FacilityIsa

/-- Related sources draw the same number below a bound and stay related. -/
def DrawSource.Respects {ρ σ : Type} [DrawSource ρ] [DrawSource σ] (R : ρ → σ → Prop)
    (bound : Word) : Prop :=
  ∀ first second, R first second →
    (below first bound).1 = (below second bound).1 ∧
      R (below first bound).2 (below second bound).2

/-- Related sinks stay related when a line is emitted to both. -/
def LineSink.Respects {ω τ : Type} [LineSink ω] [LineSink τ] (S : ω → τ → Prop) : Prop :=
  ∀ line first second, S first second → S (emit first line) (emit second line)

/-- The same machine, with sources and sinks that are related. -/
structure Context.Agrees {ρ σ ω τ : Type} (R : ρ → σ → Prop) (S : ω → τ → Prop)
    (first : Context ρ ω) (second : Context σ τ) : Prop where
  machine_eq : first.machine = second.machine
  draws : R first.draws second.draws
  output : S first.output second.output

namespace Context

variable {ρ σ ω τ : Type} {R : ρ → σ → Prop} {S : ω → τ → Prop} {first : Context ρ ω}
  {second : Context σ τ}

theorem Agrees.register_eq (h : first.Agrees R S second) (register : Register) :
    first.register register = second.register register :=
  congrArg (·.register register) h.machine_eq

theorem Agrees.pc_eq (h : first.Agrees R S second) : first.pc = second.pc :=
  congrArg Machine.pc h.machine_eq

theorem Agrees.withMachine (h : first.Agrees R S second) (machine : Machine) :
    Agrees R S { first with machine } { second with machine } :=
  ⟨rfl, h.draws, h.output⟩

theorem Agrees.setRegister (h : first.Agrees R S second) (register : Register)
    {value other : Word} (hvalue : value = other) :
    (first.setRegister register value).Agrees R S (second.setRegister register other) :=
  ⟨congrArg₂ (·.setRegister register ·) h.machine_eq hvalue, h.draws, h.output⟩

theorem Agrees.setPc (h : first.Agrees R S second) {address other : Address}
    (haddress : address = other) : (first.setPc address).Agrees R S (second.setPc other) :=
  ⟨congrArg₂ Machine.setPc h.machine_eq haddress, h.draws, h.output⟩

theorem Agrees.emit [LineSink ω] [LineSink τ] (hsink : LineSink.Respects S)
    (h : first.Agrees R S second) (line : String) :
    (first.emit line).Agrees R S (second.emit line) :=
  ⟨h.machine_eq, h.draws, hsink line _ _ h.output⟩

theorem Agrees.jumpTarget_eq (h : first.Agrees R S second) (fields : JumpFields) :
    first.jumpTarget fields = second.jumpTarget fields := by
  simp only [jumpTarget, h.pc_eq]

theorem Agrees.beq (h : first.Agrees R S second) (fields : ImmediateFields) :
    (first.beq fields).Agrees R S (second.beq fields) := by
  unfold Context.beq
  rw [h.register_eq, h.register_eq]
  split
  · exact h.setPc (congrArg (· + fields.simm <<< 2) h.pc_eq)
  · exact h

theorem Agrees.bne (h : first.Agrees R S second) (fields : ImmediateFields) :
    (first.bne fields).Agrees R S (second.bne fields) := by
  unfold Context.bne
  rw [h.register_eq, h.register_eq]
  split
  · exact h
  · exact h.setPc (congrArg (· + fields.simm <<< 2) h.pc_eq)

theorem Agrees.work [LineSink ω] [LineSink τ] (hsink : LineSink.Respects S)
    (h : first.Agrees R S second) (work : Work) (fields : ImmediateFields) :
    (first.work work fields).Agrees R S (second.work work fields) := by
  apply Agrees.emit hsink
  exact h.setRegister fields.rt (congrArg (· + fields.simm) (h.register_eq fields.rs))

theorem Agrees.suppress (h : first.Agrees R S second) (fields : ImmediateFields) :
    (first.suppress fields).Agrees R S (second.suppress fields) := by
  apply h.setRegister
  rw [h.register_eq, h.register_eq]

theorem Agrees.ego [LineSink ω] [LineSink τ] (hsink : LineSink.Respects S)
    (h : first.Agrees R S second) (fields : ImmediateFields) :
    (first.ego fields).Agrees R S (second.ego fields) := by
  apply Agrees.emit hsink
  exact h.setRegister fields.rt (congrArg (· + egoBonus fields.simm) (h.register_eq fields.rt))

theorem Agrees.panic [LineSink ω] [LineSink τ] (hsink : LineSink.Respects S)
    (h : first.Agrees R S second) (fields : ImmediateFields) :
    (first.panic fields).Agrees R S (second.panic fields) := by
  apply Agrees.emit hsink
  exact h.setRegister fields.rs rfl

theorem Agrees.penalizeAgents (h : first.Agrees R S second) :
    first.penalizeAgents.Agrees R S second.penalizeAgents := by
  unfold Context.penalizeAgents
  generalize agents = remaining
  induction remaining generalizing first second with
  | nil => exact h
  | cons agent remaining ih =>
    apply ih
    exact h.setRegister agent (congrArg penalized (h.register_eq agent))

theorem Agrees.meltdown [LineSink ω] [LineSink τ] (hsink : LineSink.Respects S)
    (h : first.Agrees R S second) (fields : ImmediateFields) :
    (first.meltdown fields).Agrees R S (second.meltdown fields) := by
  have hpenalized := ((h.emit hsink (meltdownLine fields.rs)).penalizeAgents).emit hsink
    (penaltyLine meltdownPenalty)
  unfold Context.meltdown
  dsimp only
  rw [hpenalized.register_eq, hpenalized.machine_eq]
  split
  · exact (hpenalized.withMachine _).emit hsink _
  · exact hpenalized

end Context

variable {ρ σ ω τ : Type} {R : ρ → σ → Prop} {S : ω → τ → Prop}

/-- The same answer, and contexts that agree afterwards. -/
structure Execution.Agrees {α : Type} (R : ρ → σ → Prop) (S : ω → τ → Prop)
    (first : Execution ρ ω α) (second : Execution σ τ α) : Prop where
  answer_eq : first.answer = second.answer
  after : first.after.Agrees R S second.after

variable {first : Context ρ ω} {second : Context σ τ}

namespace Context

theorem Agrees.done (h : first.Agrees R S second) :
    Execution.Agrees R S (.done () first) (.done () second) :=
  ⟨rfl, h⟩

theorem Agrees.failed {α : Type} (h : first.Agrees R S second) (fault : Fault) :
    Execution.Agrees R S (.failed fault first : Execution ρ ω α) (.failed fault second) :=
  ⟨rfl, h⟩

theorem Agrees.setChecked (h : first.Agrees R S second) (instruction : Instruction)
    (register : Register) {value other : Option Word} (hvalue : value = other) :
    Execution.Agrees R S (first.setChecked instruction register value)
      (second.setChecked instruction register other) := by
  subst hvalue
  cases value with
  | some value => exact (h.setRegister register rfl).done
  | none => exact h.failed _

theorem Agrees.lw (h : first.Agrees R S second) (fields : ImmediateFields) :
    Execution.Agrees R S (first.lw fields) (second.lw fields) := by
  unfold Context.lw effectiveAddress
  rw [h.register_eq, h.machine_eq]
  split
  · exact (h.setRegister _ rfl).done
  · exact h.failed _

theorem Agrees.sw (h : first.Agrees R S second) (fields : ImmediateFields) :
    Execution.Agrees R S (first.sw fields) (second.sw fields) := by
  unfold Context.sw effectiveAddress
  dsimp only
  rw [h.register_eq, h.register_eq, h.machine_eq]
  split
  · exact (h.withMachine _).done
  · exact h.failed _

variable [DrawSource ρ] [DrawSource σ]

theorem Agrees.draw {bound : Word} (hsource : DrawSource.Respects R bound)
    (h : first.Agrees R S second) :
    (first.draw bound).1 = (second.draw bound).1 ∧
      (first.draw bound).2.Agrees R S (second.draw bound).2 := by
  obtain ⟨hvalue, hrest⟩ := hsource _ _ h.draws
  exact ⟨hvalue, h.machine_eq, hrest, h.output⟩

theorem Agrees.extract (hsource : DrawSource.Respects R 10) (h : first.Agrees R S second)
    (fields : ImmediateFields) :
    Execution.Agrees R S (first.extract fields) (second.extract fields) := by
  obtain ⟨hvalue, hdrawn⟩ := h.draw hsource
  unfold Context.extract
  dsimp only
  rw [show extractionBound = 10 from rfl, hvalue, hdrawn.register_eq]
  split
  · exact (hdrawn.setRegister fields.rt rfl).done
  · exact hdrawn.failed _

theorem Agrees.ordeal [LineSink ω] [LineSink τ] (hsink : LineSink.Respects S)
    (hsource : DrawSource.Respects R 8) (h : first.Agrees R S second) (fields : ImmediateFields) :
    (first.ordeal fields).Agrees R S (second.ordeal fields) := by
  obtain ⟨hvalue, hdrawn⟩ := h.draw hsource
  rw [ordeal_eq_strike, ordeal_eq_strike, hvalue]
  apply Agrees.emit hsink
  exact hdrawn.setRegister _ (congrArg (· - _) (hdrawn.register_eq _))

end Context

variable [DrawSource ρ] [DrawSource σ] [LineSink ω] [LineSink τ]

/-- An instruction gives the same answer on contexts that agree, and they still agree after
it, if their sources give the same numbers for its draws. -/
theorem Instruction.perform_agrees (hsink : LineSink.Respects S) (h : first.Agrees R S second)
    {instruction : Instruction}
    (hdraws : ∀ bound ∈ instruction.drawBounds, DrawSource.Respects R bound)
    (operands : Operands) :
    Execution.Agrees R S (instruction.perform operands first)
      (instruction.perform operands second) := by
  by_cases hformat : operands.format = instruction.format
  case neg =>
    rw [perform_of_format_ne hformat, perform_of_format_ne hformat]
    exact h.failed _
  have hregister := h.register_eq
  cases operands with
  | register fields =>
    cases instruction with
    | add =>
      exact h.setChecked .add fields.rd
        (congrArg₂ addSigned? (hregister fields.rs) (hregister fields.rt))
    | sub =>
      exact h.setChecked .sub fields.rd
        (congrArg₂ subSigned? (hregister fields.rs) (hregister fields.rt))
    | mul | and | or | slt =>
      refine (h.setRegister fields.rd ?_).done
      rw [hregister, hregister]
    | _ => exact nomatch hformat
  | jump fields =>
    cases instruction with
    | j => exact (h.setPc (h.jumpTarget_eq fields)).done
    | jal =>
      have hlink := h.setRegister Register.returnAddress h.pc_eq
      exact (hlink.setPc (h.jumpTarget_eq fields)).done
    | _ => exact nomatch hformat
  | branch fields =>
    cases instruction with
    | beq => exact (h.beq fields).done
    | bne => exact (h.bne fields).done
    | ego => exact (h.ego hsink fields).done
    | _ => exact nomatch hformat
  | immediate fields =>
    cases instruction with
    | addi =>
      exact h.setChecked .addi fields.rt
        (congrArg (addSigned? · fields.simm) (hregister fields.rs))
    | lw => exact h.lw fields
    | sw => exact h.sw fields
    | extract => exact h.extract (hdraws 10 (.head _)) fields
    | winst => exact (h.work hsink .instinct fields).done
    | winsight => exact (h.work hsink .insight fields).done
    | wattach => exact (h.work hsink .attachment fields).done
    | wrepress => exact (h.work hsink .repression fields).done
    | suppress => exact (h.suppress fields).done
    | ordeal => exact (h.ordeal hsink (hdraws 8 (.head _)) fields).done
    | panic => exact (h.panic hsink fields).done
    | meltdown => exact (h.meltdown hsink fields).done
    | _ => exact nomatch hformat

namespace Catalog

theorem execute_agrees (hsink : LineSink.Respects S) (h : first.Agrees R S second)
    (catalog : Catalog) (word : Word)
    (hdraws : ∀ bound ∈ StepRecord.drawBounds
      ⟨first.machine, (catalog.execute word first).answer⟩, DrawSource.Respects R bound) :
    Execution.Agrees R S (catalog.execute word first) (catalog.execute word second) := by
  cases hfind : catalog.find? word with
  | none =>
    rw [execute_of_find?_eq_none hfind, execute_of_find?_eq_none hfind]
    exact h.failed _
  | some instruction =>
    rw [drawBounds_execute hfind] at hdraws
    obtain ⟨hanswer, hafter⟩ :=
      Instruction.perform_agrees hsink h hdraws (instruction.operandsOf word)
    rw [execute_of_find?_eq_some hfind, execute_of_find?_eq_some hfind]
    exact ⟨congrArg (Except.map _) hanswer, hafter⟩

theorem step_agrees (hsink : LineSink.Respects S) (h : first.Agrees R S second)
    (catalog : Catalog)
    (hdraws : ∀ bound ∈ StepRecord.drawBounds ⟨first.machine, (catalog.step first).answer⟩,
      DrawSource.Respects R bound) :
    Execution.Agrees R S (catalog.step first) (catalog.step second) := by
  have hsame : second.machine.readWord second.pc = first.machine.readWord first.pc := by
    rw [h.machine_eq, h.pc_eq]
  cases hread : first.machine.readWord first.pc with
  | error error =>
    rw [step_of_fetch_refused hread, step_of_fetch_refused (hsame.trans hread)]
    exact h.failed _
  | ok word =>
    rw [step_of_fetched hread] at hdraws
    rw [step_of_fetched hread, step_of_fetched (hsame.trans hread)]
    exact execute_agrees hsink (h.setPc (congrArg Word.next h.pc_eq)) catalog word hdraws

end Catalog

namespace Engine

/-- The same program on contexts that agree. -/
structure Agrees (R : ρ → σ → Prop) (S : ω → τ → Prop) (first : Engine ρ ω)
    (second : Engine σ τ) : Prop where
  context : first.context.Agrees R S second.context
  program_eq : first.program = second.program

variable {first : Engine ρ ω} {second : Engine σ τ}

omit [DrawSource ρ] [DrawSource σ] [LineSink ω] [LineSink τ] in
theorem Agrees.inProgram_eq (h : first.Agrees R S second) : first.inProgram = second.inProgram :=
  congrArg₂ ProgramRange.contains h.program_eq h.context.pc_eq

theorem Agrees.step (hsink : LineSink.Respects S) (h : first.Agrees R S second)
    (hdraws : ∀ bound ∈ first.record.drawBounds, DrawSource.Respects R bound) :
    first.record = second.record ∧ first.step.after.Agrees R S second.step.after := by
  obtain ⟨hanswer, hafter⟩ := Catalog.step_agrees hsink h.context Catalog.full hdraws
  exact ⟨congrArg₂ StepRecord.mk h.context.machine_eq hanswer, hafter, h.program_eq⟩

/-- Runs of engines that agree end alike, and the engines still agree after them, if the
sources give the same numbers for all draws of the first run. -/
theorem Agrees.run (hsink : LineSink.Respects S) (h : first.Agrees R S second) (limit : Nat)
    (hdraws : ∀ record ∈ first.trace limit, ∀ bound ∈ record.drawBounds,
      DrawSource.Respects R bound) :
    (first.run limit).1 = (second.run limit).1 ∧
      (first.run limit).2.Agrees R S (second.run limit).2 := by
  induction limit generalizing first second with
  | zero =>
    cases hin : first.inProgram with
    | false =>
      rw [run_outside hin, run_outside (h.inProgram_eq ▸ hin)]
      exact ⟨rfl, h⟩
    | true =>
      rw [run_zero hin, run_zero (h.inProgram_eq ▸ hin)]
      exact ⟨rfl, h⟩
  | succ limit ih =>
    cases hin : first.inProgram with
    | false =>
      rw [run_outside hin, run_outside (h.inProgram_eq ▸ hin)]
      exact ⟨rfl, h⟩
    | true =>
      have hother : second.inProgram = true := h.inProgram_eq ▸ hin
      have hnow : first.record ∈ first.trace (limit + 1) := by
        simp [trace, hin]
      obtain ⟨hrecord, hafter⟩ := h.step hsink (hdraws _ hnow)
      have hsame : second.step.answer = first.step.answer :=
        congrArg StepRecord.answer hrecord.symm
      cases hanswer : first.step.answer with
      | ok instruction =>
        have hfirst : first.step = ⟨.ok instruction, first.step.after⟩ := by rw [← hanswer]
        have hsecond : second.step = ⟨.ok instruction, second.step.after⟩ := by
          rw [← hanswer, ← hsame]
        rw [trace_succ_of_ok hin hfirst] at hdraws
        obtain ⟨hsummary, hreached⟩ :=
          ih hafter fun record hrecord => hdraws record (.tail _ hrecord)
        rw [run_succ_of_ok hin hfirst, run_succ_of_ok hother hsecond, hsummary]
        exact ⟨rfl, hreached⟩
      | error fault =>
        have hfirst : first.step = ⟨.error fault, first.step.after⟩ := by rw [← hanswer]
        have hsecond : second.step = ⟨.error fault, second.step.after⟩ := by
          rw [← hanswer, ← hsame]
        rw [run_succ_of_error hin hfirst, run_succ_of_error hother hsecond]
        exact ⟨rfl, hafter⟩

theorem Agrees.trace_eq (hsink : LineSink.Respects S) (h : first.Agrees R S second) {limit : Nat}
    (hdraws : ∀ record ∈ first.trace limit, ∀ bound ∈ record.drawBounds,
      DrawSource.Respects R bound) :
    first.trace limit = second.trace limit := by
  apply List.ext_getElem?
  intro index
  apply Option.ext
  intro record
  rw [getElem?_trace_eq_some_iff, getElem?_trace_eq_some_iff]
  refine and_congr_right fun hlimit => ?_
  obtain ⟨hsummary, hagrees⟩ := h.run hsink index fun earlier hearlier =>
    hdraws earlier (List.mem_of_mem_take (take_trace first hlimit.le ▸ hearlier))
  rw [hsummary]
  refine and_congr_right fun hstop => ?_
  have hnow : (first.run index).2.record ∈ first.trace limit :=
    List.mem_of_getElem? (getElem?_trace_eq_some_iff.2 ⟨hlimit, hsummary ▸ hstop, rfl⟩)
  rw [(hagrees.step hsink (hdraws _ hnow)).1]

end Engine
end FacilityIsa
