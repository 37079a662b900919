import FacilityIsa.Proofs.Footprints
import FacilityIsa.Proofs.Runs

/-!
# Traces of runs

The trace of a run records each step that the run takes: the machine it starts from and
what comes of it. The record at an index is that of the step taken where a run within this
bound stops for its bound. The draws of a run are those of the steps in its trace, one for
each extraction and each ordeal. All of these completed unless the run was abandoned, and
that happens to an extraction and with a source that does not keep its bounds.
-/

namespace FacilityIsa

/-- A step of a run: the machine before it, and the instruction that completed or the fault. -/
structure StepRecord where
  machine : Machine
  answer : Except Fault Instruction

namespace StepRecord

/-- The step executed an instruction that draws, which completed or was abandoned. -/
def Draws (record : StepRecord) : Prop :=
  record.answer = .ok .extract ∨ record.answer = .ok .ordeal ∨ record.answer = .error .abort

instance (record : StepRecord) : Decidable record.Draws :=
  inferInstanceAs (Decidable (_ ∨ _))

/-- The bounds of the draws that the step made. Only an extraction is abandoned. -/
def drawBounds (record : StepRecord) : List Word :=
  match record.answer with
  | .ok instruction => instruction.drawBounds
  | .error .abort => Instruction.extract.drawBounds
  | .error _ => []

theorem length_drawBounds (record : StepRecord) :
    record.drawBounds.length = if record.Draws then 1 else 0 := by
  obtain ⟨machine, answer⟩ := record
  cases answer with
  | error fault => cases fault <;> simp [Draws, drawBounds, Instruction.drawBounds]
  | ok instruction => cases instruction <;> simp [Draws, drawBounds, Instruction.drawBounds]

theorem draws_iff {record : StepRecord} : record.Draws ↔ record.drawBounds ≠ [] := by
  rw [← List.length_pos_iff, length_drawBounds]
  by_cases hdraws : record.Draws <;> simp [hdraws]

theorem length_flatMap_drawBounds (records : List StepRecord) :
    (records.flatMap drawBounds).length = records.countP (·.Draws) := by
  induction records with
  | nil => rfl
  | cons record records ih =>
    rw [List.flatMap_cons, List.length_append, ih, length_drawBounds, List.countP_cons]
    simp [Nat.add_comm]

end StepRecord

variable {ρ ω : Type} [DrawSource ρ] [LineSink ω]

namespace Catalog

variable {catalog : Catalog} {word : Word} {instruction : Instruction}

theorem drawBounds_execute (h : catalog.find? word = some instruction) (context : Context ρ ω)
    (machine : Machine) :
    StepRecord.drawBounds ⟨machine, (catalog.execute word context).answer⟩ =
      instruction.drawBounds := by
  cases hanswer : (catalog.execute word context).answer with
  | ok completed =>
    obtain rfl : completed = instruction :=
      Option.some.inj ((answer_execute_eq_ok_iff.1 hanswer).1.symm.trans h)
    rfl
  | error fault =>
    obtain ⟨hnone, -⟩ | ⟨found, hfind, hrefuses⟩ := answer_execute_eq_error_iff.1 hanswer
    · exact nomatch hnone.symm.trans h
    · obtain rfl : found = instruction := Option.some.inj (hfind.symm.trans h)
      cases hrefuses with
      | overflow hvalue _ => cases found <;> first | rfl | exact nomatch hvalue
      | unaligned haccess _ => obtain rfl | rfl := haccess <;> rfl
      | unmapped haccess _ _ => obtain rfl | rfl := haccess <;> rfl
      | readOnly => rfl
      | draw _ => rfl

theorem draws_step (catalog : Catalog) (context : Context ρ ω) :
    (catalog.step context).after.draws =
      DrawSource.after context.draws
        (StepRecord.drawBounds ⟨context.machine, (catalog.step context).answer⟩) := by
  cases hread : context.machine.readWord context.pc with
  | error error =>
    rw [step_of_fetch_refused hread]
    rfl
  | ok word =>
    rw [step_of_fetched hread]
    cases hfind : catalog.find? word with
    | none =>
      rw [execute_of_find?_eq_none hfind]
      rfl
    | some instruction =>
      rw [drawBounds_execute hfind, execute_of_find?_eq_some hfind, Attempt.after_map]
      exact (Instruction.confined_perform (Operands.format_decode _ _) _).draws_eq

end Catalog

namespace Engine

variable {engine next : Engine ρ ω}

/-- The record of the step that the engine takes next. -/
def record (engine : Engine ρ ω) : StepRecord :=
  ⟨engine.machine, engine.step.answer⟩

/-- The steps that a run within a bound takes, with the one that fails if there is one. -/
def trace (engine : Engine ρ ω) : Nat → List StepRecord
  | 0 => []
  | limit + 1 =>
    if engine.inProgram then
      engine.record ::
        match engine.step with
        | ⟨.ok _, next⟩ => next.trace limit
        | ⟨.error _, _⟩ => []
    else []

theorem trace_outside (h : engine.inProgram = false) (limit : Nat) : engine.trace limit = [] := by
  cases limit <;> simp [trace, h]

theorem trace_succ_of_ok {instruction : Instruction} (h : engine.inProgram = true)
    (hstep : engine.step = ⟨.ok instruction, next⟩) (limit : Nat) :
    engine.trace (limit + 1) = engine.record :: next.trace limit := by
  simp [trace, h, hstep]

theorem trace_succ_of_error {fault : Fault} (h : engine.inProgram = true)
    (hstep : engine.step = ⟨.error fault, next⟩) (limit : Nat) :
    engine.trace (limit + 1) = [engine.record] := by
  simp [trace, h, hstep]

/-- The trace lists what a run does: the step at an index is taken where the run within
that many steps stops for having reached its bound. -/
theorem getElem?_trace_eq_some_iff {limit index : Nat} {record : StepRecord} :
    (engine.trace limit)[index]? = some record ↔
      index < limit ∧ (engine.run index).1.stop = .stepLimit ∧
        (engine.run index).2.record = record := by
  induction limit generalizing engine index with
  | zero => simp [trace]
  | succ limit ih =>
    cases hin : engine.inProgram with
    | false => simp [trace_outside hin, run_outside hin]
    | true =>
      cases index with
      | zero =>
        match hstep : engine.step with
        | ⟨.ok instruction, next⟩ => simp [trace_succ_of_ok hin hstep, run_zero hin]
        | ⟨.error fault, next⟩ => simp [trace_succ_of_error hin hstep, run_zero hin]
      | succ index =>
        match hstep : engine.step with
        | ⟨.ok instruction, next⟩ =>
          simp [trace_succ_of_ok hin hstep, run_succ_of_ok hin hstep, ih]
        | ⟨.error fault, next⟩ =>
          simp [trace_succ_of_error hin hstep, run_succ_of_error hin hstep]

theorem answer_ne_abort_of_mem_trace {limit : Nat}
    (h : (engine.run limit).1.stop ≠ .fault .abort) {record : StepRecord}
    (hrecord : record ∈ engine.trace limit) : record.answer ≠ .error .abort := by
  induction limit generalizing engine with
  | zero => exact nomatch hrecord
  | succ limit ih =>
    cases hin : engine.inProgram with
    | false =>
      rw [trace_outside hin] at hrecord
      exact nomatch hrecord
    | true =>
      match hstep : engine.step with
      | ⟨.ok instruction, next⟩ =>
        rw [run_succ_of_ok hin hstep] at h
        rw [trace_succ_of_ok hin hstep] at hrecord
        cases hrecord with
        | head => simp [Engine.record, hstep]
        | tail _ hlater => exact ih h hlater
      | ⟨.error fault, next⟩ =>
        rw [run_succ_of_error hin hstep] at h
        rw [trace_succ_of_error hin hstep, List.mem_singleton] at hrecord
        rintro habort
        rw [hrecord, Engine.record, hstep] at habort
        exact h (congrArg StopReason.fault (Except.error.inj habort))

theorem stop_run_ne_abort (hsource : DrawSource.KeepsBounds ρ) (engine : Engine ρ ω)
    (limit : Nat) : (engine.run limit).1.stop ≠ .fault .abort := by
  intro habort
  obtain ⟨before, -, -, -, hstep⟩ := (engine.run_outcome limit).exists_failed_step habort
  exact Catalog.full.answer_step_ne_abort hsource before.context (congrArg Attempt.answer hstep)

theorem take_trace (engine : Engine ρ ω) {index limit : Nat} (h : index ≤ limit) :
    (engine.trace limit).take index = engine.trace index := by
  apply List.ext_getElem?
  intro earlier
  apply Option.ext
  intro record
  rw [List.getElem?_take]
  split
  · next hearlier =>
    rw [getElem?_trace_eq_some_iff, getElem?_trace_eq_some_iff]
    exact and_congr_left fun _ => iff_of_true (hearlier.trans_le h) hearlier
  · next hlater =>
    rw [getElem?_trace_eq_some_iff]
    exact iff_of_false nofun fun hrecord => hlater hrecord.1

/-- A run draws what its steps draw, in their order. -/
theorem draws_run (engine : Engine ρ ω) (limit : Nat) :
    (engine.run limit).2.context.draws =
      DrawSource.after engine.context.draws
        ((engine.trace limit).flatMap StepRecord.drawBounds) := by
  induction limit generalizing engine with
  | zero =>
    cases hin : engine.inProgram with
    | false => rw [run_outside hin]; rfl
    | true => rw [run_zero hin]; rfl
  | succ limit ih =>
    cases hin : engine.inProgram with
    | false => rw [run_outside hin, trace_outside hin]; rfl
    | true =>
      have hdraws : engine.step.after.context.draws =
          DrawSource.after engine.context.draws engine.record.drawBounds :=
        Catalog.full.draws_step engine.context
      match hstep : engine.step with
      | ⟨.ok instruction, next⟩ =>
        rw [hstep] at hdraws
        rw [run_succ_of_ok hin hstep, trace_succ_of_ok hin hstep, List.flatMap_cons, ih, hdraws,
          DrawSource.after, DrawSource.after, DrawSource.after, List.foldl_append]
      | ⟨.error fault, next⟩ =>
        rw [hstep] at hdraws
        rw [run_succ_of_error hin hstep, trace_succ_of_error hin hstep, List.flatMap_singleton,
          hdraws]

end Engine
end FacilityIsa
