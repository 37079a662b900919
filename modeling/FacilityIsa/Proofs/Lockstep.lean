import FacilityIsa.Proofs.Agreement

/-!
# Runs in lockstep

Two engines with the same machine and the same program take the same steps up to the first
that draws, whatever their sources hand out and whatever becomes of their lines. Nothing
else that a run does can tell sources or sinks apart. The first step that draws executes the
same instruction on both, though if it is an extraction one source may make it complete and
the other have it abandoned.
-/

namespace FacilityIsa

namespace StepRecord

/-- The record with the instruction that was executed, even where it was abandoned. -/
def executed (record : StepRecord) : StepRecord :=
  match record.answer with
  | .error .abort => { record with answer := .ok .extract }
  | _ => record

theorem executed_eq_self {record : StepRecord} (h : record.answer ≠ .error .abort) :
    record.executed = record := by
  unfold executed
  split
  · next habort => exact absurd habort h
  · rfl

end StepRecord

variable {ρ σ ω τ : Type} [DrawSource ρ] [DrawSource σ] [LineSink ω] [LineSink τ]

namespace Catalog

variable {catalog : Catalog} {word : Word}

theorem executed_execute_extract (h : catalog.find? word = some .extract)
    (context : Context ρ ω) (machine : Machine) :
    StepRecord.executed ⟨machine, (catalog.execute word context).answer⟩ =
      ⟨machine, .ok .extract⟩ := by
  rw [execute_of_find?_eq_some h]
  change StepRecord.executed
    ⟨machine, (context.extract (ImmediateFields.decode word)).answer.map fun _ => _⟩ = _
  cases hyield : extractionYield? (RiskTier.clamped (ImmediateFields.decode word).simm)
      (context.draw extractionBound).1 with
  | some amount => rw [Context.extract_of_yield hyield]; rfl
  | none => rw [Context.extract_of_no_yield hyield]; rfl

variable {first : Context ρ ω} {second : Context σ τ}

/-- What an instruction draws decides at most whether it is abandoned. -/
theorem executed_execute_eq (hmachine : first.machine = second.machine) (catalog : Catalog)
    (word : Word) (machine : Machine) :
    StepRecord.executed ⟨machine, (catalog.execute word first).answer⟩ =
      StepRecord.executed ⟨machine, (catalog.execute word second).answer⟩ := by
  have hagrees : first.Agrees (fun _ _ => True) (fun _ _ => True) second :=
    ⟨hmachine, trivial, trivial⟩
  cases hfind : catalog.find? word with
  | none => rw [execute_of_find?_eq_none hfind, execute_of_find?_eq_none hfind]; rfl
  | some instruction =>
    cases instruction with
    | extract => rw [executed_execute_extract hfind, executed_execute_extract hfind]
    | ordeal => rw [execute_of_find?_eq_some hfind, execute_of_find?_eq_some hfind]; rfl
    | _ =>
      have hquiet := drawBounds_execute hfind first first.machine
      have hsame := execute_agrees (fun _ _ _ _ => trivial) hagrees catalog word
        (by rw [hquiet]; exact nofun)
      rw [hsame.answer_eq]

theorem executed_step_eq (hmachine : first.machine = second.machine) (catalog : Catalog) :
    StepRecord.executed ⟨first.machine, (catalog.step first).answer⟩ =
      StepRecord.executed ⟨second.machine, (catalog.step second).answer⟩ := by
  have hpc : first.pc = second.pc := congrArg Machine.pc hmachine
  have hread : second.machine.readWord second.pc = first.machine.readWord first.pc := by
    rw [hmachine, hpc]
  rw [hmachine]
  cases hfetch : first.machine.readWord first.pc with
  | error error =>
    rw [step_of_fetch_refused hfetch, step_of_fetch_refused (hread.trans hfetch)]
    rfl
  | ok word =>
    rw [step_of_fetched hfetch, step_of_fetched (hread.trans hfetch)]
    apply executed_execute_eq
    exact congrArg₂ Machine.setPc hmachine (congrArg Word.next hpc)

end Catalog

namespace Engine

/-- Nothing is asked of sources, as none is used, nor of sinks. -/
theorem run_agrees_of_not_draws {first : Engine ρ ω} {second : Engine σ τ}
    (hmachine : first.machine = second.machine) (hprogram : first.program = second.program)
    {limit : Nat} (hquiet : ∀ record ∈ first.trace limit, ¬record.Draws) :
    (first.run limit).1 = (second.run limit).1 ∧
      (first.run limit).2.Agrees (fun _ _ => True) (fun _ _ => True) (second.run limit).2 := by
  have hagrees : first.Agrees (fun _ _ => True) (fun _ _ => True) second :=
    ⟨⟨hmachine, trivial, trivial⟩, hprogram⟩
  refine hagrees.run (fun _ _ _ _ => trivial) limit ?_
  intro record hrecord bound hbound
  exact absurd (StepRecord.draws_iff.2 (List.ne_nil_of_mem hbound)) (hquiet record hrecord)

theorem map_executed_getElem?_trace (engine : Engine ρ ω) {limit : Nat}
    (h : (engine.run limit).1.stop ≠ .fault .abort) (index : Nat) :
    ((engine.trace limit)[index]?).map StepRecord.executed = (engine.trace limit)[index]? := by
  cases hrecord : (engine.trace limit)[index]? with
  | none => rfl
  | some record =>
    have hanswer := answer_ne_abort_of_mem_trace h (List.mem_of_getElem? hrecord)
    rw [Option.map_some, StepRecord.executed_eq_self hanswer]

/-- Up to the first that draws, a step of either run is taken if that of the other is. -/
theorem executed_getElem?_trace_eq {first : Engine ρ ω} {second : Engine σ τ}
    (hmachine : first.machine = second.machine) (hprogram : first.program = second.program)
    {limit index : Nat} (hquiet : ∀ record ∈ (first.trace limit).take index, ¬record.Draws) :
    ((first.trace limit)[index]?).map StepRecord.executed =
      ((second.trace limit)[index]?).map StepRecord.executed := by
  apply Option.ext
  intro executed
  simp only [Option.map_eq_some_iff, getElem?_trace_eq_some_iff]
  by_cases hlimit : index < limit
  case neg => simp only [hlimit, false_and, exists_false]
  rw [take_trace first (Nat.le_of_lt hlimit)] at hquiet
  obtain ⟨hsummary, hagrees⟩ := run_agrees_of_not_draws hmachine hprogram hquiet
  have hstep : (first.run index).2.record.executed = (second.run index).2.record.executed :=
    Catalog.executed_step_eq hagrees.context.machine_eq Catalog.full
  rw [hsummary]
  simp only [hlimit, true_and, and_assoc, exists_and_left, exists_eq_left', hstep]

/-- Engines with the same machine and program run in lockstep until an instruction draws,
and if none does their runs end alike. A run makes one draw for each instruction that
draws, below the bound of that instruction, and unless it is abandoned each of these
completes. -/
theorem runs_in_lockstep_until_draw (first : Engine ρ ω) (second : Engine σ τ)
    (hmachine : first.machine = second.machine) (hprogram : first.program = second.program)
    (limit : Nat) :
    (∀ index record, (first.trace limit)[index]? = some record ↔
        index < limit ∧ (first.run index).1.stop = .stepLimit ∧
          (first.run index).2.record = record) ∧
      (∀ index, (∀ record ∈ (first.trace limit).take index, ¬record.Draws) →
        ((first.trace limit)[index]?).map StepRecord.executed =
            ((second.trace limit)[index]?).map StepRecord.executed ∧
          ((first.run limit).1.stop ≠ .fault .abort → (second.run limit).1.stop ≠ .fault .abort →
            (first.trace limit)[index]? = (second.trace limit)[index]?)) ∧
        ((∀ record ∈ first.trace limit, ¬record.Draws) →
          (first.run limit).1 = (second.run limit).1 ∧
            (first.run limit).2.machine = (second.run limit).2.machine) ∧
          let bounds := (first.trace limit).flatMap StepRecord.drawBounds
          (first.run limit).2.context.draws = DrawSource.after first.context.draws bounds ∧
            bounds.length = (first.trace limit).countP (·.Draws) ∧
            ((first.run limit).1.stop ≠ .fault .abort → ∀ record ∈ first.trace limit,
              record.Draws → record.answer = .ok .extract ∨ record.answer = .ok .ordeal) := by
  refine ⟨fun _ _ => getElem?_trace_eq_some_iff, ?_, ?_, first.draws_run limit,
    StepRecord.length_flatMap_drawBounds _, ?_⟩
  · intro index hquiet
    have hexecuted := executed_getElem?_trace_eq hmachine hprogram hquiet
    refine ⟨hexecuted, fun hfirst hsecond => ?_⟩
    rwa [map_executed_getElem?_trace first hfirst,
      map_executed_getElem?_trace second hsecond] at hexecuted
  · intro hquiet
    obtain ⟨hsummary, hagrees⟩ := run_agrees_of_not_draws hmachine hprogram hquiet
    exact ⟨hsummary, hagrees.context.machine_eq⟩
  · intro hstop record hrecord hdraws
    have hanswer := answer_ne_abort_of_mem_trace hstop hrecord
    obtain hextract | hordeal | habort := hdraws
    · exact .inl hextract
    · exact .inr hordeal
    · exact absurd habort hanswer

/-- Two engines reach an extraction in the same state, though their sources hand out different
numbers and only one of their sinks keeps the line that was emitted before. -/
theorem runs_in_lockstep_until_draw_of_extraction :
    let memory := ((Machine.new {}).memory.store 0x00400004 0x412A0001).store 0x00400000 0x44090005
    let machine : Machine := { Machine.new {} with memory }
    let program : ProgramRange := ⟨0x00400000, 0x00400008⟩
    let first : Engine Script Transcript := ⟨⟨machine, { values := [3] }, {}⟩, program⟩
    let second : Engine Script Discard := ⟨⟨machine, { values := [7] }, {}⟩, program⟩
    first.machine = second.machine ∧ first.program = second.program ∧
      (∃ record, record.answer = .ok .extract ∧
        ((first.trace 2)[1]?).map StepRecord.executed = some record ∧
          ((second.trace 2)[1]?).map StepRecord.executed = some record) ∧
      (first.run 2).2.context.draws.taken = 1 := by
  intro memory machine program first second
  let next : Engine Script Transcript :=
    ⟨(first.context.setPc 0x00400004).work .instinct ⟨0, 9, 5⟩, program⟩
  have hstep : first.step = ⟨.ok .winst, next⟩ := by
    have hmapped : first.machine.memory.segmentAt first.context.pc = some Segment.text := rfl
    have hfetch : first.machine.readWord first.context.pc = .ok 0x44090005 :=
      Memory.read_store (by decide) hmapped
    have hfind : Catalog.full.find? 0x44090005 = some .winst := by decide
    have hoperands : Instruction.winst.operandsOf 0x44090005 = .immediate ⟨0, 9, 5⟩ := by decide
    rw [step, Catalog.step_of_fetched hfetch, Catalog.execute_of_find?_eq_some hfind, hoperands]
    rfl
  have hextracted : next.step = ⟨.ok .extract, next.step.after⟩ := by
    have hword : next.machine.memory.wordAt next.context.pc = 0x412A0001 := by
      change memory.wordAt 0x00400004 = _
      rw [Memory.wordAt_store, if_neg (by decide), Memory.wordAt_store, if_pos rfl]
    have hfetch : next.machine.readWord next.context.pc = .ok 0x412A0001 := by
      have hmapped : next.machine.memory.segmentAt next.context.pc = some Segment.text := rfl
      rw [← hword]
      exact Memory.read_eq_ok (by decide) hmapped
    have hanswer : next.step.answer = .ok .extract := by
      refine (congrArg Attempt.answer (Catalog.step_of_fetched hfetch)).trans ?_
      exact Catalog.answer_execute_extract_of_draw_lt (by decide) (by decide)
    rw [← hanswer]
  have htrace : first.trace 2 = [first.record, next.record] := by
    rw [trace_succ_of_ok (by decide) hstep, trace_succ_of_ok (by decide) hextracted]
    rfl
  have hworked : first.record.answer = .ok .winst := congrArg Attempt.answer hstep
  have hquiet : ∀ record ∈ (first.trace 2).take 1, ¬record.Draws := by
    rw [htrace]
    simp [StepRecord.Draws, hworked]
  have hanswer : next.record.answer = .ok .extract := congrArg Attempt.answer hextracted
  obtain ⟨-, hlockstep, -, hdraws, hcount, -⟩ :=
    runs_in_lockstep_until_draw first second rfl rfl 2
  have hexecuted : ((first.trace 2)[1]?).map StepRecord.executed = some next.record := by
    rw [htrace]
    refine congrArg some (StepRecord.executed_eq_self ?_)
    simp [hanswer]
  refine ⟨rfl, rfl, ⟨next.record, hanswer, hexecuted, ?_⟩, ?_⟩
  · exact (hlockstep 1 hquiet).1.symm.trans hexecuted
  have hone : (first.trace 2).countP (·.Draws) = 1 := by
    rw [htrace]
    simp [StepRecord.Draws, hworked, hanswer]
  rw [hdraws, Script.taken_after, hcount, hone]
end Engine
end FacilityIsa
