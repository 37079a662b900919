import FacilityIsa.Proofs.FaultCauses
import FacilityIsa.Proofs.ProgramStart
import FacilityIsa.Proofs.Sessions

/-!
# Fetches inside the program succeed

A program range that contains an address is one of a load that placed a word, so
the text base is a multiple of four and each multiple of four in the range lies
in a mapped segment. From such a text base the program counter only moves to
multiples of four. So a run never fails to fetch, and where it stops for an
address this is the address of a load or a store.
-/

namespace FacilityIsa
namespace Engine

variable {ρ ω : Type} {engine after : Engine ρ ω}

/-- What makes every fetch inside the program succeed. A text base that is no
multiple of four is admitted, as the program range is empty then. -/
structure Fetchable (engine : Engine ρ ω) : Prop where
  isAligned_pc : Word.IsAligned engine.machine.config.textBase → Word.IsAligned engine.machine.pc
  isAligned_textBase : ∀ address, engine.program.contains address = true →
    Word.IsAligned engine.machine.config.textBase
  mapped : ∀ address, engine.program.contains address = true → Word.IsAligned address →
    ∃ segment, engine.machine.memory.segmentAt address = some segment

theorem fetchable_new (config : MachineConfig) (draws : ρ) (output : ω) :
    (new config draws output).Fetchable := by
  have hempty : ∀ address, (new config draws output).program.contains address = true → False := by
    intro address hin
    obtain ⟨hfirst, hstop⟩ := ProgramRange.contains_iff.1 hin
    exact BitVec.not_lt.2 hfirst hstop
  refine ⟨?_, ?_, ?_⟩
  · intro haligned
    exact haligned
  · intro address hin
    exact (hempty address hin).elim
  · intro address hin
    exact (hempty address hin).elim

namespace Fetchable

theorem segmentAt_pc (h : engine.Fetchable) (hin : engine.inProgram = true) :
    Word.IsAligned engine.context.pc ∧
      ∃ segment, engine.machine.memory.segmentAt engine.context.pc = some segment := by
  have haligned := h.isAligned_pc (h.isAligned_textBase _ hin)
  exact ⟨haligned, h.mapped _ hin haligned⟩

theorem of_same (h : engine.Fetchable)
    (hconfig : after.machine.config = engine.machine.config)
    (hsegments : after.machine.memory.segments = engine.machine.memory.segments)
    (hprogram : after.program = engine.program)
    (hpc : Word.IsAligned engine.machine.config.textBase → Word.IsAligned after.machine.pc) :
    after.Fetchable := by
  refine ⟨?_, ?_, ?_⟩
  · rw [hconfig]
    exact hpc
  · rw [hconfig, hprogram]
    exact h.isAligned_textBase
  · intro address hin haligned
    rw [hprogram] at hin
    obtain ⟨segment, hmapped⟩ := h.mapped address hin haligned
    refine ⟨segment, ?_⟩
    rw [Memory.segmentAt, hsegments]
    exact hmapped

theorem of_effects (h : engine.Fetchable) (heffects : engine.machine.Effects after.machine)
    (hprogram : after.program = engine.program) : after.Fetchable :=
  h.of_same heffects.config_eq heffects.segments_eq hprogram fun hbase =>
    heffects.isAligned_pc (h.isAligned_pc hbase)

end Fetchable

/-- A program that was placed has its range in mapped segments, even if its end
wrapped. -/
theorem Fetchable.load (h : engine.Fetchable) (words : List Word) :
    (engine.load words).after.Fetchable := by
  have hconfig := engine.config_load words
  have hsegments := engine.segments_load words
  have hpc : Word.IsAligned engine.machine.config.textBase →
      Word.IsAligned (engine.load words).after.machine.pc := by
    rw [pc_load]
    exact id
  cases hload : (engine.machine.reset.loadProgram words).answer with
  | error error => exact h.of_same hconfig hsegments (program_load_of_error hload) hpc
  | ok stop =>
    have hplaced : ∀ address, (engine.load words).after.program.contains address = true →
        Word.IsAligned engine.machine.config.textBase ∧ (Word.IsAligned address →
          ∃ segment, engine.machine.memory.segmentAt address = some segment) := by
      intro address hin
      rw [program_load_of_ok hload] at hin
      obtain ⟨hfirst, hstop⟩ := ProgramRange.contains_iff.1 hin
      have hreset := Machine.mapped_of_loadProgram hload hfirst hstop
      exact hreset
    refine ⟨?_, ?_, ?_⟩
    · rw [hconfig]
      exact hpc
    · intro address hin
      rw [hconfig]
      exact (hplaced address hin).1
    · intro address hin haligned
      obtain ⟨segment, hmapped⟩ := (hplaced address hin).2 haligned
      refine ⟨segment, ?_⟩
      rw [Memory.segmentAt, hsegments]
      exact hmapped

variable [DrawSource ρ] [LineSink ω]

theorem Fetchable.act (h : engine.Fetchable) {action : HostAction}
    (haction : action.MovesAligned) : (engine.act action).Fetchable := by
  have hconfig := engine.config_act action
  have hsegments := engine.segments_act action
  cases action with
  | load words => exact h.load words
  | loadProgram words =>
    refine h.of_same hconfig hsegments rfl ?_
    intro hbase
    change Word.IsAligned (engine.machine.loadProgram words).after.pc
    cases hload : (engine.machine.loadProgram words).answer with
    | ok stop =>
      rw [(Machine.loadProgram_eq_ok hload).2.1]
      exact hbase
    | error error =>
      rw [Machine.pc_loadProgram_of_error hload]
      exact h.isAligned_pc hbase
  | reset => exact h.of_same hconfig hsegments rfl id
  | setPc | jump => exact h.of_same hconfig hsegments rfl fun _ => haction
  | _ =>
    refine h.of_effects (effects_act ?_ engine) (program_act ?_ engine)
    · exact trivial
    · exact nofun

theorem fetchable_session (config : MachineConfig) (draws : ρ) (output : ω)
    {actions : List HostAction} (hactions : ∀ action ∈ actions, action.MovesAligned) :
    ((new config draws output).session actions).Fetchable := by
  refine session_preserves ?_ (fetchable_new config draws output)
  intro action haction engine h
  exact h.act (hactions action haction)

/-- In a run after any session in which the host moved the program counter to
multiples of four only, every fetch succeeds, and every address fault is one of a
fetched load or store. -/
theorem run_fetches (config : MachineConfig) (draws : ρ) (output : ω)
    (actions : List HostAction) (hactions : ∀ action ∈ actions, action.MovesAligned) :
    let engine := (new config draws output).session actions
    (∀ count reached, engine.Completes count reached → reached.inProgram = true →
        Word.IsAligned reached.context.pc ∧
          (∃ segment, reached.machine.memory.segmentAt reached.context.pc = some segment) ∧
            ∃ word, reached.machine.readWord reached.context.pc = .ok word) ∧
      ∀ limit error, (engine.run limit).1.stop = .fault (.address error) →
        ∃ before word instruction,
          engine.Completes (engine.run limit).1.steps before ∧ before.inProgram = true ∧
            before.step = ⟨.error (.address error), (engine.run limit).2⟩ ∧
              before.machine.readWord before.context.pc = .ok word ∧
                Catalog.full.find? word = some instruction ∧
                  (instruction = .lw ∨ instruction = .sw) ∧
                    (before.context.setPc (Word.next before.context.pc)).Refuses word instruction
                      (.address error) := by
  intro engine
  have hfetch : ∀ count reached, engine.Completes count reached → reached.inProgram = true →
      Word.IsAligned reached.context.pc ∧
        (∃ segment, reached.machine.memory.segmentAt reached.context.pc = some segment) ∧
          ∃ word, reached.machine.readWord reached.context.pc = .ok word := by
    intro count reached hcompletes hin
    have hreached := (fetchable_session config draws output hactions).of_effects
      hcompletes.effects hcompletes.program_eq
    obtain ⟨haligned, segment, hmapped⟩ := hreached.segmentAt_pc hin
    exact ⟨haligned, ⟨segment, hmapped⟩, _, Memory.read_eq_ok haligned hmapped⟩
  refine ⟨hfetch, ?_⟩
  intro limit error hstop
  obtain ⟨before, -, hcompletes, hin, hstep⟩ := (engine.run_outcome limit).exists_failed_step hstop
  obtain ⟨-, -, word, hread⟩ := hfetch _ before hcompletes hin
  have hanswer : (Catalog.full.step before.context).answer = .error (.address error) :=
    congrArg Attempt.answer hstep
  rw [Catalog.step_of_fetched hread, Catalog.answer_execute_eq_error_iff] at hanswer
  obtain ⟨-, hfault⟩ | ⟨instruction, hfind, hrefuses⟩ := hanswer
  · exact nomatch hfault
  · exact ⟨before, word, instruction, hcompletes, hin, hstep, hread, hfind, hrefuses.lw_or_sw,
      hrefuses⟩

/-- After a load and a jump to its first word, a run fetches an unaligned `lw`. -/
theorem run_fetches_of_unaligned_load :
    let actions : List HostAction := [.load [0x8C080001], .jump 0x00400000]
    let engine := (new {} ({ values := [3] } : Script) ({} : Transcript)).session actions
    (∀ action ∈ actions, action.MovesAligned) ∧
      engine.machine.readWord engine.context.pc = .ok 0x8C080001 ∧
        (engine.run 5).1.stop = .fault (.address (.unaligned 1)) ∧
          ∃ before word instruction,
            engine.Completes (engine.run 5).1.steps before ∧ before.inProgram = true ∧
              before.step = ⟨.error (.address (.unaligned 1)), (engine.run 5).2⟩ ∧
                before.machine.readWord before.context.pc = .ok word ∧
                  Catalog.full.find? word = some instruction ∧
                    (instruction = .lw ∨ instruction = .sw) ∧
                      (before.context.setPc (Word.next before.context.pc)).Refuses word instruction
                        (.address (.unaligned 1)) := by
  intro actions engine
  have hactions : ∀ action ∈ actions, action.MovesAligned := by
    intro action haction
    rcases List.mem_cons.1 haction with rfl | hjump
    · exact trivial
    · rw [List.mem_singleton.1 hjump]
      change Word.IsAligned 0x00400000
      decide
  obtain ⟨hfetch, hfault⟩ :=
    run_fetches {} ({ values := [3] } : Script) ({} : Transcript) actions hactions
  have hin : engine.inProgram = true := by decide
  have hread : engine.machine.readWord engine.context.pc = .ok 0x8C080001 := by
    obtain ⟨haligned, ⟨segment, hmapped⟩, -⟩ := hfetch 0 engine (.refl engine) hin
    exact Memory.read_store haligned hmapped
  have hfind : Catalog.full.find? 0x8C080001 = some .lw := by decide
  have haddress : (engine.context.setPc (Word.next engine.context.pc)).dataAddress 0x8C080001 =
      1 := by decide
  have hrefuses : (engine.context.setPc (Word.next engine.context.pc)).Refuses 0x8C080001 .lw
      (.address (.unaligned 1)) := by
    rw [← haddress]
    exact .unaligned (.inl rfl) (by rw [haddress]; decide)
  have hanswer : engine.step.answer = .error (.address (.unaligned 1)) := by
    change (Catalog.full.step engine.context).answer = _
    rw [Catalog.step_of_fetched hread, Catalog.answer_execute_eq_error_iff]
    exact .inr ⟨.lw, hfind, hrefuses⟩
  have hstep : engine.step = ⟨.error (.address (.unaligned 1)), engine.step.after⟩ := by
    rw [← hanswer]
  have hstop : (engine.run 5).1.stop = .fault (.address (.unaligned 1)) := by
    rw [run_succ_of_error hin hstep 4]
  exact ⟨hactions, hread, hstop, hfault 5 _ hstop⟩

end Engine
end FacilityIsa
