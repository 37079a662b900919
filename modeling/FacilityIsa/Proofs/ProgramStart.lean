import FacilityIsa.Proofs.Placement
import FacilityIsa.Proofs.Runs
import Mathlib.Tactic.ByContra

/-!
# Where a loaded program starts and ends

A load succeeds when each word has an accessible address. It leaves the program
counter at the text base, and the program range reaches from there to the
address after the last word. That address wraps: a program whose last word is
the last one of memory ends at address zero, and no address is between its start
and its end. So a program is covered by its range, and runs, just if it ends
before the last address.
-/

namespace FacilityIsa
namespace Engine

variable {ρ ω : Type} {engine : Engine ρ ω} {words : List Word}

theorem answer_load_eq_ok_iff :
    (engine.load words).answer = .ok () ↔
      (engine.machine.reset.loadProgram words).answer =
        .ok (Word.ahead engine.machine.config.textBase words.length) := by
  rw [answer_load]
  cases hanswer : (engine.machine.reset.loadProgram words).answer with
  | error error => simp only [Except.map, reduceCtorEq]
  | ok stop =>
    obtain ⟨hstop, -, -⟩ := Machine.loadProgram_eq_ok hanswer
    simp only [Except.map, hstop, Machine.config_reset]

theorem load_eq_ok_iff_access :
    (engine.load words).answer = .ok () ↔
      ∀ index < words.length, ∃ segment, engine.machine.memory.access
        (Word.ahead engine.machine.config.textBase index) = .ok segment := by
  rw [answer_load_eq_ok_iff, Machine.loadProgram_eq_ok_iff, Memory.place_eq_ok_iff]
  exact and_iff_right rfl

theorem pc_load (engine : Engine ρ ω) (words : List Word) :
    (engine.load words).after.machine.pc = engine.machine.config.textBase := by
  rw [machine_load]
  cases hload : (engine.machine.reset.loadProgram words).answer with
  | ok stop => exact (Machine.loadProgram_eq_ok hload).2.1
  | error error =>
    rw [Machine.pc_loadProgram_of_error hload]
    rfl

theorem program_load (hload : (engine.load words).answer = .ok ()) :
    (engine.load words).after.program =
      ⟨engine.machine.config.textBase,
        Word.ahead engine.machine.config.textBase words.length⟩ :=
  program_load_of_ok (answer_load_eq_ok_iff.1 hload)

theorem isAligned_textBase_of_load (hload : (engine.load words).answer = .ok ())
    (hwords : words ≠ []) : Word.IsAligned engine.machine.config.textBase := by
  obtain ⟨segment, haccess⟩ :=
    load_eq_ok_iff_access.1 hload 0 (List.length_pos_iff.2 hwords)
  rw [Word.ahead_zero] at haccess
  exact (Memory.access_eq_ok_iff.1 haccess).1

/-- The program counter is inside the program just if the end did not wrap to the text
base or below. -/
theorem inProgram_load (hload : (engine.load words).answer = .ok ()) :
    (engine.load words).after.inProgram = true ↔
      engine.machine.config.textBase.toNat <
        (engine.machine.config.textBase.toNat + 4 * words.length) % 2 ^ 32 := by
  have hpc : (engine.load words).after.context.pc = engine.machine.config.textBase :=
    pc_load engine words
  rw [inProgram, hpc, program_load hload, ProgramRange.contains_iff, BitVec.lt_def,
    Word.toNat_ahead]
  exact and_iff_right (BitVec.le_refl _)

end Engine

/-- The range of some words covers all their addresses just if it ends before the
last address. -/
theorem ProgramRange.contains_ahead_iff {base : Address} (hbase : Word.IsAligned base)
    (count : Nat) :
    (∀ index < count, (ProgramRange.mk base (Word.ahead base count)).contains
        (Word.ahead base index) = true) ↔
      count = 0 ∨ base.toNat + 4 * count < 2 ^ 32 := by
  simp only [contains_iff, BitVec.le_def, BitVec.lt_def, Word.toNat_ahead]
  constructor
  · intro hcovers
    by_contra hlong
    have hbelow := base.isLt
    rw [Word.IsAligned] at hbase
    have hlast := hcovers ((2 ^ 32 - 4 - base.toNat) / 4) (by omega)
    omega
  · rintro (rfl | hfits) index hindex
    · exact absurd hindex (Nat.not_lt_zero index)
    · rw [Nat.mod_eq_of_lt hfits, Nat.mod_eq_of_lt (by omega)]
      omega

namespace Engine

variable {ρ ω : Type} [DrawSource ρ] [LineSink ω] {engine : Engine ρ ω} {words : List Word}

theorem run_takes_step {limit : Nat} (hlimit : 0 < limit)
    (hin : engine.inProgram = true) :
    (∃ instruction, engine.step.answer = .ok instruction ∧ 0 < (engine.run limit).1.steps) ∨
      ∃ fault, engine.step.answer = .error fault ∧
        engine.run limit = (⟨0, .fault fault⟩, engine.step.after) := by
  obtain ⟨limit, rfl⟩ := Nat.exists_eq_add_one_of_ne_zero (Nat.ne_of_gt hlimit)
  cases hanswer : engine.step.answer with
  | ok instruction =>
    have hstep : engine.step = ⟨.ok instruction, engine.step.after⟩ := by rw [← hanswer]
    rw [run_succ_of_ok hin hstep]
    exact .inl ⟨instruction, rfl, Nat.succ_pos _⟩
  | error fault =>
    have hstep : engine.step = ⟨.error fault, engine.step.after⟩ := by rw [← hanswer]
    exact .inr ⟨fault, rfl, run_succ_of_error hin hstep limit⟩

/-- A program that was loaded is covered by its range just if it ends before the last
address, and then a run executes the instruction at the text base. A run ends at once
if the end of the program wrapped to the text base or below. -/
theorem loaded_program_runs_iff (engine : Engine ρ ω) (words : List Word)
    (hload : (engine.load words).answer = .ok ()) (hwords : words ≠ []) :
    let base := engine.machine.config.textBase
    let loaded := (engine.load words).after
    loaded.context.pc = base ∧
      ((∀ index < words.length, loaded.program.contains (Word.ahead base index) = true) ↔
        base.toNat + 4 * words.length < 2 ^ 32) ∧
      ∀ limit, 0 < limit →
        ((loaded.run limit).1 = ⟨0, .endOfProgram⟩ ↔
          (base.toNat + 4 * words.length) % 2 ^ 32 ≤ base.toNat) ∧
        (base.toNat < (base.toNat + 4 * words.length) % 2 ^ 32 →
          (∃ instruction, loaded.step.answer = .ok instruction ∧
              0 < (loaded.run limit).1.steps) ∨
            ∃ fault, loaded.step.answer = .error fault ∧
              loaded.run limit = (⟨0, .fault fault⟩, loaded.step.after)) := by
  intro base loaded
  have hlength : words.length ≠ 0 := fun h => hwords (List.length_eq_zero_iff.1 h)
  refine ⟨pc_load engine words, ?_, ?_⟩
  · have hbase := isAligned_textBase_of_load hload hwords
    rw [program_load hload, ProgramRange.contains_ahead_iff hbase]
    exact or_iff_right hlength
  · intro limit hlimit
    refine ⟨?_, ?_⟩
    · rw [← Nat.not_lt, ← inProgram_load hload, Bool.not_eq_true]
      constructor
      · intro hends
        by_contra hin
        rcases run_takes_step hlimit (Bool.ne_false_iff.1 hin) with
          ⟨instruction, -, hsteps⟩ | ⟨fault, -, hrun⟩
        · rw [hends] at hsteps
          exact absurd hsteps (Nat.lt_irrefl 0)
        · rw [hrun] at hends
          exact nomatch hends
      · intro hout
        rw [run_outside hout]
    · intro hstarts
      exact run_takes_step hlimit ((inProgram_load hload).2 hstarts)

/-- A load of a jump to itself, which fits, and a run that executes it. -/
theorem loaded_program_runs_of_jump_to_itself :
    let engine := Engine.new {} ({ values := [3] } : Script) ({} : Transcript)
    let loaded := (engine.load [0x08100000]).after
    (engine.load [0x08100000]).answer = .ok () ∧
      loaded.program.contains 0x00400000 = true ∧ (loaded.run 1).1 ≠ ⟨0, .endOfProgram⟩ := by
  intro engine loaded
  have hload : (engine.load [0x08100000]).answer = .ok () := by
    rw [load_eq_ok_iff_access]
    intro index hindex
    obtain rfl := Nat.lt_one_iff.1 hindex
    exact ⟨Segment.text, Memory.access_eq_ok_iff.2 ⟨by decide, rfl⟩⟩
  obtain ⟨-, hcovers, hrun⟩ := loaded_program_runs_iff engine [0x08100000] hload nofun
  refine ⟨hload, hcovers.2 (by decide) 0 (by decide), ?_⟩
  intro hends
  exact absurd ((hrun 1 (by decide)).1.1 hends) (by decide)

/-- A program at the last word of memory is loaded, but its range is empty and a run
ends before its first instruction. -/
theorem run_ends_at_once_of_last_word :
    let config : MachineConfig :=
      { textBase := 0xFFFFFFFC
        regions := [{ start := 0xFFFFFFF0, stop := 0xFFFFFFFF, segment := Segment.text }] }
    let engine := Engine.new config ({ values := [3] } : Script) ({} : Transcript)
    let loaded := (engine.load [0x20090001]).after
    (engine.load [0x20090001]).answer = .ok () ∧
      loaded.context.pc = 0xFFFFFFFC ∧ loaded.program.contains 0xFFFFFFFC = false ∧
        loaded.run 1 = (⟨0, .endOfProgram⟩, loaded) := by
  intro config engine loaded
  have hload : (engine.load [0x20090001]).answer = .ok () := by
    rw [load_eq_ok_iff_access]
    intro index hindex
    obtain rfl := Nat.lt_one_iff.1 hindex
    exact ⟨Segment.text, Memory.access_eq_ok_iff.2 ⟨by decide, rfl⟩⟩
  have hpc : loaded.context.pc = 0xFFFFFFFC := pc_load engine _
  have hout : loaded.inProgram = false := by
    rw [← Bool.not_eq_true, inProgram_load hload]
    decide
  have hcontains : loaded.program.contains 0xFFFFFFFC = false := by
    rw [inProgram, hpc] at hout
    exact hout
  exact ⟨hload, hpc, hcontains, run_outside hout 1⟩

end Engine
end FacilityIsa
