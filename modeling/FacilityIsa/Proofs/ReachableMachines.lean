import FacilityIsa.Proofs.MemoryHistory
import FacilityIsa.Proofs.Sessions

/-!
# Machines that a session reaches

A machine is tidy if `$zero` reads zero and its memory keeps only words other than zero, at
addresses where it can be accessed. Every change that an instruction makes keeps it so, as
do a reset and the words that a load placed before it failed. With the configuration, the
segments and the start of the program, which nothing changes, this holds of every engine
that a host can reach.
-/

namespace FacilityIsa

structure Machine.IsTidy (machine : Machine) : Prop where
  register_zero : machine.register Register.zero = 0
  memory : machine.memory.IsTidy

theorem Memory.IsTidy.place {memory : Memory} (h : memory.IsTidy) (address : Address)
    (words : List Word) : (memory.place address words).after.IsTidy := by
  fun_induction Memory.place memory address words with
  | case1 => exact h
  | case2 memory address word words segment haccess ih => exact ih (h.store haccess word)
  | case3 => exact h

namespace Machine

variable {machine before after : Machine}

theorem isTidy_reset (machine : Machine) : machine.reset.IsTidy where
  register_zero := by
    change ((RegisterFile.cleared.write _ _).write _ _).read Register.zero = 0
    simp [RegisterFile.read_write, Register.zero, Register.globalPointer, Register.stackPointer]
  memory := Memory.isTidy_blank machine.memory.segments

theorem isTidy_new (config : MachineConfig) : (new config).IsTidy :=
  isTidy_reset _

theorem Effect.isTidy (h : Effect before after) (hbefore : before.IsTidy) : after.IsTidy := by
  cases h with
  | setRegister register value =>
    refine ⟨?_, hbefore.memory⟩
    rw [register_setRegister, if_neg]
    · exact hbefore.register_zero
    · rintro ⟨rfl, hzero⟩
      exact hzero rfl
  | writeWord hwrite =>
    obtain ⟨⟨segment, haccess, -⟩, rfl⟩ := (writeWord_eq_ok_iff _).1 hwrite
    exact ⟨hbefore.register_zero, hbefore.memory.store haccess _⟩
  | branch | jump => exact ⟨hbefore.register_zero, hbefore.memory⟩

theorem register_loadProgram (machine : Machine) (words : List Word) (register : Register) :
    (machine.loadProgram words).after.register register = machine.register register := by
  unfold loadProgram
  dsimp only
  split <;> rfl

theorem IsTidy.loadProgram (h : machine.IsTidy) (words : List Word) :
    (machine.loadProgram words).after.IsTidy where
  register_zero := by
    rw [register_loadProgram]
    exact h.register_zero
  memory := by
    rw [memory_loadProgram]
    exact h.memory.place _ _

theorem IsTidy.kept (h : machine.IsTidy) {address : Address} {word : Word}
    (hword : machine.memory.words[address]? = some word) :
    word ≠ 0 ∧ Word.IsAligned address ∧
      ∃ segment, machine.memory.segmentAt address = some segment := by
  have hmem : address ∈ machine.memory.words := by
    rw [← Std.ExtHashMap.isSome_getElem?_iff_mem, hword]
    rfl
  have hread : machine.memory.wordAt address = word := by
    rw [Memory.wordAt, Std.ExtHashMap.getD_eq_getD_getElem?, hword]
    rfl
  obtain ⟨segment, haccess⟩ := h.memory.accessible address hmem
  obtain ⟨haligned, hmapped⟩ := Memory.access_eq_ok_iff.1 haccess
  exact ⟨hread ▸ h.memory.ne_zero address hmem, haligned, segment, hmapped⟩

end Machine

namespace Engine

/-- The machine is tidy, and the program starts at the text base. -/
structure IsTidy {ρ ω : Type} (engine : Engine ρ ω) : Prop where
  machine : engine.machine.IsTidy
  first_program : engine.program.first = engine.machine.config.textBase

variable {ρ ω : Type}

theorem isTidy_new (config : MachineConfig) (draws : ρ) (output : ω) :
    (new config draws output).IsTidy :=
  ⟨Machine.isTidy_new config, rfl⟩

theorem IsTidy.load {engine : Engine ρ ω} (h : engine.IsTidy) (words : List Word) :
    (engine.load words).after.IsTidy where
  machine := by
    rw [machine_load]
    exact engine.machine.isTidy_reset.loadProgram words
  first_program := by
    rw [config_load]
    cases hload : (engine.machine.reset.loadProgram words).answer with
    | ok stop => rw [program_load_of_ok hload]
    | error error => rw [program_load_of_error hload, h.first_program]

variable [DrawSource ρ] [LineSink ω]

theorem IsTidy.act {engine : Engine ρ ω} (h : engine.IsTidy) (action : HostAction) :
    (engine.act action).IsTidy := by
  have hfirst : (∀ words, action ≠ .load words) →
      (engine.act action).program.first = (engine.act action).machine.config.textBase := by
    intro hload
    rw [program_act hload, config_act]
    exact h.first_program
  cases action with
  | load words => exact h.load words
  | loadProgram words => exact ⟨h.machine.loadProgram words, hfirst nofun⟩
  | reset => exact ⟨engine.machine.isTidy_reset, hfirst nofun⟩
  | setPc | jump =>
    exact ⟨⟨h.machine.register_zero, h.machine.memory⟩, hfirst nofun⟩
  | _ =>
    refine ⟨(effects_act ?_ engine).preserves Machine.Effect.isTidy h.machine, hfirst ?_⟩
    · exact trivial
    · exact nofun

/-- Whatever a host did with an engine and however it ended, `$zero` reads zero, memory is
mapped as it was and keeps no zero and no word where it cannot be accessed, the
configuration is the one the engine was built with, and the program starts at its text
base. -/
theorem reachable_engines_are_tidy (config : MachineConfig) (draws : ρ) (output : ω)
    (actions : List HostAction) :
    let built := new config draws output
    let engine := built.session actions
    engine.machine.register Register.zero = 0 ∧
      (∀ address,
        engine.machine.memory.segmentAt address = built.machine.memory.segmentAt address) ∧
        (∀ address word, engine.machine.memory.words[address]? = some word →
          word ≠ 0 ∧ Word.IsAligned address ∧
            ∃ segment, engine.machine.memory.segmentAt address = some segment) ∧
          engine.machine.config = config ∧ engine.program.first = config.textBase := by
  intro built engine
  have htidy : engine.IsTidy :=
    session_preserves (fun action _ _ h => h.act action) (isTidy_new config draws output)
  have hconfig : engine.machine.config = config := config_session built actions
  refine ⟨htidy.machine.register_zero, ?_, ?_, hconfig, ?_⟩
  · intro address
    rw [Memory.segmentAt, segments_session]
    rfl
  · intro address word
    exact htidy.machine.kept
  · rw [htidy.first_program, hconfig]

/-- After a load that failed at its second word the first is kept. -/
theorem reachable_engines_are_tidy_after_failed_load :
    let config : MachineConfig :=
      { regions := [{ start := 0x00400000, stop := 0x00400004, segment := Segment.text }] }
    let built := new config ({ values := [3] } : Script) ({} : Transcript)
    let engine := built.session
      [.setRegister Register.zero 7, .setPc 0x00400002, .load [0x20090001, 0x20090002]]
    engine.machine.memory.words[(0x00400000 : Address)]? = some 0x20090001 ∧
      engine.machine.register Register.zero = 0 ∧
        engine.machine.memory.segmentAt 0x00400004 = none ∧
        (∃ segment, engine.machine.memory.segmentAt 0x00400000 = some segment) ∧
        engine.program.first = 0x00400000 := by
  intro config built engine
  have hkept : engine.machine.memory.words[(0x00400000 : Address)]? = some 0x20090001 := by
    have hmemory : engine.machine.memory =
        (built.machine.memory.place 0x00400000 [0x20090001, 0x20090002]).after := by
      refine (congrArg Machine.memory (machine_load _ _)).trans ?_
      exact Machine.memory_loadProgram _ _
    have hplaced : (built.machine.memory.place 0x00400000 [0x20090001, 0x20090002]).after =
        built.machine.memory.store 0x00400000 0x20090001 := rfl
    rw [hmemory, hplaced]
    exact Std.ExtHashMap.getElem?_insert_self
  obtain ⟨hzero, hsegments, hwords, -, hfirst⟩ := reachable_engines_are_tidy config
    ({ values := [3] } : Script) ({} : Transcript)
    [.setRegister Register.zero 7, .setPc 0x00400002, .load [0x20090001, 0x20090002]]
  refine ⟨hkept, hzero, ?_, (hwords _ _ hkept).2.2, hfirst⟩
  exact (hsegments 0x00400004).trans rfl

end Engine
end FacilityIsa
