import FacilityIsa.CommandLine.Reply
import FacilityIsa.Proofs.ProgramStart
import FacilityIsa.Proofs.Sessions

/-!
# Read-only text

No instruction and no host store changes a word in a read-only segment. So a
program that was loaded into read-only segments, without running past the last
address, stays what it is until the next load or reset, and each step at one of
its words executes this word as it was decoded and listed before the run.
-/

namespace FacilityIsa

/-- A segment that no store may change covers the address. -/
def Memory.IsReadOnly (memory : Memory) (address : Address) : Prop :=
  ∃ segment, memory.segmentAt address = some segment ∧ segment.writable = false

/-- Memory has a word at an address where no store may change it. -/
structure Memory.Fixes (memory : Memory) (address : Address) (word : Word) : Prop where
  isAligned : Word.IsAligned address
  isReadOnly : memory.IsReadOnly address
  wordAt_eq : memory.wordAt address = word

namespace Machine

variable {before after : Machine} {address : Address} {word : Word}

theorem readWord_of_fixes (h : before.memory.Fixes address word) :
    before.readWord address = .ok word := by
  obtain ⟨segment, hmapped, -⟩ := h.isReadOnly
  rw [readWord, Memory.read_eq_ok h.isAligned hmapped, h.wordAt_eq]

theorem Effect.fixes (h : Effect before after) (hbefore : before.memory.Fixes address word) :
    after.memory.Fixes address word := by
  cases h with
  | @writeWord _ stored _ hwrite =>
    obtain ⟨⟨segment, haccess, hwritable⟩, rfl⟩ := (writeWord_eq_ok_iff _).1 hwrite
    obtain ⟨fixed, hmapped, hreadOnly⟩ := hbefore.isReadOnly
    have hne : address ≠ stored := by
      rintro rfl
      have hsame := hmapped.symm.trans (Memory.access_eq_ok_iff.1 haccess).2
      rw [Option.some.injEq] at hsame
      rw [hsame, hwritable] at hreadOnly
      exact nomatch hreadOnly
    refine ⟨hbefore.isAligned, ⟨fixed, hmapped, hreadOnly⟩, ?_⟩
    rw [Memory.wordAt_store, if_neg hne]
    exact hbefore.wordAt_eq
  | setRegister | branch | jump => exact hbefore

theorem Effects.fixes (h : Effects before after) (hbefore : before.memory.Fixes address word) :
    after.memory.Fixes address word :=
  h.preserves Effect.fixes hbefore

/-- A program that was placed in read-only segments, with no word past the last
address, is fixed there. -/
theorem fixes_loadProgram {machine : Machine} {words : List Word} {stop : Address}
    (h : (machine.loadProgram words).answer = .ok stop)
    (hfits : machine.config.textBase.toNat + 4 * words.length ≤ 2 ^ 32)
    {index : Nat} (hindex : index < words.length)
    (hreadOnly : machine.memory.IsReadOnly (Word.ahead machine.config.textBase index)) :
    (machine.loadProgram words).after.memory.Fixes (Word.ahead machine.config.textBase index)
      words[index] := by
  obtain ⟨-, -, hplaced⟩ := loadProgram_eq_ok h
  obtain ⟨segment, haccess⟩ := hplaced index hindex
  refine ⟨(Memory.access_eq_ok_iff.1 haccess).1, ?_, ?_⟩
  · rw [Memory.IsReadOnly, Memory.segmentAt, segments_loadProgram]
    exact hreadOnly
  · rw [memory_loadProgram]
    exact Memory.wordAt_place (loadProgram_eq_ok_iff.1 h) (by omega) hindex

end Machine

/-- The action leaves a program in memory: it neither loads another nor resets. -/
def HostAction.KeepsProgram : HostAction → Prop
  | .load _ | .loadProgram _ | .reset => False
  | _ => True

namespace Catalog

variable {ρ ω : Type} [DrawSource ρ] [LineSink ω] {catalog : Catalog} {word : Word}
  {context : Context ρ ω}

theorem execute_of_decode_eq_ok {decoded : DecodedWord} (h : catalog.decode word = .ok decoded) :
    catalog.execute word context =
      (decoded.instruction.perform decoded.operands context).map fun _ => decoded.instruction := by
  unfold decode at h
  split at h
  · next hfind =>
    cases h
    exact execute_of_find?_eq_some hfind
  · exact nomatch h

theorem execute_of_decode_eq_error {error : UndefinedInstruction}
    (h : catalog.decode word = .error error) :
    catalog.execute word context = .failed (.undefined error) context := by
  unfold decode at h
  split at h
  · exact nomatch h
  · next hfind =>
    cases h
    exact execute_of_find?_eq_none hfind

end Catalog

namespace CommandLine

theorem getElem?_disassembly (address : Address) (words : List Word) (index : Nat) :
    (disassembly address words)[index]? =
      words[index]?.map (disassemblyLine (Word.ahead address index)) := by
  induction words generalizing address index with
  | nil => rfl
  | cons word words ih =>
    rw [disassembly]
    cases index with
    | zero => rw [Word.ahead_zero]; rfl
    | succ index =>
      rw [List.getElem?_cons_succ, List.getElem?_cons_succ, ih, Word.ahead_next]

end CommandLine

namespace Engine

variable {ρ ω : Type} {engine : Engine ρ ω} {address : Address} {word : Word}

theorem fixes_load {words : List Word} (hload : (engine.load words).answer = .ok ())
    (hfits : engine.machine.config.textBase.toNat + 4 * words.length ≤ 2 ^ 32)
    {index : Nat} (hindex : index < words.length)
    (hreadOnly : engine.machine.memory.IsReadOnly
      (Word.ahead engine.machine.config.textBase index)) :
    (engine.load words).after.machine.memory.Fixes
      (Word.ahead engine.machine.config.textBase index) words[index] := by
  rw [machine_load]
  exact Machine.fixes_loadProgram (answer_load_eq_ok_iff.1 hload) hfits hindex hreadOnly

variable [DrawSource ρ] [LineSink ω]

theorem fixes_act {action : HostAction} (haction : action.KeepsProgram)
    (h : engine.machine.memory.Fixes address word) :
    (engine.act action).machine.memory.Fixes address word := by
  cases action with
  | load | loadProgram | reset => exact haction.elim
  | setPc | jump => exact h
  | _ =>
    refine (effects_act ?_ engine).fixes h
    exact trivial

theorem fixes_session {actions : List HostAction}
    (hactions : ∀ action ∈ actions, action.KeepsProgram)
    (h : engine.machine.memory.Fixes address word) :
    (engine.session actions).machine.memory.Fixes address word := by
  have hact : ∀ action ∈ actions, ∀ engine : Engine ρ ω,
      engine.machine.memory.Fixes address word →
        (engine.act action).machine.memory.Fixes address word := by
    intro action haction engine hengine
    exact fixes_act (hactions action haction) hengine
  exact session_preserves hact h

theorem step_of_fixes (h : engine.machine.memory.Fixes engine.context.pc word) :
    engine.step =
      let executed :=
        Catalog.full.execute word (engine.context.setPc (Word.next engine.context.pc))
      ⟨executed.answer, ⟨executed.after, engine.program⟩⟩ := by
  rw [step, Catalog.step_of_fetched (Machine.readWord_of_fixes h)]

/-- No run changes a word in a read-only segment. And whatever the host does after it
loaded a program into read-only segments, short of a load or a reset, each step of a
later run at the address of a word executes the instruction listed for this word. -/
theorem read_only_text_runs_as_listed (engine : Engine ρ ω) :
    (∀ limit address, Word.IsAligned address → engine.machine.memory.IsReadOnly address →
        ∃ word, engine.machine.readWord address = .ok word ∧
          (engine.run limit).2.machine.readWord address = .ok word) ∧
      ∀ (words : List Word) (actions : List HostAction),
        let base := engine.machine.config.textBase
        let loaded := engine.load words
        loaded.answer = .ok () →
        base.toNat + 4 * words.length ≤ 2 ^ 32 →
        (∀ index < words.length, engine.machine.memory.IsReadOnly (Word.ahead base index)) →
        (∀ action ∈ actions, action.KeepsProgram) →
        ∀ count reached, (loaded.after.session actions).Completes count reached →
          ∀ (index : Nat) (hindex : index < words.length),
            reached.context.pc = Word.ahead base index →
            let next := reached.context.setPc (Word.next reached.context.pc)
            let shown (text : String) := ∀ start,
              (CommandLine.disassembly start words)[index]? =
                some ((Word.ahead start index).toHex ++ "  " ++ words[index].toHex ++ "  " ++ text)
            (∀ decoded, Catalog.full.decode words[index] = .ok decoded →
              let performed := decoded.instruction.perform decoded.operands next
              shown decoded.text ∧
                reached.step = ⟨performed.answer.map fun _ => decoded.instruction,
                  ⟨performed.after, reached.program⟩⟩) ∧
              ∀ error, Catalog.full.decode words[index] = .error error →
                shown ("<" ++ error.message ++ ">") ∧
                  reached.step = ⟨.error (.undefined error), ⟨next, reached.program⟩⟩ := by
  constructor
  · intro limit address haligned hreadOnly
    have hbefore : engine.machine.memory.Fixes address (engine.machine.memory.wordAt address) :=
      ⟨haligned, hreadOnly, rfl⟩
    have hafter := (engine.run_outcome limit).effects.fixes hbefore
    exact ⟨_, Machine.readWord_of_fixes hbefore, Machine.readWord_of_fixes hafter⟩
  · intro words actions base loaded hload hfits hreadOnly hactions count reached hcompletes
      index hindex hpc next shown
    have hloaded := fixes_load hload hfits hindex (hreadOnly index hindex)
    have hreached : reached.machine.memory.Fixes reached.context.pc words[index] := by
      rw [hpc]
      exact hcompletes.effects.fixes (fixes_session hactions hloaded)
    have hstep := step_of_fixes hreached
    have hline : ∀ start, (CommandLine.disassembly start words)[index]? =
        some (CommandLine.disassemblyLine (Word.ahead start index) words[index]) := by
      intro start
      rw [CommandLine.getElem?_disassembly, List.getElem?_eq_getElem hindex, Option.map_some]
    constructor
    · intro decoded hdecode performed
      refine ⟨?_, ?_⟩
      · intro start
        rw [hline, CommandLine.disassemblyLine, hdecode]
      · rw [hstep, Catalog.execute_of_decode_eq_ok hdecode]
        rfl
    · intro error hdecode
      refine ⟨?_, ?_⟩
      · intro start
        rw [hline, CommandLine.disassemblyLine, hdecode]
      · rw [hstep, Catalog.execute_of_decode_eq_error hdecode]
        rfl

/-- A store into the text is refused, and the jump that was loaded there is executed. -/
theorem read_only_text_runs_as_listed_after_refused_store :
    let engine := Engine.new {} ({ values := [3] } : Script) ({} : Transcript)
    let words : List Word := [0x2009FFFF, 0x08100000]
    let actions : List HostAction :=
      [.setRegister 9 5, .writeWord 0x00400004 0, .jump 0x00400004]
    let reached := (engine.load words).after.session actions
    let performed := Instruction.j.perform (.jump (JumpFields.decode 0x08100000))
      (reached.context.setPc 0x00400008)
    (engine.load words).answer = .ok () ∧
      (∀ action ∈ actions, action.KeepsProgram) ∧
        reached.context.pc = 0x00400004 ∧
          (∃ word, reached.machine.readWord 0x00400000 = .ok word ∧
            (reached.run 7).2.machine.readWord 0x00400000 = .ok word) ∧
            (CommandLine.disassembly 0x00400000 words)[1]? =
                some (Word.toHex 0x00400004 ++ "  " ++ Word.toHex 0x08100000 ++ "  " ++
                  (Instruction.j.decode 0x08100000).text) ∧
              reached.step =
                ⟨performed.answer.map fun _ => .j, ⟨performed.after, reached.program⟩⟩ := by
  intro engine words actions reached performed
  have hactions : ∀ action ∈ actions, action.KeepsProgram := by
    intro action haction
    simp only [actions, List.mem_cons, List.not_mem_nil, or_false] at haction
    rcases haction with rfl | rfl | rfl <;> exact trivial
  have hreadOnly : ∀ index < words.length,
      engine.machine.memory.IsReadOnly (Word.ahead engine.machine.config.textBase index) := by
    intro index hindex
    have hcases : index = 0 ∨ index = 1 := by
      have hlength : words.length = 2 := rfl
      omega
    rcases hcases with rfl | rfl <;> exact ⟨Segment.text, rfl, rfl⟩
  have hload : (engine.load words).answer = .ok () := by
    rw [load_eq_ok_iff_access]
    intro index hindex
    obtain ⟨segment, hmapped, -⟩ := hreadOnly index hindex
    exact ⟨segment, Memory.access_eq_ok_iff.2 ⟨Word.isAligned_ahead (by decide) index, hmapped⟩⟩
  have hpc : reached.context.pc = 0x00400004 := by decide
  have hfirst := fixes_session hactions
    (fixes_load hload (by decide) (show 0 < words.length by decide) (hreadOnly 0 (by decide)))
  have hrun := (read_only_text_runs_as_listed reached).1 7 0x00400000 (by decide) hfirst.isReadOnly
  have hlisted := (read_only_text_runs_as_listed engine).2 words actions hload (by decide)
    hreadOnly hactions 0 reached (.refl reached) 1 (by decide) hpc
  have hfind : Catalog.full.find? 0x08100000 = some .j := by decide
  have hdecode : Catalog.full.decode 0x08100000 = .ok (Instruction.j.decode 0x08100000) := by
    simp only [Catalog.decode, hfind]
  obtain ⟨hshown, hstep⟩ := hlisted.1 (Instruction.j.decode 0x08100000) hdecode
  exact ⟨hload, hactions, hpc, hrun, hshown 0x00400000, hstep⟩

end Engine
end FacilityIsa
