import FacilityIsa.Proofs.ProgramCounter
import FacilityIsa.Proofs.ReadOnlyText
import FacilityIsa.Proofs.SegmentBorders
import FacilityIsa.Proofs.Traces

/-!
# Programs that only lead forward

In a program without jumps whose branches do not lead back, each step takes the program
counter at least one word ahead. What is left of the program therefore bounds the number of
steps, as long as the program stays what it was loaded as, which read-only text does, and
as long as the counter does not wrap past the end, for which it needs room for one longest
branch. Without branches the counter counts the completed steps.
-/

namespace FacilityIsa

namespace Word

variable (word : Word)

def IsJump : Prop :=
  Catalog.full.find? word = some .j ∨ Catalog.full.find? word = some .jal

def IsBranch : Prop :=
  Catalog.full.find? word = some .beq ∨ Catalog.full.find? word = some .bne

/-- The word is no jump, and if it is a branch it does not lead back. -/
def LeadsForward : Prop :=
  ¬word.IsJump ∧ (word.IsBranch → 0 ≤ (word.extractLsb' 0 16).toInt)

instance : Decidable word.IsJump :=
  inferInstanceAs (Decidable (_ ∨ _))

instance : Decidable word.IsBranch :=
  inferInstanceAs (Decidable (_ ∨ _))

instance : Decidable word.LeadsForward :=
  inferInstanceAs (Decidable (_ ∧ _))

theorem exists_ahead_of_nonneg {displacement : BitVec 16} (h : 0 ≤ displacement.toInt)
    (address : Address) :
    ∃ skipped < 2 ^ 15, address + (displacement.signExtend 32) <<< 2 = ahead address skipped := by
  have hupper := BitVec.toInt_lt (x := displacement)
  obtain ⟨skipped, hskipped⟩ := Int.eq_ofNat_of_zero_le h
  refine ⟨skipped, by omega, BitVec.eq_of_toNat_eq ?_⟩
  have hsum := toNat_add_shiftLeft address (displacement.signExtend 32)
  rw [BitVec.toInt_signExtend_of_le (by decide), hskipped] at hsum
  rw [toNat_ahead]
  omega

end Word

section Steps

variable {ρ ω : Type} [DrawSource ρ] [LineSink ω] {word : Word}

theorem Catalog.exists_pc_execute (h : word.LeadsForward) (context : Context ρ ω) :
    ∃ skipped < 2 ^ 15,
      (Catalog.full.execute word context).after.pc = Word.ahead context.pc skipped ∧
        (¬word.IsBranch → skipped = 0) := by
  cases hfind : Catalog.full.find? word with
  | none =>
    rw [execute_of_find?_eq_none hfind]
    exact ⟨0, by decide, (Word.ahead_zero _).symm, fun _ => rfl⟩
  | some instruction =>
    obtain ⟨hjump, hahead⟩ := h
    rw [execute_of_find?_eq_some hfind, Attempt.after_map]
    by_cases hbranches : context.Branches word instruction
    · have hbranch : word.IsBranch := by
        cases instruction
        case beq => exact .inl hfind
        case bne => exact .inr hfind
        all_goals exact hbranches.elim
      rw [Context.pc_perform_of_branches hbranches]
      obtain ⟨skipped, hskipped, htarget⟩ :=
        Word.exists_ahead_of_nonneg (hahead hbranch) context.pc
      exact ⟨skipped, hskipped, htarget, fun hnot => absurd hbranch hnot⟩
    · have hj : instruction ≠ .j := by
        rintro rfl
        exact hjump (.inl hfind)
      have hjal : instruction ≠ .jal := by
        rintro rfl
        exact hjump (.inr hfind)
      rw [Context.pc_perform_of_not_branches hj hjal hbranches]
      exact ⟨0, by decide, (Word.ahead_zero _).symm, fun _ => rfl⟩

end Steps

namespace Engine

variable {ρ ω : Type} {engine after reached : Engine ρ ω} {words : List Word} {index : Nat}

/-- The program range covers words that lie in memory where no store changes them, and from its
end the longest branch does not wrap. -/
structure HoldsText (engine : Engine ρ ω) (words : List Word) : Prop where
  fits : engine.program.first.toNat + 4 * (words.length + 2 ^ 15) ≤ 2 ^ 32
  stop_eq : engine.program.stop = Word.ahead engine.program.first words.length
  fixed : ∀ index (hindex : index < words.length),
    engine.machine.memory.Fixes (Word.ahead engine.program.first index) words[index]

/-- The program counter is a number of words past the start of the program. -/
def IsAt (engine : Engine ρ ω) (index : Nat) : Prop :=
  engine.context.pc = Word.ahead engine.program.first index

namespace HoldsText

theorem of_effects (h : engine.HoldsText words) (heffects : engine.machine.Effects after.machine)
    (hprogram : after.program = engine.program) : after.HoldsText words := by
  constructor
  · rw [hprogram]
    exact h.fits
  · rw [hprogram]
    exact h.stop_eq
  · intro index hindex
    rw [hprogram]
    exact heffects.fixes (h.fixed index hindex)

theorem of_load (hload : (engine.load words).answer = .ok ())
    (hfits : engine.machine.config.textBase.toNat + 4 * (words.length + 2 ^ 15) ≤ 2 ^ 32)
    (hreadOnly : ∀ index < words.length, engine.machine.memory.IsReadOnly
      (Word.ahead engine.machine.config.textBase index)) :
    (engine.load words).after.HoldsText words := by
  constructor
  · rw [program_load hload]
    exact hfits
  · rw [program_load hload]
  · intro index hindex
    rw [program_load hload]
    exact fixes_load hload (by omega) hindex (hreadOnly index hindex)

theorem toNat_pc (h : engine.HoldsText words) (hat : engine.IsAt index)
    (hindex : index < words.length + 2 ^ 15) :
    engine.context.pc.toNat = engine.program.first.toNat + 4 * index := by
  have hfits := h.fits
  rw [hat, Word.toNat_ahead, Nat.mod_eq_of_lt (by omega)]

theorem inProgram_iff (h : engine.HoldsText words) (hat : engine.IsAt index)
    (hindex : index < words.length + 2 ^ 15) :
    engine.inProgram = true ↔ index < words.length := by
  have hfits := h.fits
  rw [inProgram, ProgramRange.contains_iff, BitVec.le_def, BitVec.lt_def, h.toNat_pc hat hindex,
    h.stop_eq, Word.toNat_ahead, Nat.mod_eq_of_lt (by omega)]
  omega

variable [DrawSource ρ] [LineSink ω]

theorem execute_eq_step (h : engine.HoldsText words) (hat : engine.IsAt index)
    (hindex : index < words.length) :
    Catalog.full.execute words[index]
        (engine.context.setPc (Word.ahead engine.program.first (index + 1))) =
      ⟨engine.step.answer, engine.step.after.context⟩ := by
  have hfixed := h.fixed index hindex
  rw [← hat] at hfixed
  rw [step_of_fixes hfixed, hat, Word.next_ahead]

theorem exists_isAt_step (h : engine.HoldsText words) (hat : engine.IsAt index)
    (hindex : index < words.length) (hforward : words[index].LeadsForward) :
    ∃ skipped < 2 ^ 15, engine.step.after.IsAt (index + 1 + skipped) ∧
      (¬words[index].IsBranch → skipped = 0) := by
  obtain ⟨skipped, hskipped, hpc, hbranch⟩ := Catalog.exists_pc_execute hforward
    (engine.context.setPc (Word.ahead engine.program.first (index + 1)))
  rw [h.execute_eq_step hat hindex] at hpc
  exact ⟨skipped, hskipped, hpc.trans (Word.ahead_ahead _ _ _), hbranch⟩

theorem after_step (h : engine.HoldsText words) : engine.step.after.HoldsText words :=
  h.of_effects engine.effects_step rfl

theorem after_run (h : engine.HoldsText words) (limit : Nat) :
    (engine.run limit).2.HoldsText words :=
  h.of_effects (engine.run_outcome limit).effects (engine.run_outcome limit).program_eq

theorem of_completes (h : engine.HoldsText words) {count : Nat}
    (hcompletes : engine.Completes count reached) : reached.HoldsText words :=
  h.of_effects hcompletes.effects hcompletes.program_eq

variable (h : engine.HoldsText words) (hforward : ∀ word ∈ words, word.LeadsForward)
include h hforward

theorem toNat_pc_lt_step (hat : engine.IsAt index) (hindex : index < words.length) :
    engine.context.pc.toNat < engine.step.after.context.pc.toNat := by
  obtain ⟨skipped, hskipped, hafter, -⟩ :=
    h.exists_isAt_step hat hindex (hforward _ (List.getElem_mem hindex))
  have hfirst : engine.step.after.program.first = engine.program.first := rfl
  rw [h.toNat_pc hat (by omega), h.after_step.toNat_pc hafter (by omega), hfirst]
  omega

/-- Each completed step leads at least one word ahead, and exactly one if there are no
branches. As all of them start inside the program, they are no more than the words left. -/
theorem exists_isAt_of_completes {count : Nat} (hat : engine.IsAt index)
    (hindex : index < words.length + 2 ^ 15) (hcompletes : engine.Completes count reached) :
    count ≤ words.length - index ∧
      ∃ last < words.length + 2 ^ 15, reached.IsAt last ∧ index + count ≤ last ∧
        ((∀ word ∈ words, ¬word.IsBranch) → last = index + count) := by
  -- Both bounds hold from any word on, and also from just past the end, where no step starts.
  induction hcompletes generalizing index with
  | refl engine => exact ⟨Nat.zero_le _, index, hindex, hat, Nat.le_refl _, fun _ => rfl⟩
  | @step engine next reached instruction count hin hstep hrest ih =>
    have hinside := (h.inProgram_iff hat hindex).1 hin
    have hmem := List.getElem_mem hinside
    obtain ⟨skipped, hskipped, hnext, hstays⟩ :=
      h.exists_isAt_step hat hinside (hforward _ hmem)
    have hholds := h.after_step
    rw [hstep] at hnext hholds
    obtain ⟨hcount, last, hlast, hreached, hahead, hlands⟩ := ih hholds hnext (by omega)
    refine ⟨by omega, last, hlast, hreached, by omega, ?_⟩
    intro hstraight
    rw [hlands hstraight, hstays (hstraight _ hmem), Nat.add_zero, Nat.add_right_comm,
      Nat.add_assoc]

variable {count limit : Nat} (hat : engine.IsAt 0)
include hat

theorem le_length_of_completes (hcompletes : engine.Completes count reached) :
    count ≤ words.length :=
  (h.exists_isAt_of_completes hforward hat (by omega) hcompletes).1

theorem inProgram_eq_false_of_completes (hcompletes : engine.Completes count reached)
    (hcount : words.length ≤ count) : reached.inProgram = false := by
  obtain ⟨-, last, hlast, hreached, hahead, -⟩ :=
    h.exists_isAt_of_completes hforward hat (by omega) hcompletes
  rw [← Bool.not_eq_true, (h.of_completes hcompletes).inProgram_iff hreached hlast]
  omega

theorem run_terminates (hlimit : words.length ≤ limit) :
    (engine.run limit).1.steps ≤ words.length ∧
      ((engine.run limit).1.stop = .endOfProgram ∨
        ∃ fault, (engine.run limit).1.stop = .fault fault) := by
  have houtcome := engine.run_outcome limit
  generalize engine.run limit = ran at houtcome ⊢
  obtain ⟨summary, reached⟩ := ran
  cases houtcome with
  | endOfProgram _ hcompletes _ =>
    exact ⟨h.le_length_of_completes hforward hat hcompletes, .inl rfl⟩
  | stepLimit hcompletes hin =>
    have hout := h.inProgram_eq_false_of_completes hforward hat hcompletes hlimit
    exact nomatch hin.symm.trans hout
  | fault _ hcompletes _ _ =>
    exact ⟨h.le_length_of_completes hforward hat hcompletes, .inr ⟨_, rfl⟩⟩

variable (hstraight : ∀ word ∈ words, ¬word.IsBranch)
include hstraight

theorem isAt_of_completes (hcompletes : engine.Completes count reached) :
    reached.IsAt count := by
  obtain ⟨-, last, -, hreached, -, hlands⟩ :=
    h.exists_isAt_of_completes hforward hat (by omega) hcompletes
  obtain rfl := hlands hstraight
  rwa [Nat.zero_add] at hreached

/-- Without branches a run ends at the end of the program, after a step for each word, or
past the first word that fails, after a step for each word before. -/
theorem run_straight (hlimit : words.length ≤ limit) :
    let ran := engine.run limit
    (ran.1 = ⟨words.length, .endOfProgram⟩ ∧ ran.2.IsAt words.length) ∨
      ∃ (index : Nat) (hindex : index < words.length) (before : Engine ρ ω) (fault : Fault),
        ran.1 = ⟨index, .fault fault⟩ ∧ ran.2.IsAt (index + 1) ∧
          engine.Completes index before ∧
            Catalog.full.execute words[index]
              (before.context.setPc (Word.next before.context.pc)) =
                .failed fault ran.2.context := by
  have houtcome := engine.run_outcome limit
  generalize engine.run limit = ran at houtcome
  obtain ⟨summary, reached⟩ := ran
  intro ran
  cases houtcome with
  | @endOfProgram count _ _ hcompletes hout =>
    have hreached := h.isAt_of_completes hforward hat hstraight hcompletes
    have hcount := h.le_length_of_completes hforward hat hcompletes
    rw [← Bool.not_eq_true, (h.of_completes hcompletes).inProgram_iff hreached (by omega)] at hout
    obtain rfl : count = words.length := by omega
    exact .inl ⟨rfl, hreached⟩
  | stepLimit hcompletes hin =>
    have hout := h.inProgram_eq_false_of_completes hforward hat hcompletes hlimit
    exact nomatch hin.symm.trans hout
  | @fault count before fault _ _ hcompletes hin hstep =>
    have hbefore := h.isAt_of_completes hforward hat hstraight hcompletes
    have hcount := h.le_length_of_completes hforward hat hcompletes
    have hholds := h.of_completes hcompletes
    have hinside := (hholds.inProgram_iff hbefore (by omega)).1 hin
    have hmem := List.getElem_mem hinside
    obtain ⟨skipped, -, hafter, hstays⟩ :=
      hholds.exists_isAt_step hbefore hinside (hforward _ hmem)
    obtain rfl := hstays (hstraight _ hmem)
    have hexecute := hholds.execute_eq_step hbefore hinside
    rw [← Word.next_ahead, ← hbefore] at hexecute
    rw [hstep] at hafter hexecute
    exact .inr ⟨count, hinside, before, fault, rfl, hafter, hcompletes, hexecute⟩

end HoldsText

theorem isAt_load (hload : (engine.load words).answer = .ok ()) :
    (engine.load words).after.IsAt 0 := by
  rw [IsAt, Word.ahead_zero, program_load hload]
  exact engine.pc_load words

variable [DrawSource ρ] [LineSink ω]

/-- By default a program that leaves no word for the data is read-only, whatever was done
before it was loaded. -/
theorem holdsText_load_default (globalPointer stackPointer : Word) (draws : ρ) (output : ω)
    (actions : List HostAction) (hlength : words.length ≤ 66060288) :
    let engine := (new { globalPointer, stackPointer } draws output).session actions
    let loaded := (engine.load words).after
    (engine.load words).answer = .ok () ∧ loaded.HoldsText words ∧
      loaded.program.first = 0x00400000 ∧
        ∀ index < words.length, loaded.machine.memory.segmentAt (Word.ahead 0x00400000 index) =
          some Segment.text := by
  intro engine loaded
  have hbase : engine.machine.config.textBase = 0x00400000 :=
    congrArg MachineConfig.textBase (config_session _ actions)
  have htext : ∀ index < words.length,
      engine.machine.memory.segmentAt (Word.ahead 0x00400000 index) = some Segment.text := by
    intro index hindex
    have hsegment := (Machine.loadProgram_default words).2 index (by omega)
    rw [if_pos (by omega)] at hsegment
    rw [Memory.segmentAt, segments_session]
    exact hsegment
  have hload : (engine.load words).answer = .ok () := by
    rw [load_eq_ok_iff_access, hbase]
    intro index hindex
    exact ⟨_, Memory.access_eq_ok_iff.2
      ⟨Word.isAligned_ahead (by decide) index, htext index hindex⟩⟩
  have hholds : loaded.HoldsText words := by
    apply HoldsText.of_load hload
    · rw [hbase]
      change 0x00400000 + 4 * (words.length + 2 ^ 15) ≤ 2 ^ 32
      omega
    · rw [hbase]
      intro index hindex
      exact ⟨Segment.text, htext index hindex, rfl⟩
  refine ⟨hload, hholds, ?_, ?_⟩
  · rw [program_load hload]
    exact hbase
  · intro index hindex
    rw [Memory.segmentAt, segments_load]
    exact htext index hindex

/-- A program that only leads forward, by default and whatever was done before it was loaded:
each step increases the program counter, a run that may take a step for each word ends before
its bound and is not abandoned if its source keeps its bounds, and without branches the steps
and the counter say which word it ended at. -/
theorem forward_programs_terminate (globalPointer stackPointer : Word) (draws : ρ) (output : ω)
    (actions : List HostAction) {words : List Word} (hlength : words.length ≤ 66060288)
    (hforward : ∀ word ∈ words, word.LeadsForward) :
    let engine := (new { globalPointer, stackPointer } draws output).session actions
    let loaded := (engine.load words).after
    (engine.load words).answer = .ok () ∧
      (∀ index < words.length, loaded.machine.memory.segmentAt (Word.ahead 0x00400000 index) =
        some Segment.text) ∧
      (∀ count reached, loaded.Completes count reached → reached.inProgram = true →
        reached.context.pc.toNat < reached.step.after.context.pc.toNat) ∧
      ∀ limit ≥ words.length,
        let ran := loaded.run limit
        ran.1.steps ≤ words.length ∧
          (ran.1.stop = .endOfProgram ∨ ∃ fault, ran.1.stop = .fault fault) ∧
          (DrawSource.KeepsBounds ρ → ran.1.stop ≠ .fault .abort) ∧
          ((∀ word ∈ words, ¬word.IsBranch) →
            (ran.1 = ⟨words.length, .endOfProgram⟩ ∧
                ran.2.context.pc.toNat = 0x00400000 + 4 * words.length) ∨
              ∃ (index : Nat) (hindex : index < words.length) (before : Engine ρ ω)
                (fault : Fault),
                ran.1 = ⟨index, .fault fault⟩ ∧
                  ran.2.context.pc.toNat = 0x00400000 + 4 * (index + 1) ∧
                  loaded.Completes index before ∧
                  Catalog.full.execute words[index]
                    (before.context.setPc (Word.next before.context.pc)) =
                      .failed fault ran.2.context) := by
  intro engine loaded
  obtain ⟨hload, hholds, hfirst, htext⟩ :=
    holdsText_load_default globalPointer stackPointer draws output actions hlength
  have hat : loaded.IsAt 0 := isAt_load hload
  refine ⟨hload, htext, ?_, ?_⟩
  · intro count reached hcompletes hin
    obtain ⟨-, last, hlast, hreached, -⟩ :=
      hholds.exists_isAt_of_completes hforward hat (by omega) hcompletes
    have hthere := hholds.of_completes hcompletes
    exact hthere.toNat_pc_lt_step hforward hreached ((hthere.inProgram_iff hreached hlast).1 hin)
  · intro limit hlimit ran
    have hran : ran.2.HoldsText words := hholds.after_run limit
    have hbase : ran.2.program.first.toNat = 0x00400000 := by
      rw [(loaded.run_outcome limit).program_eq, hfirst]
      rfl
    obtain ⟨hsteps, hstop⟩ := hholds.run_terminates hforward hat hlimit
    refine ⟨hsteps, hstop, fun hsource => stop_run_ne_abort hsource loaded limit, ?_⟩
    intro hstraight
    rcases hholds.run_straight hforward hat hstraight hlimit with
      ⟨hsummary, hend⟩ | ⟨index, hindex, before, fault, hsummary, hend, hfailed⟩
    · refine .inl ⟨hsummary, ?_⟩
      rw [hran.toNat_pc hend (by omega), hbase]
    · refine .inr ⟨index, hindex, before, fault, hsummary, ?_, hfailed⟩
      rw [hran.toNat_pc hend (by omega), hbase]

/-- The longest branch ahead, and a word that is no instruction after one that is, loaded while
the program counter was elsewhere. -/
theorem forward_programs_terminate_of_longest_branch :
    let engine := (new { globalPointer := 0, stackPointer := 4 } ({ values := [3] } : Script)
      ({} : Transcript)).session [.setPc 8]
    let branching : List Word := [0x10007FFF, 0xFC000000]
    let straight : List Word := [0x2009FFFF, 0xFC000000]
    let ran := (engine.load straight).after.run 2
    (∀ word ∈ branching, word.LeadsForward) ∧ (∀ word ∈ straight, word.LeadsForward) ∧
      ((engine.load branching).after.run 2).1.stop ≠ .stepLimit ∧
        ((ran.1 = ⟨2, .endOfProgram⟩ ∧ ran.2.context.pc.toNat = 0x00400008) ∨
          ∃ index < 2, ∃ fault, ran.1 = ⟨index, .fault fault⟩ ∧
            ran.2.context.pc.toNat = 0x00400000 + 4 * (index + 1)) := by
  intro engine branching straight ran
  have hbranching : ∀ word ∈ branching, word.LeadsForward :=
    List.forall_mem_cons.2 ⟨by decide, List.forall_mem_singleton.2 (by decide)⟩
  have hstraight : ∀ word ∈ straight, word.LeadsForward ∧ ¬word.IsBranch :=
    List.forall_mem_cons.2 ⟨by decide, List.forall_mem_singleton.2 (by decide)⟩
  obtain ⟨-, -, -, hbranch⟩ := forward_programs_terminate 0 4 ({ values := [3] } : Script)
    ({} : Transcript) [.setPc 8] (show branching.length ≤ 66060288 by decide) hbranching
  obtain ⟨-, -, -, hrun⟩ := forward_programs_terminate 0 4 ({ values := [3] } : Script)
    ({} : Transcript) [.setPc 8] (show straight.length ≤ 66060288 by decide)
    fun word hword => (hstraight word hword).1
  refine ⟨hbranching, fun word hword => (hstraight word hword).1, ?_, ?_⟩
  · rcases (hbranch 2 (Nat.le_refl 2)).2.1 with hend | ⟨fault, hfault⟩
    · rw [hend]
      exact nofun
    · rw [hfault]
      exact nofun
  · rcases (hrun 2 (Nat.le_refl 2)).2.2.2 fun word hword => (hstraight word hword).2 with
      hend | ⟨index, hindex, -, fault, hsummary, hpc, -⟩
    · exact .inl hend
    · exact .inr ⟨index, hindex, fault, hsummary, hpc⟩

end Engine
end FacilityIsa
