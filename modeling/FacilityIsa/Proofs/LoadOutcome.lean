import FacilityIsa.Proofs.Placement
import Mathlib.Tactic.ByContra

/-!
# What loading a program comes to

Words are placed one after another until one has no place. Which one that is can be told
from the segments alone: none but the first can be misaligned, and then all are, and of the
others it is the first with an unmapped address. Placing that far is the same as placing
only the words before it, which succeeds; so what a failed loading leaves behind is read
off what a successful one does.
-/

namespace FacilityIsa
namespace Memory

variable {memory : Memory} {address : Address} {words : List Word} {error : AddressError}

/-- Of the words that were to be placed from an address on, the first ones up to a count lie
in memory, and nothing else has changed. -/
structure HasPlaced (before after : Memory) (address : Address) (words : List Word)
    (count : Nat) : Prop where
  stored : ∀ index (hindex : index < words.length), index < count →
    after.wordAt (Word.ahead address index) = words[index]
  kept : ∀ other, (∀ index < count, other ≠ Word.ahead address index) →
    after.wordAt other = before.wordAt other
  segments : after.segments = before.segments

/-- The first word without a place ends the placing, as if the words ended before it. -/
theorem place_of_blocked {index : Nat} (hindex : index < words.length)
    (hplaced : ∀ earlier < index, ∃ segment,
      memory.access (Word.ahead address earlier) = .ok segment)
    (hblocked : memory.access (Word.ahead address index) = .error error) :
    memory.place address words =
      .failed error (memory.place address (words.take index)).after := by
  induction words generalizing memory address index with
  | nil => exact absurd hindex (Nat.not_lt_zero index)
  | cons word words ih =>
    cases index with
    | zero =>
      rw [Word.ahead_zero] at hblocked
      rw [place, hblocked]
      rfl
    | succ index =>
      obtain ⟨segment, hfirst⟩ := hplaced 0 (Nat.succ_pos _)
      rw [Word.ahead_zero] at hfirst
      rw [List.take_succ_cons, place, place, hfirst]
      refine ih (Nat.lt_of_succ_lt_succ hindex) ?_ ?_
      · intro earlier hearlier
        rw [Word.ahead_next]
        exact hplaced (earlier + 1) (Nat.succ_lt_succ hearlier)
      · rwa [Word.ahead_next]

theorem hasPlaced_of_ok {stop : Address} (h : (memory.place address words).answer = .ok stop)
    (hlength : words.length ≤ 2 ^ 30) :
    HasPlaced memory (memory.place address words).after address words words.length where
  stored _ hindex _ := wordAt_place h hlength hindex
  kept _ hother := wordAt_place_of_ne memory address words hother
  segments := segments_place memory address words

theorem hasPlaced_of_blocked {index : Nat} (hindex : index < words.length)
    (hplaced : ∀ earlier < index, ∃ segment,
      memory.access (Word.ahead address earlier) = .ok segment)
    (hblocked : memory.access (Word.ahead address index) = .error error)
    (hlength : words.length ≤ 2 ^ 30) :
    HasPlaced memory (memory.place address words).after address words index := by
  have htake : (words.take index).length = index := List.length_take_of_le (Nat.le_of_lt hindex)
  have hbefore : (memory.place address (words.take index)).answer =
      .ok (Word.ahead address (words.take index).length) := by
    rw [place_eq_ok_iff, htake]
    exact ⟨rfl, hplaced⟩
  have hfirst := hasPlaced_of_ok hbefore (by omega)
  rw [htake] at hfirst
  rw [place_of_blocked hindex hplaced hblocked, Attempt.after_failed]
  refine ⟨fun earlier hearlier hlt => ?_, hfirst.kept, hfirst.segments⟩
  rw [hfirst.stored earlier (by omega) hlt, List.getElem_take]

theorem access_ahead_eq_error (haligned : Word.IsAligned address) {index : Nat}
    (hunmapped : memory.segmentAt (Word.ahead address index) = none) :
    memory.access (Word.ahead address index) = .error (.unmapped (Word.ahead address index)) :=
  access_eq_error_iff.2 (.inr ⟨Word.isAligned_ahead haligned index, hunmapped, rfl⟩)

theorem exists_access_ahead (haligned : Word.IsAligned address) {index : Nat}
    (hmapped : memory.segmentAt (Word.ahead address index) ≠ none) :
    ∃ segment, memory.access (Word.ahead address index) = .ok segment := by
  obtain ⟨segment, hsegment⟩ := Option.ne_none_iff_exists'.1 hmapped
  exact ⟨segment, access_eq_ok_iff.2 ⟨Word.isAligned_ahead haligned index, hsegment⟩⟩

theorem exists_place_eq_error_iff :
    (∃ error, (memory.place address words).answer = .error error) ↔
      (0 < words.length ∧ ¬Word.IsAligned address) ∨
        ∃ index < words.length, memory.segmentAt (Word.ahead address index) = none := by
  constructor
  · rintro ⟨error, herror⟩
    by_contra hnone
    obtain ⟨hstart, hmapped⟩ := not_or.1 hnone
    have hok : (memory.place address words).answer = .ok (Word.ahead address words.length) := by
      refine place_eq_ok_iff.2 ⟨rfl, fun index hindex => ?_⟩
      have haligned := not_not.1 (not_and.1 hstart (Nat.zero_lt_of_lt hindex))
      exact exists_access_ahead haligned fun hunmapped => hmapped ⟨index, hindex, hunmapped⟩
    exact nomatch hok.symm.trans herror
  · intro hblocked
    cases hanswer : (memory.place address words).answer with
    | error error => exact ⟨error, rfl⟩
    | ok stop =>
      obtain ⟨-, hplaced⟩ := place_eq_ok_iff.1 hanswer
      obtain ⟨hwords, hstart⟩ | ⟨index, hindex, hunmapped⟩ := hblocked
      · obtain ⟨segment, hfirst⟩ := hplaced 0 hwords
        rw [Word.ahead_zero] at hfirst
        exact absurd (access_eq_ok_iff.1 hfirst).1 hstart
      · obtain ⟨segment, hsegment⟩ := hplaced index hindex
        exact nomatch hunmapped.symm.trans (access_eq_ok_iff.1 hsegment).2

end Memory

namespace Machine

variable {machine : Machine} {words : List Word} {error : AddressError} {memory : Memory}

theorem loadProgram_of_failed
    (h : machine.memory.place machine.config.textBase words = .failed error memory) :
    machine.loadProgram words = .failed error { machine with memory } := by
  rw [loadProgram, h]
  rfl

theorem loadProgram_of_done {stop : Address}
    (h : machine.memory.place machine.config.textBase words = .done stop memory) :
    machine.loadProgram words =
      .done stop ({ machine with memory }.setPc machine.config.textBase) := by
  rw [loadProgram, h]
  rfl

theorem loadProgram_of_misaligned (hwords : 0 < words.length)
    (hbase : ¬Word.IsAligned machine.config.textBase) :
    machine.loadProgram words = .failed (.unaligned machine.config.textBase) machine := by
  have hblocked : machine.memory.access (Word.ahead machine.config.textBase 0) =
      .error (.unaligned machine.config.textBase) := by
    rw [Word.ahead_zero]
    exact Memory.access_eq_error_iff.2 (.inl ⟨hbase, rfl⟩)
  exact loadProgram_of_failed (Memory.place_of_blocked hwords nofun hblocked)

/-- A program of at most as many words as there are multiples of four is loaded unless its
first word is misaligned or some word has an unmapped address. A misaligned text base changes
nothing; at the first unmapped address the words before it stay stored, and registers and
program counter as they were. When all are placed the address after the last is returned,
each word is read back, whatever its segment, and the program counter is at the first. No
other word, no register and no segment ever changes. -/
theorem load_outcome_is_exact (machine : Machine) (words : List Word)
    (hlength : words.length ≤ 2 ^ 30) :
    let base := machine.config.textBase
    let unmapped (index : Nat) := machine.memory.segmentAt (Word.ahead base index) = none
    let loading := machine.loadProgram words
    ((∃ error, loading.answer = .error error) ↔
        (0 < words.length ∧ ¬Word.IsAligned base) ∨ ∃ index < words.length, unmapped index) ∧
      (0 < words.length → ¬Word.IsAligned base →
        loading = .failed (.unaligned base) machine) ∧
      (Word.IsAligned base → ∀ index < words.length, unmapped index →
        (∀ earlier < index, ¬unmapped earlier) →
          loading.answer = .error (.unmapped (Word.ahead base index)) ∧
            loading.after.registers = machine.registers ∧
            Memory.HasPlaced machine.memory loading.after.memory base words index) ∧
      ∀ stop, loading.answer = .ok stop →
        stop = Word.ahead base words.length ∧ loading.after.pc = base ∧
          (∀ register, loading.after.register register = machine.register register) ∧
          Memory.HasPlaced machine.memory loading.after.memory base words words.length ∧
          ∀ index (hindex : index < words.length),
            loading.after.readWord (Word.ahead base index) = .ok words[index] := by
  intro base unmapped loading
  refine ⟨?_, ?_, ?_, ?_⟩
  · rw [← Memory.exists_place_eq_error_iff, answer_loadProgram]
  · exact loadProgram_of_misaligned
  · intro hbase index hindex hunmapped hearlier
    have hplaced := fun earlier hlt => Memory.exists_access_ahead hbase (hearlier earlier hlt)
    have hblocked := Memory.access_ahead_eq_error hbase hunmapped
    have hfailed := loadProgram_of_failed (Memory.place_of_blocked hindex hplaced hblocked)
    have hstored := Memory.hasPlaced_of_blocked hindex hplaced hblocked hlength
    rw [← memory_loadProgram] at hstored
    refine ⟨?_, ?_, hstored⟩
    · exact congrArg (·.answer) hfailed
    · exact congrArg (·.after.registers) hfailed
  · intro stop hstop
    obtain ⟨rfl, hpc, hplaced⟩ := loadProgram_eq_ok hstop
    have hdone : machine.memory.place base words =
        .done (Word.ahead base words.length) (machine.memory.place base words).after := by
      rw [Attempt.done, ← loadProgram_eq_ok_iff.1 hstop]
    have hstored := Memory.hasPlaced_of_ok (loadProgram_eq_ok_iff.1 hstop) hlength
    rw [← memory_loadProgram] at hstored
    refine ⟨rfl, hpc, ?_, hstored, ?_⟩
    · intro register
      exact congrArg (·.after.register register) (loadProgram_of_done hdone)
    · intro index hindex
      obtain ⟨segment, hsegment⟩ := hplaced index hindex
      obtain ⟨haligned, hmapped⟩ := Memory.access_eq_ok_iff.1 hsegment
      rw [← hstored.stored index hindex hindex]
      refine Memory.read_eq_ok haligned (Eq.trans ?_ hmapped)
      rw [Memory.segmentAt, hstored.segments]
      rfl

/-- A program that goes on at the other end of memory: its zero takes the place of what was
stored there, and its last word has no place. -/
theorem load_outcome_is_exact_of_wrapped :
    let config : MachineConfig :=
      { textBase := 0xFFFFFFFC
        regions := [{ start := 0, stop := 8, segment := Segment.text },
          { start := 0xFFFFFFF0, stop := 0xFFFFFFFF, segment := Segment.text }] }
    let machine : Machine := { new config with memory := (new config).memory.store 0 9 }
    let words : List Word := [5, 0, 6, 7]
    words.length ≤ 2 ^ 30 ∧
      (machine.loadProgram words).answer = .error (.unmapped 8) ∧
      (machine.loadProgram words).after.memory.wordAt 0xFFFFFFFC = 5 ∧
      (machine.loadProgram words).after.memory.wordAt 0 = 0 ∧
      (machine.loadProgram words).after.memory.wordAt 4 = 6 ∧
      (machine.loadProgram [5, 0, 6]).answer = .ok 8 ∧
      (machine.loadProgram [5, 0, 6]).after.readWord 0 = .ok 0 := by
  intro config machine words
  have hlength : words.length ≤ 2 ^ 30 := by decide
  have hfirst : Word.ahead machine.config.textBase 0 = 0xFFFFFFFC := by decide
  have hsecond : Word.ahead machine.config.textBase 1 = 0 := by decide
  have hthird : Word.ahead machine.config.textBase 2 = 4 := by decide
  have hlast : Word.ahead machine.config.textBase 3 = 8 := by decide
  have hmapped : ∀ index < 3,
      machine.memory.segmentAt (Word.ahead machine.config.textBase index) ≠ none := by
    decide
  have hok : (machine.loadProgram [5, 0, 6]).answer = .ok 8 := by
    rw [answer_loadProgram, Memory.place_eq_ok_iff]
    exact ⟨hlast.symm, fun index hindex =>
      Memory.exists_access_ahead (by decide) (hmapped index hindex)⟩
  obtain ⟨-, -, hfailed, -⟩ := load_outcome_is_exact machine words hlength
  obtain ⟨hanswer, -, hstored⟩ := hfailed (by decide) 3 (by decide) (by decide) hmapped
  obtain ⟨-, -, -, hloaded⟩ := load_outcome_is_exact machine [5, 0, 6] (by decide)
  obtain ⟨-, -, -, -, hread⟩ := hloaded 8 hok
  have hzero := hstored.stored 1 (by decide) (by decide)
  have hreadZero := hread 1 (by decide)
  rw [hsecond] at hzero hreadZero
  refine ⟨hlength, hlast ▸ hanswer, ?_, hzero, ?_, hok, hreadZero⟩
  · exact hfirst ▸ hstored.stored 0 (by decide) (by decide)
  · exact hthird ▸ hstored.stored 2 (by decide) (by decide)

end Machine
end FacilityIsa
