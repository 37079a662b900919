import FacilityIsa.Proofs.AcceptedWords
import FacilityIsa.Proofs.Agreement

/-!
# Seeded draws

A seed fixes an endless stream of words, and a draw is what the first word from its
position on stands for that is accepted. The stream repeats itself, so a word is accepted
within one period or none ever is. Wherever in the stream a source stands, its draws are
below their bounds. What an engine draws can be seen by recording it: a source that keeps a
record gives the same numbers as one that does not, so runs do not notice, and each bound
in the record is that of an extraction or an ordeal of the run.
-/

namespace FacilityIsa

namespace Keystream

/-- The word at a place of the stream of a key. -/
def wordAt (key : Vector Word 8) (index : Nat) : Word :=
  (after key index).current

theorem advance_after (key : Vector Word 8) (taken : Nat) :
    (after key taken).advance = after key (taken + 1) :=
  advance_eq_after _

/-- The number of a block has 64 bits, so the blocks come round again. -/
theorem keystreamBlock_add_mul (key : Vector Word 8) (number rounds : Nat) :
    keystreamBlock key (number + rounds * 2 ^ 64) = keystreamBlock key number := by
  have hnumber : BitVec.ofNat 64 (number + rounds * 2 ^ 64) = BitVec.ofNat 64 number := by
    apply BitVec.eq_of_toNat_eq
    rw [BitVec.toNat_ofNat, BitVec.toNat_ofNat, Nat.add_mul_mod_self_right]
  rw [keystreamBlock, hnumber, ← keystreamBlock]

theorem wordAt_add_mul_period (key : Vector Word 8) (index rounds : Nat) :
    wordAt key (index + rounds * period) = wordAt key index := by
  have hperiod : rounds * period = rounds * 2 ^ 64 * 16 := by
    rw [Nat.mul_assoc]
    rfl
  have hblock : (index + rounds * period) / 16 = index / 16 + rounds * 2 ^ 64 := by omega
  have hword : (index + rounds * period) % 16 = index % 16 := by omega
  simp only [wordAt, current, after, hblock, hword, keystreamBlock_add_mul]

variable {key : Vector Word 8} {bound : Word} {taken index : Nat}

/-- The place of the first word accepted for a bound, among those not taken yet. -/
structure IsNextAccepted (key : Vector Word 8) (bound : Word) (taken index : Nat) : Prop where
  taken_le : taken ≤ index
  accepted : isAccepted bound (wordAt key index) = true
  rejected : ∀ earlier, taken ≤ earlier → earlier < index →
    isAccepted bound (wordAt key earlier) = false

/-- Either there is a next accepted word or the whole stream has none. -/
theorem exists_isNextAccepted_or (key : Vector Word 8) (bound : Word) (taken : Nat) :
    (∃ index, IsNextAccepted key bound taken index) ∨
      ∀ index, isAccepted bound (wordAt key index) = false := by
  by_cases hnone : ∀ index, isAccepted bound (wordAt key index) = false
  · exact .inr hnone
  · left
    simp only [not_forall, Bool.not_eq_false] at hnone
    obtain ⟨index, hindex⟩ := hnone
    have hlater : ∃ later, taken ≤ later ∧ isAccepted bound (wordAt key later) = true := by
      refine ⟨index + taken * period, ?_, by rwa [wordAt_add_mul_period]⟩
      have hperiod : taken * 1 ≤ taken * period := Nat.mul_le_mul_left taken (by decide)
      omega
    obtain ⟨htaken, haccepted⟩ := Nat.find_spec hlater
    refine ⟨Nat.find hlater, htaken, haccepted, fun earlier hearlier hlt => ?_⟩
    simpa [hearlier] using Nat.find_min hlater hlt

theorem IsNextAccepted.lt_add_period (h : IsNextAccepted key bound taken index) :
    index < taken + period := by
  refine Nat.lt_of_not_le fun hlate => ?_
  obtain ⟨skipped, rfl⟩ := Nat.exists_eq_add_of_le hlate
  have hsame := wordAt_add_mul_period key (taken + skipped) 1
  have hrejected := h.rejected (taken + skipped) (Nat.le_add_right _ _) (by
    have hperiod : 0 < period := by decide
    omega)
  have haccepted := h.accepted
  rw [Nat.one_mul, Nat.add_right_comm] at hsame
  rw [hsame, hrejected] at haccepted
  exact nomatch haccepted

theorem IsNextAccepted.of_rejected (h : IsNextAccepted key bound taken index)
    (hrejected : isAccepted bound (wordAt key taken) = false) :
    IsNextAccepted key bound (taken + 1) index where
  taken_le := by
    refine Nat.lt_of_le_of_ne h.taken_le ?_
    rintro rfl
    exact absurd h.accepted (by rw [hrejected]; exact nofun)
  accepted := h.accepted
  rejected := fun earlier hearlier => h.rejected earlier (Nat.le_of_succ_le hearlier)

theorem IsNextAccepted.eq_of_accepted (h : IsNextAccepted key bound taken index)
    (haccepted : isAccepted bound (wordAt key taken) = true) : index = taken := by
  refine Nat.le_antisymm (Nat.le_of_not_lt fun hlt => ?_) h.taken_le
  exact absurd (h.rejected taken (Nat.le_refl taken) hlt) (by rw [haccepted]; exact nofun)

/-- Words are taken up to the first that is accepted. -/
theorem IsNextAccepted.takeAccepted_eq {attempts : Nat}
    (h : IsNextAccepted key bound taken index) (hattempts : index < taken + attempts) :
    (after key taken).takeAccepted bound attempts = (wordAt key index, after key (index + 1)) := by
  -- A rejected word costs one attempt and one place, so the accepted one stays within reach.
  induction attempts generalizing taken with
  | zero => exact absurd hattempts (Nat.not_lt.2 h.taken_le)
  | succ attempts ih =>
    rw [takeAccepted, advance_after]
    split
    · next haccepted =>
      obtain rfl := h.eq_of_accepted haccepted
      rfl
    · next hrejected =>
      exact ih (h.of_rejected (Bool.eq_false_iff.2 hrejected)) (by omega)

theorem exists_takeAccepted_eq_after (key : Vector Word 8) (bound : Word)
    (attempts taken : Nat) :
    ∃ later, ((after key taken).takeAccepted bound attempts).2 = after key later := by
  induction attempts generalizing taken with
  | zero => exact ⟨taken + 1, advance_after key taken⟩
  | succ attempts ih =>
    rw [takeAccepted, advance_after]
    split
    · exact ⟨taken + 1, rfl⟩
    · exact ih (taken + 1)

end Keystream

namespace Seeded

/-- The source of a seed after a number of words. -/
def atPosition (seed : BitVec 64) (position : Nat) : Seeded :=
  ⟨Keystream.after (seedKey seed) position⟩

theorem exists_after_ofSeed_eq_atPosition (seed : BitVec 64) (bounds : List Word) :
    ∃ position, DrawSource.after (ofSeed seed) bounds = atPosition seed position := by
  suffices h : ∀ start, ∃ position,
      DrawSource.after (atPosition seed start) bounds = atPosition seed position from h 0
  induction bounds with
  | nil => exact fun start => ⟨start, rfl⟩
  | cons bound bounds ih =>
    intro start
    obtain ⟨next, hnext⟩ :=
      Keystream.exists_takeAccepted_eq_after (seedKey seed) bound Keystream.period start
    obtain ⟨position, hposition⟩ := ih next
    refine ⟨position, Eq.trans ?_ hposition⟩
    exact congrArg (fun stream => DrawSource.after (⟨stream⟩ : Seeded) bounds) hnext

theorem keepsBounds : DrawSource.KeepsBounds Seeded :=
  fun source _ => source.draw_lt

theorem draw_atPosition {seed : BitVec 64} {bound : Word} {position index : Nat}
    (h : Keystream.IsNextAccepted (seedKey seed) bound position index) :
    (atPosition seed position).draw bound =
      (scaleDown bound (Keystream.wordAt (seedKey seed) index), atPosition seed (index + 1)) := by
  rw [draw, atPosition, h.takeAccepted_eq h.lt_add_period]
  rfl

end Seeded

/-- A number drawn below a bound. -/
structure Drawn where
  bound : Word
  value : Word

/-- A source with a record of what was drawn from it, latest last. -/
structure Recorded (ρ : Type) where
  source : ρ
  drawn : List Drawn

namespace Recorded

variable {ρ : Type} [DrawSource ρ]

def draw (recorded : Recorded ρ) (bound : Word) : Word × Recorded ρ :=
  let (value, source) := DrawSource.below recorded.source bound
  (value, ⟨source, recorded.drawn ++ [⟨bound, value⟩]⟩)

instance : DrawSource (Recorded ρ) := ⟨draw⟩

/-- The record is kept of the source. -/
def Records (source : ρ) (recorded : Recorded ρ) : Prop :=
  source = recorded.source

theorem respects_records (bound : Word) :
    DrawSource.Respects (Records (ρ := ρ)) bound := by
  rintro source recorded rfl
  exact ⟨rfl, rfl⟩

theorem drawn_after (hsource : DrawSource.KeepsBounds ρ)
    (recorded : Recorded ρ) {bounds : List Word} (hbounds : ∀ bound ∈ bounds, 0 < bound) :
    ∃ added, (DrawSource.after recorded bounds).drawn = recorded.drawn ++ added ∧
      added.map Drawn.bound = bounds ∧ ∀ drawn ∈ added, drawn.value < drawn.bound := by
  induction bounds generalizing recorded with
  | nil => exact ⟨[], (List.append_nil _).symm, rfl, nofun⟩
  | cons bound bounds ih =>
    let first : Drawn := ⟨bound, (DrawSource.below recorded.source bound).1⟩
    have hfirst : first.value < first.bound := hsource _ _ (hbounds bound (.head _))
    obtain ⟨added, hafter, hasked, hbelow⟩ :=
      ih (recorded.draw bound).2 fun later hlater => hbounds later (.tail _ hlater)
    refine ⟨first :: added, ?_, congrArg (bound :: ·) hasked, ?_⟩
    · refine hafter.trans ?_
      rw [draw, List.append_assoc, List.singleton_append]
    · intro drawn hdrawn
      rcases List.mem_cons.1 hdrawn with rfl | hlater
      · exact hfirst
      · exact hbelow drawn hlater

end Recorded

theorem Instruction.eq_or_eq_of_mem_drawBounds {instruction : Instruction} {bound : Word}
    (h : bound ∈ instruction.drawBounds) :
    instruction = .extract ∧ bound = 10 ∨ instruction = .ordeal ∧ bound = 8 := by
  cases instruction with
  | extract => exact .inl ⟨rfl, List.mem_singleton.1 h⟩
  | ordeal => exact .inr ⟨rfl, List.mem_singleton.1 h⟩
  | _ => exact nomatch h

theorem StepRecord.pos_of_mem_drawBounds {record : StepRecord} {bound : Word}
    (h : bound ∈ record.drawBounds) : 0 < bound := by
  obtain ⟨machine, answer⟩ := record
  suffices hinstruction : ∃ instruction : Instruction, bound ∈ instruction.drawBounds by
    obtain ⟨instruction, hasked⟩ := hinstruction
    obtain ⟨-, rfl⟩ | ⟨-, rfl⟩ := Instruction.eq_or_eq_of_mem_drawBounds hasked <;> decide
  cases answer with
  | ok instruction => exact ⟨instruction, h⟩
  | error fault =>
    cases fault with
    | abort => exact ⟨.extract, h⟩
    | _ => exact nomatch h

namespace Engine

theorem drawn_run {ω : Type} [LineSink ω] (engine : Engine (Recorded Seeded) ω) (limit : Nat) :
    ∃ added, (engine.run limit).2.context.draws.drawn = engine.context.draws.drawn ++ added ∧
      added.map Drawn.bound = (engine.trace limit).flatMap StepRecord.drawBounds ∧
        ∀ drawn ∈ added, drawn.value < drawn.bound := by
  rw [engine.draws_run limit]
  refine Recorded.drawn_after Seeded.keepsBounds _ ?_
  intro bound hbound
  obtain ⟨record, -, hasked⟩ := List.mem_flatMap.1 hbound
  exact StepRecord.pos_of_mem_drawBounds hasked

/-- A run with a recorded source ends as without the record, and the record is that of the
draws of its steps. -/
theorem run_recorded {ω : Type} [LineSink ω] (machine : Machine) (source : Seeded) (output : ω)
    (program : ProgramRange) (limit : Nat) :
    let plain : Engine Seeded ω := ⟨⟨machine, source, output⟩, program⟩
    let recorded : Engine (Recorded Seeded) ω := ⟨⟨machine, ⟨source, []⟩, output⟩, program⟩
    let drawn := (recorded.run limit).2.context.draws.drawn
    (plain.run limit).1 = (recorded.run limit).1 ∧
      (plain.run limit).2.Agrees Recorded.Records Eq (recorded.run limit).2 ∧
        drawn.map Drawn.bound = (plain.trace limit).flatMap StepRecord.drawBounds ∧
          ∀ number ∈ drawn, number.value < number.bound := by
  intro plain recorded drawn
  have hsink : LineSink.Respects (Eq (α := ω)) := fun line _ _ hsame =>
    congrArg (LineSink.emit · line) hsame
  have hagrees : plain.Agrees Recorded.Records Eq recorded := ⟨⟨rfl, rfl, rfl⟩, rfl⟩
  have hsource : ∀ record ∈ plain.trace limit, ∀ bound ∈ record.drawBounds,
      DrawSource.Respects (Recorded.Records (ρ := Seeded)) bound :=
    fun _ _ bound _ => Recorded.respects_records bound
  obtain ⟨hsummary, hran⟩ := hagrees.run hsink limit hsource
  obtain ⟨added, hdrawn, hasked, hbelow⟩ := recorded.drawn_run limit
  have hadded : drawn = added := hdrawn
  rw [← hagrees.trace_eq hsink hsource] at hasked
  rw [hadded]
  exact ⟨hsummary, hran, hasked, hbelow⟩

end Engine

section Uniform

open Keystream
open scoped ENNReal

/-- Seeded draws are uniform. A word is accepted by the low half of its product with the
bound and stands for the high half, which is below the bound. Each number below the bound
has as many accepted words as any other, a power of two, and so the same probability. A draw
is what the next accepted word stands for, unless the stream holds none. Wherever in the
stream of its seed a source stands, its draws keep their bounds: an extraction draws one
number below ten and completes, an ordeal draws one below eight, and what a run draws are the
numbers of its extractions and ordeals, one after another. -/
theorem seeded_draws_are_uniform {ω : Type} [LineSink ω] :
    (∀ bound : Word, 0 < bound →
      (∀ word,
        (isAccepted bound word = true ↔
            (fullProduct bound word).extractLsb' 0 32 ≤ bound <<< bound.clz - 1) ∧
          scaleDown bound word = (fullProduct bound word).extractLsb' 32 32) ∧
      (∀ word, isAccepted bound word = true → scaleDown bound word < bound) ∧
      (∀ value, value < bound →
        (Finset.univ.filter fun word : Word =>
          isAccepted bound word = true ∧ scaleDown bound word = value).card =
            2 ^ bound.clz.toNat) ∧
      ∀ value, (acceptedWordLaw bound).map (scaleDown bound) value =
        if value < bound then (bound.toNat : ℝ≥0∞)⁻¹ else 0) ∧
    ∀ seed : BitVec 64,
      (∀ bounds, ∃ position,
        DrawSource.after (Seeded.ofSeed seed) bounds = Seeded.atPosition seed position) ∧
      ∀ position,
        let source := Seeded.atPosition seed position
        (∀ bound,
          (∃ index, IsNextAccepted (seedKey seed) bound position index ∧
            source.draw bound =
              (scaleDown bound (wordAt (seedKey seed) index), Seeded.atPosition seed (index + 1))) ∨
          ∀ index, isAccepted bound (wordAt (seedKey seed) index) = false) ∧
        (∀ bound, 0 < bound → (source.draw bound).1 < bound) ∧
        ∀ (machine : Machine) (output : ω) (program : ProgramRange),
          let plain : Engine Seeded ω := ⟨⟨machine, source, output⟩, program⟩
          let recorded : Engine (Recorded Seeded) ω :=
            ⟨⟨machine, ⟨source, []⟩, output⟩, program⟩
          (∀ fields,
            (recorded.context.extract fields).answer = .ok () ∧
              (∃ value < 10,
                (recorded.context.extract fields).after.draws.drawn = [⟨10, value⟩]) ∧
                ∃ value < 8, (recorded.context.ordeal fields).draws.drawn = [⟨8, value⟩]) ∧
          ∀ limit,
            let drawn := (recorded.run limit).2.context.draws.drawn
            (plain.run limit).1.stop ≠ .fault .abort ∧
              (plain.run limit).1 = (recorded.run limit).1 ∧
              (plain.run limit).2.Agrees Recorded.Records Eq (recorded.run limit).2 ∧
                drawn.map Drawn.bound = (plain.trace limit).flatMap StepRecord.drawBounds ∧
                  ∀ number ∈ drawn, number.value < number.bound := by
  constructor
  · intro bound hbound
    refine ⟨?_, fun word _ => scaleDown_lt hbound word, ?_, map_scaleDown_acceptedWordLaw hbound⟩
    · exact fun word =>
        ⟨isAccepted_iff_extractLsb'_le hbound word, scaleDown_eq_extractLsb' bound word⟩
    · intro value hvalue
      have hcard := card_acceptedWords_filter hvalue
      rwa [acceptedWords, Finset.filter_filter] at hcard
  · intro seed
    refine ⟨Seeded.exists_after_ofSeed_eq_atPosition seed, ?_⟩
    intro position source
    refine ⟨?_, fun _ => source.draw_lt, ?_⟩
    · intro bound
      refine (exists_isNextAccepted_or (seedKey seed) bound position).imp ?_ id
      rintro ⟨index, hindex⟩
      exact ⟨index, hindex, Seeded.draw_atPosition hindex⟩
    · intro machine output program plain recorded
      constructor
      · intro fields
        have hten : (recorded.context.draw extractionBound).1 < extractionBound :=
          source.draw_lt (by decide)
        refine ⟨Context.answer_extract_of_draw_lt hten, ⟨_, hten, ?_⟩,
          ⟨_, source.draw_lt (by decide), rfl⟩⟩
        rw [(recorded.context.confined_extract fields).draws_eq]
        rfl
      · exact fun limit => ⟨plain.stop_run_ne_abort Seeded.keepsBounds limit,
          Engine.run_recorded machine source output program limit⟩

/-- Behind four words of a stream the next is rejected for ten, so an extraction draws six from
the one after it. Above half of all words a bound has one word for each number. -/
theorem seeded_draws_are_uniform_of_rejected_word :
    let source := Seeded.atPosition 42 4
    let memory := (Machine.new {}).memory.store 0x00400000 0x40090000
    let machine : Machine := { Machine.new {} with memory }
    let recorded : Engine (Recorded Seeded) Transcript :=
      ⟨⟨machine, ⟨source, []⟩, {}⟩, ⟨0x00400000, 0x00400004⟩⟩
    (0 : Word) < 0x80000001 ∧ (0x80000000 : Word) < 0x80000001 ∧
      (Finset.univ.filter fun word : Word => isAccepted 0x80000001 word = true ∧
        scaleDown 0x80000001 word = 0x80000000).card = 1 ∧
      isAccepted 10 (wordAt (seedKey 42) 4) = false ∧
      isAccepted 10 (wordAt (seedKey 42) 5) = true ∧
      scaleDown 10 (wordAt (seedKey 42) 5) < 10 ∧
      source.draw 10 = (6, Seeded.atPosition 42 6) ∧
      ∃ value < 10, (recorded.run 1).2.context.draws.drawn = [⟨10, value⟩] := by
  intro source memory machine recorded
  have hrejected : isAccepted 10 (wordAt (seedKey 42) 4) = false := by decide +kernel
  have haccepted : isAccepted 10 (wordAt (seedKey 42) 5) = true := by decide +kernel
  have hvalue : scaleDown 10 (wordAt (seedKey 42) 5) = 6 := by decide +kernel
  obtain ⟨hwords, hseed⟩ := seeded_draws_are_uniform (ω := Transcript)
  obtain ⟨-, hbelow, -, -⟩ := hwords 10 (by decide)
  obtain ⟨-, -, hcount, -⟩ := hwords 0x80000001 (by decide)
  obtain ⟨hnext, -, hengine⟩ := (hseed 42).2 4
  have hdraw : source.draw 10 = (6, Seeded.atPosition 42 6) := by
    obtain ⟨index, hindex, hdraw⟩ | hnone := hnext 10
    · obtain rfl := (hindex.of_rejected hrejected).eq_of_accepted haccepted
      rw [← hvalue]
      exact hdraw
    · rw [hnone 5] at haccepted
      exact nomatch haccepted
  refine ⟨by decide, by decide, hcount _ (by decide), hrejected, haccepted,
    hbelow _ haccepted, hdraw, ?_⟩
  let program : ProgramRange := ⟨0x00400000, 0x00400004⟩
  let plain : Engine Seeded Transcript := ⟨⟨machine, source, {}⟩, program⟩
  have hstep : plain.step = ⟨.ok .extract, plain.step.after⟩ := by
    have hmapped : plain.machine.memory.segmentAt plain.context.pc = some Segment.text := rfl
    have hfetch : plain.machine.readWord plain.context.pc = .ok 0x40090000 :=
      Memory.read_store (by decide) hmapped
    have hanswer : plain.step.answer = .ok .extract := by
      refine (congrArg Attempt.answer (Catalog.step_of_fetched hfetch)).trans ?_
      exact Catalog.answer_execute_extract_of_draw_lt (by decide) (source.draw_lt (by decide))
    rw [← hanswer]
  have hanswer : plain.record.answer = .ok .extract := congrArg Attempt.answer hstep
  have htrace : (plain.trace 1).flatMap StepRecord.drawBounds = [10] := by
    rw [Engine.trace_succ_of_ok (by decide) hstep, Engine.trace, List.flatMap_singleton,
      StepRecord.drawBounds, hanswer]
    rfl
  obtain ⟨-, -, -, hasked, hkept⟩ := (hengine machine {} program).2 1
  obtain ⟨number, hdrawn, hten⟩ := List.map_eq_singleton_iff.1 (hasked.trans htrace)
  refine ⟨number.value, ?_, ?_⟩
  · have hnumber := hkept number (hdrawn ▸ List.mem_singleton_self number)
    rwa [hten] at hnumber
  · exact hdrawn.trans (congrArg (fun bound => [Drawn.mk bound number.value]) hten)

end Uniform
end FacilityIsa
