import FacilityIsa.Execution.Dispatch
import FacilityIsa.Proofs.Dispatch
import FacilityIsa.Proofs.ExtractionSums
import Mathlib.Tactic.ByContra

/-!
# Causes of faults

Each fault has one cause that can be read off the word and the machine: an
unknown word, an exact result that is no signed word, or a data address that
memory refuses. The causes exclude one another in the order in which they are
looked for, and where none is present the instruction completes. In particular
the operands of a decoded word are always of the format of its instruction. An
extraction is abandoned for a draw that is too great, which no draw below its
bound is.
-/

namespace FacilityIsa

/-- A source of which every number is below the bound that was asked for. -/
def DrawSource.KeepsBounds (ρ : Type) [DrawSource ρ] : Prop :=
  ∀ (source : ρ) (bound : Word), 0 < bound → (DrawSource.below source bound).1 < bound

namespace Context

variable {ρ ω : Type} (context : Context ρ ω) (word : Word)

/-- The result over the integers of an instruction that watches for overflow,
on the operands in a word. -/
def exactResult? : Instruction → Option Int
  | .add =>
    let fields := RegisterFields.decode word
    some ((context.register fields.rs).toInt + (context.register fields.rt).toInt)
  | .sub =>
    let fields := RegisterFields.decode word
    some ((context.register fields.rs).toInt - (context.register fields.rt).toInt)
  | .addi =>
    let fields := ImmediateFields.decode word
    some ((context.register fields.rs).toInt + fields.simm.toInt)
  | _ => none

/-- The address of a load or a store, a wrapping sum. -/
def dataAddress : Address :=
  context.effectiveAddress (ImmediateFields.decode word)

/-- Why an instruction refuses the operands in a word. -/
inductive Refuses [DrawSource ρ] : Instruction → Fault → Prop
  | overflow {instruction value} (hresult : context.exactResult? word instruction = some value)
      (hrange : ¬Word.IsSigned value) : Refuses instruction (.arithmeticOverflow instruction)
  | unaligned {instruction} (haccess : instruction = .lw ∨ instruction = .sw)
      (haligned : ¬Word.IsAligned (context.dataAddress word)) :
      Refuses instruction (.address (.unaligned (context.dataAddress word)))
  | unmapped {instruction} (haccess : instruction = .lw ∨ instruction = .sw)
      (haligned : Word.IsAligned (context.dataAddress word))
      (hmapped : context.machine.memory.segmentAt (context.dataAddress word) = none) :
      Refuses instruction (.address (.unmapped (context.dataAddress word)))
  | readOnly {segment} (haligned : Word.IsAligned (context.dataAddress word))
      (hmapped : context.machine.memory.segmentAt (context.dataAddress word) = some segment)
      (hwritable : segment.writable = false) :
      Refuses .sw (.address (.readOnly (context.dataAddress word)))
  | draw (hdraw : (RiskTier.clamped (ImmediateFields.decode word).simm).firstOverflow ≤
        (context.draw extractionBound).1.toNat) : Refuses .extract .abort

variable {context word} {instruction : Instruction} {fields : ImmediateFields} {fault : Fault}

theorem answer_setChecked_eq_error_iff {register : Register} {value : Option Word} :
    (context.setChecked instruction register value).answer = .error fault ↔
      value = none ∧ fault = .arithmeticOverflow instruction := by
  cases value <;> simp [setChecked, eq_comm]

theorem answer_lw_eq_error_iff :
    (context.lw fields).answer = .error fault ↔
      ∃ error, context.machine.memory.access (context.effectiveAddress fields) = .error error ∧
        fault = .address error := by
  simp only [← Memory.read_eq_error_iff, lw, Machine.readWord]
  cases context.machine.memory.read (context.effectiveAddress fields) <;> simp [eq_comm]

theorem answer_sw_eq_error_iff :
    (context.sw fields).answer = .error fault ↔
      ∃ error, context.machine.memory.write (context.effectiveAddress fields)
          (context.register fields.rt) = .error error ∧ fault = .address error := by
  simp only [sw, Machine.writeWord]
  cases context.machine.memory.write (context.effectiveAddress fields)
    (context.register fields.rt) <;> simp [Except.map, eq_comm]

variable [DrawSource ρ]

theorem answer_extract_eq_error_iff :
    (context.extract fields).answer = .error fault ↔
      (RiskTier.clamped fields.simm).firstOverflow ≤ (context.draw extractionBound).1.toNat ∧
        fault = .abort := by
  rw [← extractionYield?_eq_none_iff]
  cases hyield : extractionYield? (RiskTier.clamped fields.simm)
      (context.draw extractionBound).1 with
  | some amount => simp [extract_of_yield hyield]
  | none => simp [extract_of_no_yield hyield, eq_comm]

theorem answer_extract_of_draw_lt (h : (context.draw extractionBound).1 < extractionBound) :
    (context.extract fields).answer = .ok () := by
  cases hanswer : (context.extract fields).answer with
  | ok _ => rfl
  | error fault =>
    exact absurd (RiskTier.lt_firstOverflow_of_lt_extractionBound _ h)
      (Nat.not_lt_of_le (answer_extract_eq_error_iff.1 hanswer).1)

theorem not_refuses (hresult : context.exactResult? word instruction = none)
    (hlw : instruction ≠ .lw) (hsw : instruction ≠ .sw) (hextract : instruction ≠ .extract) :
    ¬context.Refuses word instruction fault := by
  intro h
  cases h with
  | overflow hvalue _ => exact nomatch hresult.symm.trans hvalue
  | unaligned haccess _ => exact haccess.elim hlw hsw
  | unmapped haccess _ _ => exact haccess.elim hlw hsw
  | readOnly => exact hsw rfl
  | draw _ => exact hextract rfl

theorem Refuses.lw_or_sw {error : AddressError}
    (h : context.Refuses word instruction (.address error)) :
    instruction = .lw ∨ instruction = .sw := by
  cases h with
  | unaligned haccess _ => exact haccess
  | unmapped haccess _ _ => exact haccess
  | readOnly => exact .inr rfl

theorem refuses_iff_of_exactResult? {value : Int}
    (hresult : context.exactResult? word instruction = some value) :
    context.Refuses word instruction fault ↔
      ¬Word.IsSigned value ∧ fault = .arithmeticOverflow instruction := by
  constructor
  · intro h
    cases h with
    | overflow hvalue hrange =>
      rw [hresult, Option.some.injEq] at hvalue
      exact ⟨hvalue ▸ hrange, rfl⟩
    | unaligned haccess _ => rcases haccess with rfl | rfl <;> exact nomatch hresult
    | unmapped haccess _ _ => rcases haccess with rfl | rfl <;> exact nomatch hresult
    | readOnly => exact nomatch hresult
    | draw _ => exact nomatch hresult
  · rintro ⟨hrange, rfl⟩
    exact .overflow hresult hrange

theorem refuses_lw_iff :
    context.Refuses word .lw fault ↔
      ∃ error, context.machine.memory.access (context.dataAddress word) = .error error ∧
        fault = .address error := by
  simp only [Memory.access_eq_error_iff]
  constructor
  · intro h
    cases h with
    | overflow hvalue _ => exact nomatch hvalue
    | unaligned _ haligned => exact ⟨_, .inl ⟨haligned, rfl⟩, rfl⟩
    | unmapped _ haligned hmapped => exact ⟨_, .inr ⟨haligned, hmapped, rfl⟩, rfl⟩
  · rintro ⟨error, ⟨haligned, rfl⟩ | ⟨haligned, hmapped, rfl⟩, rfl⟩
    · exact .unaligned (.inl rfl) haligned
    · exact .unmapped (.inl rfl) haligned hmapped

theorem refuses_sw_iff (value : Word) :
    context.Refuses word .sw fault ↔
      ∃ error, context.machine.memory.write (context.dataAddress word) value = .error error ∧
        fault = .address error := by
  simp only [Memory.write_eq_error_iff, Memory.access_eq_error_iff, Memory.access_eq_ok_iff]
  constructor
  · intro h
    cases h with
    | overflow hvalue _ => exact nomatch hvalue
    | unaligned _ haligned => exact ⟨_, .inl (.inl ⟨haligned, rfl⟩), rfl⟩
    | unmapped _ haligned hmapped => exact ⟨_, .inl (.inr ⟨haligned, hmapped, rfl⟩), rfl⟩
    | readOnly haligned hmapped hwritable =>
      exact ⟨_, .inr ⟨_, ⟨haligned, hmapped⟩, hwritable, rfl⟩, rfl⟩
  · rintro ⟨error, (⟨haligned, rfl⟩ | ⟨haligned, hmapped, rfl⟩) |
      ⟨segment, ⟨haligned, hmapped⟩, hwritable, rfl⟩, rfl⟩
    · exact .unaligned (.inr rfl) haligned
    · exact .unmapped (.inr rfl) haligned hmapped
    · exact .readOnly haligned hmapped hwritable

theorem refuses_extract_iff :
    context.Refuses word .extract fault ↔
      (RiskTier.clamped (ImmediateFields.decode word).simm).firstOverflow ≤
          (context.draw extractionBound).1.toNat ∧ fault = .abort := by
  constructor
  · intro h
    cases h with
    | overflow hvalue _ => exact nomatch hvalue
    | unaligned haccess _ => exact haccess.elim nofun nofun
    | unmapped haccess _ _ => exact haccess.elim nofun nofun
    | draw hdraw => exact ⟨hdraw, rfl⟩
  · rintro ⟨hdraw, rfl⟩
    exact .draw hdraw

theorem forall_not_refuses_iff :
    (∀ fault, ¬context.Refuses word instruction fault) ↔
      (∀ value, context.exactResult? word instruction = some value → Word.IsSigned value) ∧
        (instruction = .lw ∨ instruction = .sw →
          Word.IsAligned (context.dataAddress word) ∧
            ∃ segment,
              context.machine.memory.segmentAt (context.dataAddress word) = some segment ∧
                (instruction = .sw → segment.writable = true)) ∧
          (instruction = .extract → (context.draw extractionBound).1.toNat <
            (RiskTier.clamped (ImmediateFields.decode word).simm).firstOverflow) := by
  constructor
  · intro h
    refine ⟨fun value hvalue => by_contra fun hrange => h _ (.overflow hvalue hrange), ?_, ?_⟩
    case refine_2 =>
      rintro rfl
      exact Nat.lt_of_not_le fun hdraw => h _ (.draw hdraw)
    intro haccess
    have haligned : Word.IsAligned (context.dataAddress word) :=
      by_contra fun haligned => h _ (.unaligned haccess haligned)
    refine ⟨haligned, ?_⟩
    cases hmapped : context.machine.memory.segmentAt (context.dataAddress word) with
    | none => exact absurd (.unmapped haccess haligned hmapped) (h _)
    | some segment =>
      refine ⟨segment, rfl, ?_⟩
      rintro rfl
      by_contra hwritable
      exact h _ (.readOnly haligned hmapped (Bool.eq_false_iff.2 hwritable))
  · rintro ⟨hrange, haccess, hextract⟩ fault h
    cases h with
    | overflow hvalue hout => exact hout (hrange _ hvalue)
    | unaligned hinstruction haligned => exact haligned (haccess hinstruction).1
    | unmapped hinstruction _ hmapped =>
      obtain ⟨-, segment, hsegment, -⟩ := haccess hinstruction
      exact nomatch hmapped.symm.trans hsegment
    | readOnly _ hmapped hwritable =>
      obtain ⟨-, segment, hsegment, hstore⟩ := haccess (.inr rfl)
      rw [hmapped, Option.some.injEq] at hsegment
      rw [hsegment, hstore rfl] at hwritable
      exact nomatch hwritable
    | draw hdraw => exact absurd (hextract rfl) (Nat.not_lt_of_le hdraw)

end Context

variable {ρ ω : Type} [DrawSource ρ] [LineSink ω] {context : Context ρ ω} {word : Word}

/-- On the operands in a word an instruction fails for its own causes only, and
never for their format. -/
theorem Instruction.answer_perform_operandsOf_eq_error_iff (instruction : Instruction)
    {fault : Fault} :
    (instruction.perform (instruction.operandsOf word) context).answer = .error fault ↔
      context.Refuses word instruction fault := by
  cases instruction
  case add =>
    refine Context.answer_setChecked_eq_error_iff.trans (Iff.trans ?_
      (Context.refuses_iff_of_exactResult? rfl).symm)
    rw [addSigned?_eq, ite_eq_right_iff]
    simp only [reduceCtorEq, imp_false]
  case sub =>
    refine Context.answer_setChecked_eq_error_iff.trans (Iff.trans ?_
      (Context.refuses_iff_of_exactResult? rfl).symm)
    rw [subSigned?_eq, ite_eq_right_iff]
    simp only [reduceCtorEq, imp_false]
  case addi =>
    refine Context.answer_setChecked_eq_error_iff.trans (Iff.trans ?_
      (Context.refuses_iff_of_exactResult? rfl).symm)
    rw [addSigned?_eq, ite_eq_right_iff]
    simp only [reduceCtorEq, imp_false]
  case lw => exact Context.answer_lw_eq_error_iff.trans Context.refuses_lw_iff.symm
  case sw => exact Context.answer_sw_eq_error_iff.trans (Context.refuses_sw_iff _).symm
  case extract => exact Context.answer_extract_eq_error_iff.trans Context.refuses_extract_iff.symm
  all_goals
    constructor
    · intro h
      exact nomatch h
    · intro h
      exact absurd h (Context.not_refuses rfl nofun nofun nofun)

namespace Catalog

variable {catalog : Catalog}

theorem answer_execute_eq_error_iff {fault : Fault} :
    (catalog.execute word context).answer = .error fault ↔
      (catalog.find? word = none ∧ fault = .undefined ⟨word⟩) ∨
        ∃ instruction, catalog.find? word = some instruction ∧
          context.Refuses word instruction fault := by
  cases hfind : catalog.find? word with
  | none =>
    rw [execute_of_find?_eq_none hfind]
    simp [eq_comm]
  | some instruction =>
    rw [execute_of_find?_eq_some hfind]
    simp only [reduceCtorEq, false_and, false_or, Option.some.injEq, exists_eq_left',
      Attempt.answer_map, ← instruction.answer_perform_operandsOf_eq_error_iff]
    cases (instruction.perform (instruction.operandsOf word) context).answer <;> simp [Except.map]

theorem answer_execute_eq_ok_iff {instruction : Instruction} :
    (catalog.execute word context).answer = .ok instruction ↔
      catalog.find? word = some instruction ∧
        ∀ fault, ¬context.Refuses word instruction fault := by
  cases hfind : catalog.find? word with
  | none =>
    rw [execute_of_find?_eq_none hfind]
    simp
  | some found =>
    rw [execute_of_find?_eq_some hfind, Attempt.answer_map, Option.some.injEq]
    cases hanswer : (found.perform (found.operandsOf word) context).answer with
    | ok _ =>
      have hnone : ∀ fault, ¬context.Refuses word found fault := by
        intro fault h
        rw [← found.answer_perform_operandsOf_eq_error_iff, hanswer] at h
        exact nomatch h
      constructor
      · intro h
        cases h
        exact ⟨rfl, hnone⟩
      · rintro ⟨rfl, -⟩
        rfl
    | error fault =>
      have hrefuses := found.answer_perform_operandsOf_eq_error_iff.1 hanswer
      constructor
      · intro h
        exact nomatch h
      · rintro ⟨rfl, hnone⟩
        exact absurd hrefuses (hnone fault)

theorem answer_execute_eq_undefined_iff {error : UndefinedInstruction} :
    (catalog.execute word context).answer = .error (.undefined error) ↔
      error = ⟨word⟩ ∧ catalog.find? word = none := by
  refine answer_execute_eq_error_iff.trans ⟨?_, ?_⟩
  · rintro (⟨hfind, hfault⟩ | ⟨instruction, -, hrefuses⟩)
    · exact ⟨Fault.undefined.inj hfault, hfind⟩
    · exact nomatch hrefuses
  · rintro ⟨rfl, hfind⟩
    exact .inl ⟨hfind, rfl⟩

theorem answer_execute_eq_overflow_iff {instruction : Instruction} :
    (catalog.execute word context).answer = .error (.arithmeticOverflow instruction) ↔
      catalog.find? word = some instruction ∧
        ∃ value, context.exactResult? word instruction = some value ∧ ¬Word.IsSigned value := by
  refine answer_execute_eq_error_iff.trans ⟨?_, ?_⟩
  · rintro (⟨-, hfault⟩ | ⟨_, hfind, ⟨hvalue, hrange⟩⟩)
    · exact nomatch hfault
    · exact ⟨hfind, _, hvalue, hrange⟩
  · rintro ⟨hfind, value, hvalue, hrange⟩
    exact .inr ⟨instruction, hfind, .overflow hvalue hrange⟩

theorem answer_execute_eq_unaligned_iff {faulty : Address} :
    (catalog.execute word context).answer = .error (.address (.unaligned faulty)) ↔
      faulty = context.dataAddress word ∧
        (catalog.find? word = some .lw ∨ catalog.find? word = some .sw) ∧
          ¬Word.IsAligned (context.dataAddress word) := by
  refine answer_execute_eq_error_iff.trans ⟨?_, ?_⟩
  · rintro (⟨-, hfault⟩ | ⟨_, hfind, hrefuses⟩)
    · exact nomatch hfault
    · cases hrefuses with
      | unaligned haccess haligned =>
        rcases haccess with rfl | rfl
        · exact ⟨rfl, .inl hfind, haligned⟩
        · exact ⟨rfl, .inr hfind, haligned⟩
  · rintro ⟨rfl, hfind | hfind, haligned⟩
    · exact .inr ⟨_, hfind, .unaligned (.inl rfl) haligned⟩
    · exact .inr ⟨_, hfind, .unaligned (.inr rfl) haligned⟩

theorem answer_execute_eq_unmapped_iff {faulty : Address} :
    (catalog.execute word context).answer = .error (.address (.unmapped faulty)) ↔
      faulty = context.dataAddress word ∧
        (catalog.find? word = some .lw ∨ catalog.find? word = some .sw) ∧
          Word.IsAligned (context.dataAddress word) ∧
            context.machine.memory.segmentAt (context.dataAddress word) = none := by
  refine answer_execute_eq_error_iff.trans ⟨?_, ?_⟩
  · rintro (⟨-, hfault⟩ | ⟨_, hfind, hrefuses⟩)
    · exact nomatch hfault
    · cases hrefuses with
      | unmapped haccess haligned hmapped =>
        rcases haccess with rfl | rfl
        · exact ⟨rfl, .inl hfind, haligned, hmapped⟩
        · exact ⟨rfl, .inr hfind, haligned, hmapped⟩
  · rintro ⟨rfl, hfind | hfind, haligned, hmapped⟩
    · exact .inr ⟨_, hfind, .unmapped (.inl rfl) haligned hmapped⟩
    · exact .inr ⟨_, hfind, .unmapped (.inr rfl) haligned hmapped⟩

theorem answer_execute_eq_readOnly_iff {faulty : Address} :
    (catalog.execute word context).answer = .error (.address (.readOnly faulty)) ↔
      faulty = context.dataAddress word ∧ catalog.find? word = some .sw ∧
        Word.IsAligned (context.dataAddress word) ∧
          ∃ segment,
            context.machine.memory.segmentAt (context.dataAddress word) = some segment ∧
              segment.writable = false := by
  refine answer_execute_eq_error_iff.trans ⟨?_, ?_⟩
  · rintro (⟨-, hfault⟩ | ⟨_, hfind, hrefuses⟩)
    · exact nomatch hfault
    · cases hrefuses with
      | readOnly haligned hmapped hwritable =>
        exact ⟨rfl, hfind, haligned, _, hmapped, hwritable⟩
  · rintro ⟨rfl, hfind, haligned, segment, hmapped, hwritable⟩
    exact .inr ⟨_, hfind, .readOnly haligned hmapped hwritable⟩

theorem answer_execute_ne_operandFormat (instruction : Instruction) (format : Format) :
    (catalog.execute word context).answer ≠ .error (.operandFormat instruction format) := by
  intro h
  rcases answer_execute_eq_error_iff.1 h with ⟨-, hfault⟩ | ⟨_, -, hrefuses⟩
  · exact nomatch hfault
  · exact nomatch hrefuses

theorem answer_execute_eq_abort_iff :
    (catalog.execute word context).answer = .error .abort ↔
      catalog.find? word = some .extract ∧
        (RiskTier.clamped (ImmediateFields.decode word).simm).firstOverflow ≤
          (context.draw extractionBound).1.toNat := by
  refine answer_execute_eq_error_iff.trans ⟨?_, ?_⟩
  · rintro (⟨-, hfault⟩ | ⟨_, hfind, hrefuses⟩)
    · exact nomatch hfault
    · cases hrefuses with
      | draw hdraw => exact ⟨hfind, hdraw⟩
  · rintro ⟨hfind, hdraw⟩
    exact .inr ⟨_, hfind, .draw hdraw⟩

theorem answer_execute_extract_of_draw_lt (hfind : catalog.find? word = some .extract)
    (hdraw : (context.draw extractionBound).1 < extractionBound) :
    (catalog.execute word context).answer = .ok .extract := by
  rw [execute_of_find?_eq_some hfind]
  exact congrArg (Except.map _) (Context.answer_extract_of_draw_lt hdraw)

/-- Nothing is abandoned with a source that keeps its bounds. -/
theorem answer_step_ne_abort (hsource : DrawSource.KeepsBounds ρ) (catalog : Catalog)
    (context : Context ρ ω) : (catalog.step context).answer ≠ .error .abort := by
  intro habort
  cases hread : context.machine.readWord context.pc with
  | error error =>
    rw [step_of_fetch_refused hread] at habort
    exact nomatch habort
  | ok word =>
    rw [step_of_fetched hread] at habort
    have hdraw := (answer_execute_eq_abort_iff.1 habort).2
    exact Nat.not_lt_of_le hdraw
      (RiskTier.lt_firstOverflow_of_lt_extractionBound _ (hsource _ _ (by decide)))

end Catalog

/-- What executing a word answers, by its opcode and function code, the exact
result of its arithmetic, the segment of its data address and its draw. -/
theorem answer_execute_full (word : Word) (context : Context ρ ω) :
    let answer := (Catalog.full.execute word context).answer
    let found := Catalog.full.find? word
    let address := context.dataAddress word
    let segment? := context.machine.memory.segmentAt address
    let draw := (context.draw extractionBound).1
    let tier := RiskTier.clamped (ImmediateFields.decode word).simm
    (∀ error, answer = .error (.undefined error) ↔
        error = ⟨word⟩ ∧ ∀ instruction ∈ Catalog.full.entries,
          ¬(instruction.spec.opcode = word.opcode ∧
            (word.opcode = 0 → instruction.spec.funct = some word.funct))) ∧
      (∀ instruction, answer = .error (.arithmeticOverflow instruction) ↔
        found = some instruction ∧
          ∃ value, context.exactResult? word instruction = some value ∧ ¬Word.IsSigned value) ∧
      (∀ faulty, answer = .error (.address (.unaligned faulty)) ↔
        faulty = address ∧ (found = some .lw ∨ found = some .sw) ∧ ¬Word.IsAligned address) ∧
      (∀ faulty, answer = .error (.address (.unmapped faulty)) ↔
        faulty = address ∧ (found = some .lw ∨ found = some .sw) ∧ Word.IsAligned address ∧
          segment? = none) ∧
      (∀ faulty, answer = .error (.address (.readOnly faulty)) ↔
        faulty = address ∧ found = some .sw ∧ Word.IsAligned address ∧
          ∃ segment, segment? = some segment ∧ segment.writable = false) ∧
      (∀ instruction format, answer ≠ .error (.operandFormat instruction format)) ∧
      (answer = .error .abort ↔ found = some .extract ∧ tier.firstOverflow ≤ draw.toNat) ∧
      (draw < extractionBound → draw.toNat < tier.firstOverflow) ∧
      ∀ instruction, answer = .ok instruction ↔
        found = some instruction ∧
          (∀ value, context.exactResult? word instruction = some value → Word.IsSigned value) ∧
            (instruction = .lw ∨ instruction = .sw →
              Word.IsAligned address ∧ ∃ segment, segment? = some segment ∧
                (instruction = .sw → segment.writable = true)) ∧
              (instruction = .extract → draw.toNat < tier.firstOverflow) := by
  intro answer found address segment? draw tier
  refine ⟨?_, ?_, ?_, ?_, ?_, ?_, Catalog.answer_execute_eq_abort_iff,
    tier.lt_firstOverflow_of_lt_extractionBound, ?_⟩
  · intro error
    rw [← Catalog.find?_eq_none_iff]
    exact Catalog.answer_execute_eq_undefined_iff
  · intro instruction
    exact Catalog.answer_execute_eq_overflow_iff
  · intro faulty
    exact Catalog.answer_execute_eq_unaligned_iff
  · intro faulty
    exact Catalog.answer_execute_eq_unmapped_iff
  · intro faulty
    exact Catalog.answer_execute_eq_readOnly_iff
  · intro instruction format
    exact Catalog.answer_execute_ne_operandFormat instruction format
  · intro instruction
    exact Catalog.answer_execute_eq_ok_iff.trans
      (and_congr_right fun _ => Context.forall_not_refuses_iff)

end FacilityIsa
