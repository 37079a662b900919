import FacilityIsa.Draws.Script
import FacilityIsa.Execution.Dispatch

/-!
# Failures change nothing

An instruction makes all its checks before its first effect. So one that fails,
be it for its word, its operands, an overflow or an address, leaves the whole
context as it found it: registers, program counter, memory, emitted lines and
the source of draws. Only a step moves the program counter before the
instruction is known, and it does so only after the fetch went through. An
extraction that is abandoned is no such failure, as it has taken its draw; it
has done nothing else.
-/

namespace FacilityIsa

theorem Attempt.answer_map_eq_error_iff {ε α β σ : Type} {attempt : Attempt ε α σ} {f : α → β}
    {error : ε} : (attempt.map f).answer = .error error ↔ attempt.answer = .error error := by
  rw [answer_map]
  cases attempt.answer <;> simp [Except.map]

variable {ρ ω α β : Type} [DrawSource ρ]

/-- The context after a failure: as it was, but for the draw of what was abandoned. -/
def Context.afterFault (context : Context ρ ω) : Fault → Context ρ ω
  | .abort => (context.draw extractionBound).2
  | _ => context

theorem Context.afterFault_of_ne_abort {fault : Fault} (h : fault ≠ .abort)
    (context : Context ρ ω) : context.afterFault fault = context := by
  cases fault <;> first | rfl | exact absurd rfl h

namespace Execution

/-- The execution fails without effect, or it is abandoned after its draw. -/
def Atomic (execution : Execution ρ ω α) (before : Context ρ ω) : Prop :=
  ∀ fault, execution.answer = .error fault → execution.after = before.afterFault fault

variable {before after : Context ρ ω}

theorem atomic_done (value : α) : Atomic (.done value after) before := by
  intro fault h
  exact nomatch h

theorem atomic_failed {fault : Fault} (h : after = before.afterFault fault) :
    Atomic (.failed fault after : Execution ρ ω α) before := by
  intro other hother
  cases hother
  exact h

theorem Atomic.map {execution : Execution ρ ω α} (h : execution.Atomic before) (f : α → β) :
    Atomic (Attempt.map f execution) before :=
  fun fault hfault => h fault (Attempt.answer_map_eq_error_iff.1 hfault)

end Execution

open Execution

namespace Context

variable (context : Context ρ ω)

theorem atomic_setChecked (instruction : Instruction) (register : Register)
    (value : Option Word) : (context.setChecked instruction register value).Atomic context := by
  cases value with
  | some value => exact atomic_done ()
  | none => exact atomic_failed rfl

theorem atomic_lw (fields : ImmediateFields) : (context.lw fields).Atomic context := by
  unfold lw
  split
  · exact atomic_done ()
  · exact atomic_failed rfl

theorem atomic_sw (fields : ImmediateFields) : (context.sw fields).Atomic context := by
  unfold sw
  dsimp only
  split
  · exact atomic_done ()
  · exact atomic_failed rfl

theorem atomic_extract (fields : ImmediateFields) : (context.extract fields).Atomic context := by
  unfold extract
  dsimp only
  split
  · exact atomic_done ()
  · exact atomic_failed rfl

end Context

variable [LineSink ω]

theorem Instruction.atomic_perform (instruction : Instruction) (operands : Operands)
    (context : Context ρ ω) : (instruction.perform operands context).Atomic context := by
  unfold Instruction.perform
  split
  case h_24 => exact atomic_failed rfl
  all_goals simp only [Context.add, Context.sub, Context.addi, Context.atomic_setChecked,
    Context.atomic_lw, Context.atomic_sw, Context.atomic_extract, atomic_done]

namespace Catalog

variable (catalog : Catalog) (context : Context ρ ω)

theorem atomic_execute (word : Word) : (catalog.execute word context).Atomic context := by
  cases hfind : catalog.find? word with
  | none =>
    rw [execute_of_find?_eq_none hfind]
    exact atomic_failed rfl
  | some instruction =>
    rw [execute_of_find?_eq_some hfind]
    exact (instruction.atomic_perform _ context).map _

variable {catalog context}

/-- A failed step either was refused its fetch and changed nothing, or fetched a
word and failed with the program counter past it. -/
theorem after_step_of_error {fault : Fault} (h : (catalog.step context).answer = .error fault) :
    (∃ error, context.machine.readWord context.pc = .error error ∧ fault = .address error ∧
        (catalog.step context).after = context) ∨
      ∃ word, context.machine.readWord context.pc = .ok word ∧
        (catalog.step context).after = (context.setPc (context.pc + 4)).afterFault fault := by
  cases hread : context.machine.readWord context.pc with
  | error error =>
    rw [step_of_fetch_refused hread] at h ⊢
    exact .inl ⟨error, rfl, (Except.error.inj h).symm, rfl⟩
  | ok word =>
    rw [step_of_fetched hread] at h ⊢
    exact .inr ⟨word, rfl, catalog.atomic_execute _ word fault h⟩

end Catalog

/-- Whatever the catalog, the operands, the source of draws and the sink, a
failure that is reported is seen in the answer only. -/
theorem failure_changes_nothing (catalog : Catalog) (context : Context ρ ω) :
    (∀ word, ∀ fault ≠ .abort, (catalog.execute word context).answer = .error fault →
        (catalog.execute word context).after = context) ∧
      (∀ (instruction : Instruction) operands, ∀ fault ≠ .abort,
        (instruction.perform operands context).answer = .error fault →
          (instruction.perform operands context).after = context) ∧
      ∀ fault ≠ .abort, (catalog.step context).answer = .error fault →
        (∃ error, context.machine.readWord context.pc = .error error ∧ fault = .address error ∧
            (catalog.step context).after = context) ∨
          ∃ word, context.machine.readWord context.pc = .ok word ∧
            (catalog.step context).after = context.setPc (context.pc + 4) := by
  refine ⟨?_, ?_, ?_⟩
  · intro word fault hreported hanswer
    rw [catalog.atomic_execute context word fault hanswer,
      context.afterFault_of_ne_abort hreported]
  · intro instruction operands fault hreported hanswer
    rw [instruction.atomic_perform operands context fault hanswer,
      context.afterFault_of_ne_abort hreported]
  · intro fault hreported hanswer
    rw [← Context.afterFault_of_ne_abort hreported (context.setPc (context.pc + 4))]
    exact Catalog.after_step_of_error hanswer

/-- An addition that overflows is fetched from the text and changes only the counter;
an unknown word and operands of another format change nothing. -/
theorem failure_changes_nothing_of_overflow :
    let loaded := { Machine.new {} with
      memory := (Machine.new {}).memory.store 0x00400000 0x01294020 }
    let context : Context Script Transcript :=
      ⟨loaded.setRegister 9 0x7FFFFFFF, { values := [3] }, {}⟩
    (Catalog.full.step context).answer = .error (.arithmeticOverflow .add) ∧
      (Catalog.full.step context).after = context.setPc 0x00400004 ∧
      (Catalog.full.execute 0xFC000000 context).after = context ∧
      (Instruction.add.perform (.jump ⟨0⟩) context).after = context := by
  intro loaded context
  have haligned : Word.IsAligned context.pc := by decide
  have hmapped : context.machine.memory.segmentAt context.pc = some Segment.text := rfl
  have hfetch : context.machine.readWord context.pc = .ok 0x01294020 :=
    Memory.read_store haligned hmapped
  have hfind : Catalog.full.find? 0x01294020 = some .add := by decide
  have hsum : addSigned? (context.register 9) (context.register 9) = none := by decide
  have hstep : (Catalog.full.step context).answer = .error (.arithmeticOverflow .add) := by
    rw [Catalog.step_of_fetched hfetch, Catalog.execute_of_find?_eq_some hfind]
    change ((Context.setChecked _ .add 8
      (addSigned? (context.register 9) (context.register 9))).map _).answer = _
    rw [hsum]
    rfl
  obtain ⟨hexecute, hperform, hfailed⟩ := failure_changes_nothing Catalog.full context
  refine ⟨hstep, ?_, hexecute _ (.undefined ⟨0xFC000000⟩) nofun rfl,
    hperform _ _ (.operandFormat .add .jump) nofun rfl⟩
  obtain ⟨error, hrefused, -⟩ | ⟨word, -, hafter⟩ :=
    hfailed (.arithmeticOverflow .add) nofun hstep
  · rw [hfetch] at hrefused
    exact nomatch hrefused
  · exact hafter

end FacilityIsa
