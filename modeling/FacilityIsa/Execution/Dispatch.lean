import FacilityIsa.Execution.Arithmetic
import FacilityIsa.Execution.Control
import FacilityIsa.Execution.MemoryAccess
import FacilityIsa.Execution.Thematic

/-!
# Dispatch

Performing an instruction on operands of its own format has the effect of the
instruction, and on any other operands it is refused. Executing a word finds
its instruction in a catalog and performs it on the operands in the word. A
step reads the word at the program counter, moves the counter past it and
executes it; when the read is refused the counter does not move.
-/

namespace FacilityIsa

variable {ρ ω : Type} [DrawSource ρ] [LineSink ω]

/-- Performs an instruction on operands. -/
def Instruction.perform (instruction : Instruction) (operands : Operands)
    (context : Context ρ ω) : Execution ρ ω Unit :=
  match instruction, operands with
  | .add, .register fields => context.add fields
  | .sub, .register fields => context.sub fields
  | .mul, .register fields => .done () (context.mul fields)
  | .and, .register fields => .done () (context.and fields)
  | .or, .register fields => .done () (context.or fields)
  | .slt, .register fields => .done () (context.slt fields)
  | .j, .jump fields => .done () (context.j fields)
  | .jal, .jump fields => .done () (context.jal fields)
  | .beq, .branch fields => .done () (context.beq fields)
  | .bne, .branch fields => .done () (context.bne fields)
  | .addi, .immediate fields => context.addi fields
  | .lw, .immediate fields => context.lw fields
  | .sw, .immediate fields => context.sw fields
  | .extract, .immediate fields => context.extract fields
  | .winst, .immediate fields => .done () (context.work .instinct fields)
  | .winsight, .immediate fields => .done () (context.work .insight fields)
  | .wattach, .immediate fields => .done () (context.work .attachment fields)
  | .wrepress, .immediate fields => .done () (context.work .repression fields)
  | .suppress, .immediate fields => .done () (context.suppress fields)
  | .ordeal, .immediate fields => .done () (context.ordeal fields)
  | .ego, .branch fields => .done () (context.ego fields)
  | .panic, .immediate fields => .done () (context.panic fields)
  | .meltdown, .immediate fields => .done () (context.meltdown fields)
  | instruction, operands => .failed (.operandFormat instruction operands.format) context

theorem Instruction.perform_of_format_ne {instruction : Instruction} {operands : Operands}
    (h : operands.format ≠ instruction.format) (context : Context ρ ω) :
    instruction.perform operands context =
      .failed (.operandFormat instruction operands.format) context := by
  cases instruction <;> cases operands <;> first | rfl | exact absurd rfl h

namespace Catalog

/-- Executes a word as if it had just been fetched. -/
def execute (catalog : Catalog) (word : Word) (context : Context ρ ω) :
    Execution ρ ω Instruction :=
  match catalog.find? word with
  | none => .failed (.undefined ⟨word⟩) context
  | some instruction =>
    (instruction.perform (instruction.operandsOf word) context).map fun _ => instruction

/-- Fetches and executes the word at the program counter. -/
def step (catalog : Catalog) (context : Context ρ ω) : Execution ρ ω Instruction :=
  let pc := context.pc
  match context.machine.readWord pc with
  | .error error => .failed (.address error) context
  | .ok word => catalog.execute word (context.setPc (Word.next pc))

variable {catalog : Catalog} {context : Context ρ ω} {word : Word}

theorem execute_of_find?_eq_none (h : catalog.find? word = none) :
    catalog.execute word context = .failed (.undefined ⟨word⟩) context := by
  simp only [execute, h]

theorem execute_of_find?_eq_some {instruction : Instruction}
    (h : catalog.find? word = some instruction) :
    catalog.execute word context =
      (instruction.perform (instruction.operandsOf word) context).map fun _ => instruction := by
  simp only [execute, h]

theorem step_of_fetch_refused {error : AddressError}
    (h : context.machine.readWord context.pc = .error error) :
    catalog.step context = .failed (.address error) context := by
  simp only [step, h]

theorem step_of_fetched (h : context.machine.readWord context.pc = .ok word) :
    catalog.step context = catalog.execute word (context.setPc (Word.next context.pc)) := by
  simp only [step, h]

end Catalog
end FacilityIsa
