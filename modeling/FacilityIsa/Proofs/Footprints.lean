import FacilityIsa.Draws.Script
import FacilityIsa.Proofs.FaultCauses
import Mathlib.Data.Set.Insert

/-!
# Footprints

An instruction has a footprint on the machine: the registers and the words in memory
that it may change, and whether it may move the program counter. All else is as before,
`$zero` always. Beyond the machine an instruction makes a fixed number of draws, with fixed
bounds, and emits a fixed number of lines; only a meltdown emits one line more where it
raised the risk.
-/

namespace FacilityIsa

/-- The source after draws below one bound after another. -/
def DrawSource.after {ρ : Type} [DrawSource ρ] (draws : ρ) (bounds : List Word) : ρ :=
  bounds.foldl (fun draws bound => (DrawSource.below draws bound).2) draws

/-- The sink after lines emitted one after another. -/
def LineSink.emitAll {ω : Type} [LineSink ω] (output : ω) (lines : List String) : ω :=
  lines.foldl LineSink.emit output

theorem LineSink.emitAll_append {ω : Type} [LineSink ω] (output : ω) (first second : List String) :
    emitAll output (first ++ second) = emitAll (emitAll output first) second :=
  List.foldl_append

theorem Transcript.lines_emitAll (transcript : Transcript) (lines : List String) :
    (LineSink.emitAll transcript lines).lines = transcript.lines ++ lines.toArray := by
  induction lines generalizing transcript with
  | nil => simp [LineSink.emitAll]
  | cons line lines ih =>
    refine (ih (LineSink.emit transcript line)).trans ?_
    simp [LineSink.emit]

theorem Script.taken_after (script : Script) (bounds : List Word) :
    (DrawSource.after script bounds).taken = script.taken + bounds.length := by
  induction bounds generalizing script with
  | nil => rfl
  | cons bound bounds ih =>
    refine (ih (script.draw bound).2).trans ?_
    rw [taken_draw, List.length_cons]
    omega

/-- What of the machine an instruction may change. -/
structure Footprint where
  registers : Set Register := ∅
  addresses : Set Address := ∅
  /-- Whether the program counter may move. -/
  movesPc : Bool := false

/-- The bounds below which an instruction draws. -/
def Instruction.drawBounds : Instruction → List Word
  | .extract => [10]
  | .ordeal => [8]
  | _ => []

/-- How many lines an instruction may emit. -/
def Instruction.lineCounts : Instruction → Set Nat
  | .winst | .winsight | .wattach | .wrepress | .ordeal | .ego | .panic => {1}
  | .meltdown => {2, 3}
  | _ => {0}

/-- The registers that stand for agents. -/
def Register.agentBand : Set Register :=
  {register | 8 ≤ register ∧ register ≤ 15}

namespace Footprint

/-- All that lies outside the footprint is as before, and so is `$zero`. -/
structure Confines (footprint : Footprint) (before after : Machine) : Prop where
  register_eq : ∀ register ∉ footprint.registers,
    after.register register = before.register register
  register_zero : after.register Register.zero = before.register Register.zero
  pc_eq : footprint.movesPc = false → after.pc = before.pc
  word_eq : ∀ address ∉ footprint.addresses,
    after.memory.words[address]? = before.memory.words[address]?
  segments_eq : after.memory.segments = before.memory.segments
  config_eq : after.config = before.config

variable {footprint : Footprint} {first second third machine : Machine}

theorem Confines.refl (footprint : Footprint) (machine : Machine) :
    footprint.Confines machine machine := by
  constructor <;> simp

theorem Confines.trans (hfirst : footprint.Confines first second)
    (hsecond : footprint.Confines second third) : footprint.Confines first third where
  register_eq := by
    intro register hout
    rw [hsecond.register_eq register hout, hfirst.register_eq register hout]
  register_zero := hsecond.register_zero.trans hfirst.register_zero
  pc_eq := fun hpc => (hsecond.pc_eq hpc).trans (hfirst.pc_eq hpc)
  word_eq := by
    intro address hout
    rw [hsecond.word_eq address hout, hfirst.word_eq address hout]
  segments_eq := hsecond.segments_eq.trans hfirst.segments_eq
  config_eq := hsecond.config_eq.trans hfirst.config_eq

theorem confines_setRegister {register : Register} (h : register ∈ footprint.registers)
    (machine : Machine) (value : Word) :
    footprint.Confines machine (machine.setRegister register value) where
  register_eq := by
    intro other hout
    have hne : other ≠ register := fun hsame => hout (hsame ▸ h)
    simp [Machine.register_setRegister, hne]
  register_zero := by
    rw [Machine.register_setRegister, if_neg]
    rintro ⟨rfl, hzero⟩
    exact hzero rfl
  pc_eq := fun _ => machine.pc_setRegister register value
  word_eq := fun _ _ => rfl
  segments_eq := rfl
  config_eq := rfl

theorem confines_setPc (h : footprint.movesPc = true) (machine : Machine) (address : Address) :
    footprint.Confines machine (machine.setPc address) where
  register_eq := fun _ _ => rfl
  register_zero := rfl
  pc_eq := fun hpc => by simp [h] at hpc
  word_eq := fun _ _ => rfl
  segments_eq := rfl
  config_eq := rfl

theorem confines_writeWord {address : Address} {word : Word} {written : Machine}
    (h : address ∈ footprint.addresses) (hwrite : machine.writeWord address word = .ok written) :
    footprint.Confines machine written := by
  obtain ⟨-, rfl⟩ := (Machine.writeWord_eq_ok_iff _).1 hwrite
  refine ⟨fun _ _ => rfl, rfl, fun _ => rfl, ?_, rfl, rfl⟩
  intro other hout
  have hne : address ≠ other := fun hsame => hout (hsame ▸ h)
  unfold Memory.store
  split
  · simp [Std.ExtHashMap.getElem?_erase, hne]
  · simp [Std.ExtHashMap.getElem?_insert, hne]

end Footprint

open Footprint

namespace Context

section Machines

variable {ρ ω : Type} (context : Context ρ ω)

/-- The footprint of an instruction on operands of its own format. -/
def footprint : Instruction → Operands → Footprint
  | .add, .register fields | .sub, .register fields | .mul, .register fields
  | .and, .register fields | .or, .register fields | .slt, .register fields =>
    { registers := {fields.rd} }
  | .addi, .immediate fields | .lw, .immediate fields | .extract, .immediate fields
  | .winst, .immediate fields | .winsight, .immediate fields | .wattach, .immediate fields
  | .wrepress, .immediate fields | .ego, .branch fields =>
    { registers := {fields.rt} }
  | .panic, .immediate fields => { registers := {fields.rs} }
  | .suppress, .immediate _ => { registers := {Register.v0} }
  | .ordeal, .immediate _ => { registers := Register.agentBand }
  | .meltdown, .immediate _ =>
    { registers := Register.agentBand
      addresses := {context.register Register.globalPointer + 8} }
  | .sw, .immediate fields => { addresses := {context.register fields.rs + fields.simm} }
  | .jal, .jump _ => { registers := {Register.returnAddress}, movesPc := true }
  | .j, .jump _ | .beq, .branch _ | .bne, .branch _ => { movesPc := true }
  | _, _ => {}

variable {context}

theorem confines_setChecked {footprint : Footprint} {register : Register}
    (h : register ∈ footprint.registers) (instruction : Instruction) (value : Option Word) :
    footprint.Confines context.machine
      (context.setChecked instruction register value).after.machine := by
  cases value with
  | some value => exact confines_setRegister h _ value
  | none => exact .refl _ _

theorem confines_lw {footprint : Footprint} {fields : ImmediateFields}
    (h : fields.rt ∈ footprint.registers) :
    footprint.Confines context.machine (context.lw fields).after.machine := by
  unfold lw
  split
  · exact confines_setRegister h _ _
  · exact .refl _ _

theorem confines_sw {footprint : Footprint} {fields : ImmediateFields}
    (h : context.register fields.rs + fields.simm ∈ footprint.addresses) :
    footprint.Confines context.machine (context.sw fields).after.machine := by
  unfold sw
  dsimp only
  split
  · next hwrite => exact confines_writeWord h hwrite
  · exact .refl _ _

theorem confines_branch {footprint : Footprint} (h : footprint.movesPc = true)
    (fields : ImmediateFields) :
    footprint.Confines context.machine (context.beq fields).machine ∧
      footprint.Confines context.machine (context.bne fields).machine := by
  unfold beq bne
  split
  · exact ⟨confines_setPc h _ _, .refl _ _⟩
  · exact ⟨.refl _ _, confines_setPc h _ _⟩

/-- An instruction of which nothing is heard: it draws no number and emits no line. -/
def IsSilent (before after : Context ρ ω) : Prop :=
  after.draws = before.draws ∧ after.output = before.output

theorem isSilent_setChecked (instruction : Instruction) (register : Register)
    (value : Option Word) :
    context.IsSilent (context.setChecked instruction register value).after := by
  cases value <;> exact ⟨rfl, rfl⟩

theorem isSilent_lw (fields : ImmediateFields) : context.IsSilent (context.lw fields).after := by
  unfold lw
  split <;> exact ⟨rfl, rfl⟩

theorem isSilent_sw (fields : ImmediateFields) : context.IsSilent (context.sw fields).after := by
  unfold sw
  dsimp only
  split <;> exact ⟨rfl, rfl⟩

theorem isSilent_branch (fields : ImmediateFields) :
    context.IsSilent (context.beq fields) ∧ context.IsSilent (context.bne fields) := by
  unfold beq bne
  split <;> exact ⟨⟨rfl, rfl⟩, ⟨rfl, rfl⟩⟩

theorem mem_agents_iff {register : Register} :
    register ∈ agents ↔ register ∈ Register.agentBand := by
  have hband : ∀ register : Register, register ∈ agents ↔ 8 ≤ register ∧ register ≤ 15 := by
    decide
  exact hband register

theorem struckAgent_mem_agentBand (draw : Word) : struckAgent draw ∈ Register.agentBand := by
  have hnat : (struckAgent draw).toNat = 8 + draw.toNat % 8 := by
    simp only [struckAgent, agent, Register.ofNat, agentCount, BitVec.toNat_ofNat]
    omega
  have height : (8 : Register).toNat = 8 := rfl
  have hfifteen : (15 : Register).toNat = 15 := rfl
  change (8 : Register).toNat ≤ _ ∧ _ ≤ (15 : Register).toNat
  omega

theorem confines_penalizeAgents {footprint : Footprint}
    (h : ∀ agent ∈ Register.agentBand, agent ∈ footprint.registers) (context : Context ρ ω) :
    footprint.Confines context.machine context.penalizeAgents.machine := by
  have hagents : ∀ agent ∈ agents, agent ∈ footprint.registers :=
    fun agent hmem => h agent (mem_agents_iff.1 hmem)
  unfold penalizeAgents
  generalize agents = remaining at hagents
  induction remaining generalizing context with
  | nil => exact .refl _ _
  | cons agent remaining ih =>
    have hfirst := confines_setRegister (hagents agent (.head _)) context.machine
      (penalized (context.register agent))
    have hrest := ih (context.setRegister agent (penalized (context.register agent)))
      fun agent hmem => hagents agent (.tail _ hmem)
    exact hfirst.trans hrest

theorem isSilent_penalizeAgents (context : Context ρ ω) :
    context.IsSilent context.penalizeAgents := by
  unfold penalizeAgents
  generalize agents = remaining
  induction remaining generalizing context with
  | nil => exact ⟨rfl, rfl⟩
  | cons agent remaining ih =>
    exact ih (context.setRegister agent (penalized (context.register agent)))

section Departments

variable [LineSink ω] (context : Context ρ ω) (department : Register)

/-- A meltdown before it turns to the risk counter. -/
def penalizeDepartment : Context ρ ω :=
  (context.emit (meltdownLine department)).penalizeAgents.emit (penaltyLine meltdownPenalty)

theorem confines_penalizeDepartment {footprint : Footprint}
    (h : ∀ agent ∈ Register.agentBand, agent ∈ footprint.registers) :
    footprint.Confines context.machine (context.penalizeDepartment department).machine := by
  have hpenalties := confines_penalizeAgents h (context.emit (meltdownLine department))
  rw [machine_emit] at hpenalties
  rw [penalizeDepartment, machine_emit]
  exact hpenalties

theorem draws_penalizeDepartment :
    (context.penalizeDepartment department).draws = context.draws := by
  have hsilent := (context.emit (meltdownLine department)).isSilent_penalizeAgents.1
  rw [penalizeDepartment, draws_emit, hsilent, draws_emit]

theorem output_penalizeDepartment :
    (context.penalizeDepartment department).output =
      LineSink.emitAll context.output [meltdownLine department, penaltyLine meltdownPenalty] := by
  have hsilent := (context.emit (meltdownLine department)).isSilent_penalizeAgents.2
  rw [penalizeDepartment, output_emit, hsilent, output_emit]
  rfl

end Departments

/-- An ordeal once it is decided which agent it strikes. -/
def strike [LineSink ω] (context : Context ρ ω) (fields : ImmediateFields) (struck : Register) :
    Context ρ ω :=
  (context.setRegister struck
    (context.register struck - (OrdealLevel.clamped fields.simm).severity)).emit
      (ordealLine fields.simm struck)

end Machines

end Context

variable {ρ ω : Type} [DrawSource ρ] [LineSink ω]

namespace Context

/-- One agent alone has lost the points of the ordeal's level, and the one line names it. -/
def StrikesOne (before : Context ρ ω) (fields : ImmediateFields) (after : Context ρ ω) : Prop :=
  ∃ struck : Register, 8 ≤ struck ∧ struck ≤ 15 ∧
    (∀ register, after.register register ≠ before.register register ↔ register = struck) ∧
    after.register struck = before.register struck - (OrdealLevel.clamped fields.simm).severity ∧
    after.output = LineSink.emit before.output (ordealLine fields.simm struck)

/-- What an instruction on operands leaves, compared with what it was executed on. -/
structure Confined (before : Context ρ ω) (instruction : Instruction) (operands : Operands)
    (after : Context ρ ω) : Prop where
  confines : (before.footprint instruction operands).Confines before.machine after.machine
  draws_eq : after.draws = DrawSource.after before.draws instruction.drawBounds
  output_eq : ∃ lines : List String, lines.length ∈ instruction.lineCounts ∧
    after.output = LineSink.emitAll before.output lines
  strikes : ∀ fields, instruction = .ordeal → operands = .immediate fields →
    before.StrikesOne fields after

variable {before after : Context ρ ω} {instruction : Instruction} {operands : Operands}

theorem Confined.of_isSilent
    (hconfines : (before.footprint instruction operands).Confines before.machine after.machine)
    (hsilent : before.IsSilent after) (hbounds : instruction.drawBounds = [])
    (hcounts : instruction.lineCounts = {0}) : before.Confined instruction operands after where
  confines := hconfines
  draws_eq := by simp [hsilent.1, hbounds, DrawSource.after]
  output_eq := ⟨[], by simp [hcounts], hsilent.2⟩
  strikes := by
    rintro fields rfl
    exact nomatch hbounds

theorem Confined.of_emit {line : String}
    (hconfines : (before.footprint instruction operands).Confines before.machine after.machine)
    (hsilent : before.IsSilent after) (hbounds : instruction.drawBounds = [])
    (hcounts : instruction.lineCounts = {1}) :
    before.Confined instruction operands (after.emit line) where
  confines := hconfines
  draws_eq := by simp [emit, hsilent.1, hbounds, DrawSource.after]
  output_eq := ⟨[line], by simp [hcounts], congrArg (LineSink.emit · line) hsilent.2⟩
  strikes := by
    rintro fields rfl
    exact nomatch hbounds

theorem confined_extract (context : Context ρ ω) (fields : ImmediateFields) :
    context.Confined .extract (.immediate fields) (context.extract fields).after := by
  unfold extract
  dsimp only
  split
  · exact ⟨confines_setRegister rfl _ _, rfl, ⟨[], rfl, rfl⟩, nofun⟩
  · exact ⟨.refl _ _, rfl, ⟨[], rfl, rfl⟩, nofun⟩

theorem ordeal_eq_strike (context : Context ρ ω) (fields : ImmediateFields) :
    context.ordeal fields =
      (context.draw 8).2.strike fields (struckAgent (context.draw 8).1) := rfl

theorem strikesOne_ordeal (context : Context ρ ω) (fields : ImmediateFields) :
    context.StrikesOne fields (context.ordeal fields) := by
  rw [ordeal_eq_strike]
  let struck := struckAgent (context.draw 8).1
  have hband : 8 ≤ struck ∧ struck ≤ 15 := struckAgent_mem_agentBand _
  have hzero : struck ≠ Register.zero := by
    intro hsame
    exact absurd (hsame ▸ hband.1) (by decide)
  have hregister : ∀ register, ((context.draw 8).2.strike fields struck).register register =
      if register = struck then
        context.register struck - (OrdealLevel.clamped fields.simm).severity
      else context.register register := by
    intro register
    refine (register_setRegister _ _ _ _).trans ?_
    simp only [ne_eq, hzero, not_false_eq_true, and_true]
    rfl
  have hlowered : context.register struck - (OrdealLevel.clamped fields.simm).severity ≠
      context.register struck := by
    cases OrdealLevel.clamped fields.simm <;> simp only [OrdealLevel.severity] <;> bv_omega
  refine ⟨struck, hband.1, hband.2, ?_, ?_, rfl⟩
  · intro register
    rw [hregister]
    split
    · next hsame => exact iff_of_true (hsame ▸ hlowered) hsame
    · next hne => exact iff_of_false (not_not_intro rfl) hne
  · rw [hregister, if_pos rfl]

theorem confined_ordeal (context : Context ρ ω) (fields : ImmediateFields) :
    context.Confined .ordeal (.immediate fields) (context.ordeal fields) where
  confines := confines_setRegister (struckAgent_mem_agentBand _) _ _
  draws_eq := rfl
  output_eq := ⟨[_], rfl, rfl⟩
  strikes := by
    rintro _ - ⟨⟩
    exact context.strikesOne_ordeal fields

theorem confined_meltdown (context : Context ρ ω) (fields : ImmediateFields) :
    context.Confined .meltdown (.immediate fields) (context.meltdown fields) := by
  have hconfines : (context.footprint .meltdown (.immediate fields)).Confines context.machine
      (context.penalizeDepartment fields.rs).machine :=
    context.confines_penalizeDepartment fields.rs fun _ hband => hband
  have hdraws := context.draws_penalizeDepartment fields.rs
  have hlines := context.output_penalizeDepartment fields.rs
  have haddress : (context.penalizeDepartment fields.rs).register Register.globalPointer +
      riskCounterOffset ∈ (context.footprint .meltdown (.immediate fields)).addresses := by
    have hpointer := hconfines.register_eq Register.globalPointer (by
      change ¬(8 ≤ Register.globalPointer ∧ Register.globalPointer ≤ 15)
      decide)
    exact congrArg (· + riskCounterOffset) hpointer
  rw [meltdown, ← penalizeDepartment]
  split
  · next raised hraise =>
    unfold Machine.raiseRisk at hraise
    split at hraise
    · refine ⟨hconfines.trans (confines_writeWord haddress hraise), ?_,
        ⟨[meltdownLine fields.rs, penaltyLine meltdownPenalty, riskLine], .inr rfl, ?_⟩, nofun⟩
      · rw [draws_emit, hdraws]
        rfl
      · rw [output_emit, hlines]
        rfl
    · exact nomatch hraise
  · exact ⟨hconfines, hdraws, ⟨_, .inl rfl, hlines⟩, nofun⟩

end Context

/-- An instruction on operands of its own format keeps to its footprint, whether or not it
completes. -/
theorem Instruction.confined_perform {instruction : Instruction} {operands : Operands}
    (h : operands.format = instruction.format) (context : Context ρ ω) :
    context.Confined instruction operands (instruction.perform operands context).after := by
  cases operands with
  | register fields =>
    cases instruction with
    | add | sub =>
      exact .of_isSilent (Context.confines_setChecked rfl _ _)
        (Context.isSilent_setChecked _ _ _) rfl rfl
    | mul | and | or | slt =>
      exact .of_isSilent (confines_setRegister rfl _ _) ⟨rfl, rfl⟩ rfl rfl
    | _ => exact nomatch h
  | jump fields =>
    cases instruction with
    | j => exact .of_isSilent (confines_setPc rfl _ _) ⟨rfl, rfl⟩ rfl rfl
    | jal =>
      have hlink : (context.footprint .jal (.jump fields)).Confines context.machine
          (context.machine.link Register.returnAddress) := confines_setRegister rfl _ _
      exact .of_isSilent (hlink.trans (confines_setPc rfl _ _)) ⟨rfl, rfl⟩ rfl rfl
    | _ => exact nomatch h
  | branch fields =>
    cases instruction with
    | beq =>
      exact .of_isSilent (Context.confines_branch rfl fields).1
        (Context.isSilent_branch fields).1 rfl rfl
    | bne =>
      exact .of_isSilent (Context.confines_branch rfl fields).2
        (Context.isSilent_branch fields).2 rfl rfl
    | ego => exact .of_emit (confines_setRegister rfl _ _) ⟨rfl, rfl⟩ rfl rfl
    | _ => exact nomatch h
  | immediate fields =>
    cases instruction with
    | addi =>
      exact .of_isSilent (Context.confines_setChecked rfl _ _)
        (Context.isSilent_setChecked _ _ _) rfl rfl
    | lw => exact .of_isSilent (Context.confines_lw rfl) (Context.isSilent_lw fields) rfl rfl
    | sw => exact .of_isSilent (Context.confines_sw rfl) (Context.isSilent_sw fields) rfl rfl
    | suppress => exact .of_isSilent (confines_setRegister rfl _ _) ⟨rfl, rfl⟩ rfl rfl
    | winst | winsight | wattach | wrepress | panic =>
      exact .of_emit (confines_setRegister rfl _ _) ⟨rfl, rfl⟩ rfl rfl
    | extract => exact context.confined_extract fields
    | ordeal => exact context.confined_ordeal fields
    | meltdown => exact context.confined_meltdown fields
    | _ => exact nomatch h

/-- Whatever the machine, the sink and the numbers drawn, an instruction that was executed has
changed nothing outside its footprint, has made the draws and emitted as many lines as
instructions of its kind do, and if it was an ordeal has struck one agent. A line never
alters those before it. -/
theorem execution_stays_in_footprint (catalog : Catalog) (context : Context ρ ω) :
    (∀ word instruction, (catalog.execute word context).answer = .ok instruction →
        context.Confined instruction (instruction.operandsOf word)
          (catalog.execute word context).after) ∧
      (∀ (instruction : Instruction) (operands : Operands),
        operands.format = instruction.format →
          context.Confined instruction operands (instruction.perform operands context).after) ∧
      ∀ (transcript : Transcript) (lines : List String),
        (LineSink.emitAll transcript lines).lines = transcript.lines ++ lines.toArray := by
  refine ⟨?_, fun instruction operands h => Instruction.confined_perform h context,
    Transcript.lines_emitAll⟩
  intro word instruction h
  have hfind := (Catalog.answer_execute_eq_ok_iff.1 h).1
  rw [Catalog.execute_of_find?_eq_some hfind, Attempt.after_map]
  exact Instruction.confined_perform (Operands.format_decode _ _) context

/-- An ordeal keeps to the agents though the number drawn is far out of bounds, and wraps the
points of the one it strikes. -/
theorem execution_stays_in_footprint_of_greatest_draw :
    let context : Context Script Transcript :=
      ⟨(Machine.new {}).setRegister 15 7, { values := [0xFFFFFFFF], raw := true },
        { lines := #["Opened"] }⟩
    let struck := (Catalog.full.execute 0x58000003 context).after
    let melted := (Instruction.meltdown.perform (.immediate ⟨4, 5, 6⟩) context).after
    (Catalog.full.execute 0x58000003 context).answer = .ok .ordeal ∧
      context.Confined .ordeal (Instruction.ordeal.operandsOf 0x58000003) struck ∧
      struck.register 15 = 7 - 40 ∧ struck.draws.taken = 1 ∧ struck.output.lines.size = 2 ∧
      context.Confined .meltdown (.immediate ⟨4, 5, 6⟩) melted ∧
      melted.register Register.globalPointer = context.register Register.globalPointer := by
  intro context struck melted
  have hfind : Catalog.full.find? 0x58000003 = some .ordeal := by decide
  have hordeal : (Catalog.full.execute 0x58000003 context).answer = .ok .ordeal := by
    rw [Catalog.execute_of_find?_eq_some hfind]
    rfl
  obtain ⟨hexecute, hperform, -⟩ := execution_stays_in_footprint Catalog.full context
  have hmelted := hperform .meltdown (.immediate ⟨4, 5, 6⟩) rfl
  refine ⟨hordeal, hexecute _ _ hordeal, by decide, by decide, by decide, hmelted, ?_⟩
  refine hmelted.confines.register_eq _ ?_
  change ¬(8 ≤ Register.globalPointer ∧ Register.globalPointer ≤ 15)
  decide

end FacilityIsa
