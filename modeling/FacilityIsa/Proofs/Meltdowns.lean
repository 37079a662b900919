import FacilityIsa.Proofs.Footprints

/-!
# Meltdowns one after another

A meltdown takes ten points from each agent, but none below zero, and raises the risk counter
by one, but not above the ceiling. So many meltdowns take ten points each and raise the
counter by their number, both cut off only once. Where memory refuses the counter, be it for
its address, for want of a segment or because the segment is read-only, the penalties and two
lines of three remain, and the instruction completes all the same.
-/

namespace FacilityIsa

theorem toInt_penalized (value : Word) : (penalized value).toInt = max 0 (value.toInt - 10) := by
  have hpenalty : meltdownPenalty.toInt = 10 := rfl
  have hvalue := Word.isSigned_toInt value
  unfold penalized
  split
  · next h =>
    rw [BitVec.sle_iff_toInt_le, hpenalty] at h
    rw [Word.toInt_sub_of_isSigned, hpenalty]
    · omega
    · unfold Word.IsSigned at *
      omega
  · next h =>
    rw [BitVec.sle_iff_toInt_le, hpenalty] at h
    change (0 : Int) = _
    omega

theorem toInt_raisedRisk (risk : Word) : (raisedRisk risk).toInt = min 4 (risk.toInt + 1) := by
  have hceiling : riskCeiling.toInt = 4 := rfl
  have hone : (1 : Word).toInt = 1 := rfl
  have hrisk := Word.isSigned_toInt risk
  unfold raisedRisk
  split
  · next h =>
    rw [BitVec.slt_iff_toInt_lt, hceiling] at h
    rw [Word.toInt_add_of_isSigned, hone]
    · omega
    · unfold Word.IsSigned at *
      omega
  · next h =>
    rw [BitVec.slt_iff_toInt_lt, hceiling] at h
    omega

theorem length_flatMap_of_forall {lines : Register → List String} (each : Nat)
    (h : ∀ department, (lines department).length = each) (departments : List Register) :
    (departments.flatMap lines).length = each * departments.length := by
  induction departments with
  | nil => rfl
  | cons department departments ih =>
    rw [List.flatMap_cons, List.length_append, h, ih, List.length_cons, Nat.mul_succ, Nat.add_comm]

theorem Machine.raiseRisk_eq_ok_iff {machine raised : Machine} {address : Address} :
    machine.raiseRisk address = .ok raised ↔
      (∃ segment, machine.memory.access address = .ok segment ∧ segment.writable = true) ∧
        { machine with
          memory := machine.memory.store address
            (raisedRisk (machine.memory.wordAt address)) } = raised := by
  unfold raiseRisk readWord Memory.read
  cases haccess : machine.memory.access address with
  | error error => simp [Except.map]
  | ok segment =>
    simp only [Except.map]
    rw [writeWord_eq_ok_iff, haccess]

namespace Context

section Penalties

variable {ρ ω : Type} (context : Context ρ ω)

/-- Each register of a list without repetitions is penalized once. -/
theorem register_foldl_penalized {remaining : List Register} (hnodup : remaining.Nodup)
    (hzero : Register.zero ∉ remaining) (register : Register) :
    (remaining.foldl (fun context agent =>
        context.setRegister agent (penalized (context.register agent))) context).register
          register =
      if register ∈ remaining then penalized (context.register register)
      else context.register register := by
  induction remaining generalizing context with
  | nil => rfl
  | cons agent remaining ih =>
    obtain ⟨hagent, hnodup⟩ := List.nodup_cons.1 hnodup
    rw [List.mem_cons, not_or] at hzero
    obtain ⟨hne, hzero⟩ := hzero
    rw [List.foldl_cons, ih _ hnodup hzero, register_setRegister]
    by_cases hsame : register = agent
    · subst hsame
      simp [hagent, Ne.symm hne]
    · simp [hsame]

theorem register_penalizeAgents (register : Register) :
    context.penalizeAgents.register register =
      if register ∈ agents then penalized (context.register register)
      else context.register register :=
  context.register_foldl_penalized (by decide) (by decide) register

theorem memory_penalizeAgents :
    context.penalizeAgents.machine.memory = context.machine.memory := by
  unfold penalizeAgents
  generalize agents = remaining
  induction remaining generalizing context with
  | nil => rfl
  | cons agent remaining ih =>
    exact ih (context.setRegister agent (penalized (context.register agent)))

/-- Where the risk counter lies. -/
def riskAddress : Address :=
  context.register Register.globalPointer + riskCounterOffset

/-- Memory admits a store to the risk counter. -/
def CountsRisk : Prop :=
  Word.IsAligned context.riskAddress ∧
    ∃ segment, context.machine.memory.segmentAt context.riskAddress = some segment ∧
      segment.writable = true

theorem register_withMemory (memory : Memory) (register : Register) :
    { context with machine := { context.machine with memory } }.register register =
      context.register register := rfl

variable [LineSink ω]

theorem register_emit (line : String) (register : Register) :
    (context.emit line).register register = context.register register := rfl

theorem register_penalizeDepartment (department register : Register) :
    (context.penalizeDepartment department).register register =
      if register ∈ agents then penalized (context.register register)
      else context.register register := by
  rw [penalizeDepartment, register_emit, register_penalizeAgents, register_emit]

theorem memory_penalizeDepartment (department : Register) :
    (context.penalizeDepartment department).machine.memory = context.machine.memory := by
  rw [penalizeDepartment, machine_emit, memory_penalizeAgents, machine_emit]

/-- The global pointer is no agent, so the counter stays in its place. -/
theorem riskAddress_penalizeDepartment (department : Register) :
    (context.penalizeDepartment department).riskAddress = context.riskAddress := by
  have hpointer : Register.globalPointer ∉ agents := by decide
  rw [riskAddress, register_penalizeDepartment, if_neg hpointer, riskAddress]

variable {context} {fields : ImmediateFields}

theorem raiseRisk_eq_ok_iff (department : Register) {raised : Machine} :
    (context.penalizeDepartment department).machine.raiseRisk
        (context.penalizeDepartment department).riskAddress = .ok raised ↔
      context.CountsRisk ∧
        { (context.penalizeDepartment department).machine with
          memory := context.machine.memory.store context.riskAddress
            (raisedRisk (context.machine.memory.wordAt context.riskAddress)) } = raised := by
  rw [riskAddress_penalizeDepartment, Machine.raiseRisk_eq_ok_iff, memory_penalizeDepartment]
  simp only [Memory.access_eq_ok_iff, CountsRisk, and_assoc, exists_and_left]

theorem meltdown_of_countsRisk (h : context.CountsRisk) :
    context.meltdown fields =
      { context.penalizeDepartment fields.rs with
        machine :=
          { (context.penalizeDepartment fields.rs).machine with
            memory := context.machine.memory.store context.riskAddress
              (raisedRisk (context.machine.memory.wordAt context.riskAddress)) } }.emit
        riskLine := by
  unfold meltdown
  dsimp only
  split
  · next raised hraise =>
    obtain ⟨-, rfl⟩ := (raiseRisk_eq_ok_iff fields.rs).1 hraise
    rfl
  · next error hraise =>
    exact nomatch hraise.symm.trans ((raiseRisk_eq_ok_iff fields.rs).2 ⟨h, rfl⟩)

theorem meltdown_of_not_countsRisk (h : ¬context.CountsRisk) :
    context.meltdown fields = context.penalizeDepartment fields.rs := by
  unfold meltdown
  dsimp only
  split
  · next raised hraise =>
    exact absurd ((raiseRisk_eq_ok_iff fields.rs).1 hraise).1 h
  · rfl

theorem register_meltdown (context : Context ρ ω) (fields : ImmediateFields)
    (register : Register) :
    (context.meltdown fields).register register =
      if register ∈ agents then penalized (context.register register)
      else context.register register := by
  by_cases h : context.CountsRisk
  · rw [meltdown_of_countsRisk h, register_emit, register_withMemory, register_penalizeDepartment]
  · rw [meltdown_of_not_countsRisk h, register_penalizeDepartment]

end Penalties

section Repetition

variable {ρ ω : Type} {before middle after : Context ρ ω}

/-- The agents and the risk counter. -/
def meltdownFootprint (context : Context ρ ω) : Footprint where
  registers := Register.agentBand
  addresses := {context.riskAddress}

theorem riskAddress_eq_of_confines
    (h : before.meltdownFootprint.Confines before.machine after.machine) :
    after.riskAddress = before.riskAddress := by
  have hpointer : Register.globalPointer ∉ Register.agentBand := by
    rw [← mem_agents_iff]
    decide
  exact congrArg (· + riskCounterOffset) (h.register_eq _ hpointer)

theorem countsRisk_iff_of_confines
    (h : before.meltdownFootprint.Confines before.machine after.machine) :
    after.CountsRisk ↔ before.CountsRisk := by
  simp only [CountsRisk, riskAddress_eq_of_confines h, Memory.segmentAt, h.segments_eq]

variable [LineSink ω]

/-- What is left after one meltdown or more, in one department after another. -/
structure MeltsDown (before : Context ρ ω) (departments : List Register)
    (after : Context ρ ω) : Prop where
  agent_toInt : ∀ register ∈ Register.agentBand, (after.register register).toInt =
    max 0 ((before.register register).toInt - 10 * departments.length)
  confines : before.meltdownFootprint.Confines before.machine after.machine
  draws_eq : after.draws = before.draws
  counted : before.CountsRisk →
    (after.machine.memory.wordAt before.riskAddress).toInt =
        min 4 ((before.machine.memory.wordAt before.riskAddress).toInt + departments.length) ∧
      after.output = LineSink.emitAll before.output (departments.flatMap fun department =>
        [meltdownLine department, penaltyLine meltdownPenalty, riskLine])
  uncounted : ¬before.CountsRisk →
    after.machine.memory = before.machine.memory ∧
      after.output = LineSink.emitAll before.output (departments.flatMap fun department =>
        [meltdownLine department, penaltyLine meltdownPenalty])

theorem meltsDown_meltdown [DrawSource ρ] (context : Context ρ ω) (fields : ImmediateFields) :
    context.MeltsDown [fields.rs] (context.meltdown fields) where
  agent_toInt := by
    intro register hband
    rw [register_meltdown, if_pos (mem_agents_iff.2 hband), toInt_penalized]
    rfl
  confines := (context.confined_meltdown fields).confines
  draws_eq := (context.confined_meltdown fields).draws_eq
  counted := by
    intro h
    rw [meltdown_of_countsRisk h, output_emit, output_penalizeDepartment, machine_emit]
    refine ⟨?_, rfl⟩
    rw [Memory.wordAt_store, if_pos rfl, toInt_raisedRisk]
    rfl
  uncounted := by
    intro h
    rw [meltdown_of_not_countsRisk h]
    exact ⟨context.memory_penalizeDepartment _, context.output_penalizeDepartment _⟩

theorem MeltsDown.trans {first second : List Register} (hfirst : before.MeltsDown first middle)
    (hsecond : middle.MeltsDown second after) : before.MeltsDown (first ++ second) after := by
  have haddress := riskAddress_eq_of_confines hfirst.confines
  have hcounts := countsRisk_iff_of_confines hfirst.confines
  have hfootprint : middle.meltdownFootprint = before.meltdownFootprint := by
    rw [meltdownFootprint, haddress, meltdownFootprint]
  refine ⟨?_, hfirst.confines.trans (hfootprint ▸ hsecond.confines),
    hsecond.draws_eq.trans hfirst.draws_eq, ?_, ?_⟩
  · intro register hband
    rw [hsecond.agent_toInt register hband, hfirst.agent_toInt register hband, List.length_append]
    omega
  · intro h
    obtain ⟨hword, houtput⟩ := hfirst.counted h
    obtain ⟨hword', houtput'⟩ := hsecond.counted (hcounts.2 h)
    rw [haddress, hword] at hword'
    rw [hword', houtput', houtput, List.flatMap_append, LineSink.emitAll_append,
      List.length_append]
    exact ⟨by omega, rfl⟩
  · intro h
    obtain ⟨hmemory, houtput⟩ := hfirst.uncounted h
    obtain ⟨hmemory', houtput'⟩ := hsecond.uncounted (mt hcounts.1 h)
    rw [hmemory', hmemory, houtput', houtput, List.flatMap_append, LineSink.emitAll_append]
    exact ⟨rfl, rfl⟩

end Repetition

end Context

namespace Catalog

variable {ρ ω : Type} [DrawSource ρ] [LineSink ω]

/-- Executes words one after another, and gives the answer to each. -/
def executeAll (catalog : Catalog) (context : Context ρ ω) :
    List Word → List (Except Fault Instruction) × Context ρ ω
  | [] => ([], context)
  | word :: words =>
    let first := catalog.execute word context
    let rest := catalog.executeAll first.after words
    (first.answer :: rest.1, rest.2)

variable {catalog : Catalog}

theorem execute_of_meltdown {word : Word} (h : catalog.find? word = some .meltdown)
    (context : Context ρ ω) :
    catalog.execute word context =
      .done .meltdown (context.meltdown (ImmediateFields.decode word)) := by
  rw [execute_of_find?_eq_some h]
  rfl

theorem answers_executeAll_of_meltdown {words : List Word}
    (h : ∀ word ∈ words, catalog.find? word = some .meltdown) (context : Context ρ ω) :
    (catalog.executeAll context words).1 = List.replicate words.length (.ok .meltdown) := by
  induction words generalizing context with
  | nil => rfl
  | cons word words ih =>
    obtain ⟨hword, hwords⟩ := List.forall_mem_cons.1 h
    simp only [executeAll, execute_of_meltdown hword, ih hwords, Attempt.answer_done,
      List.length_cons, List.replicate_succ]

theorem meltsDown_executeAll {words : List Word} (hne : words ≠ [])
    (h : ∀ word ∈ words, catalog.find? word = some .meltdown) (context : Context ρ ω) :
    context.MeltsDown (words.map fun word => (ImmediateFields.decode word).rs)
      (catalog.executeAll context words).2 := by
  induction words generalizing context with
  | nil => exact absurd rfl hne
  | cons word words ih =>
    obtain ⟨hword, hwords⟩ := List.forall_mem_cons.1 h
    simp only [executeAll, execute_of_meltdown hword, Attempt.after_done]
    have hfirst := context.meltsDown_meltdown (ImmediateFields.decode word)
    by_cases hlast : words = []
    · rw [hlast]
      exact hfirst
    · exact hfirst.trans (ih hlast hwords _)

end Catalog

variable {ρ ω : Type} [DrawSource ρ] [LineSink ω]

/-- However many meltdowns are executed, in whatever departments, each completes. The agents
lose ten points for each, cut off at zero; the risk counter, if memory admits it, gains one for
each, cut off at four; and three lines are emitted for each, or two if memory refuses it. -/
theorem repeated_meltdown_has_closed_form {catalog : Catalog} {words : List Word}
    (hne : words ≠ []) (hwords : ∀ word ∈ words, catalog.find? word = some .meltdown)
    (context : Context ρ ω) :
    let count := words.length
    let departments := words.map fun word => (ImmediateFields.decode word).rs
    let outcome := catalog.executeAll context words
    let after := outcome.2
    let memory := context.machine.memory
    let address := context.register Register.globalPointer + 8
    let counts := Word.IsAligned address ∧
      ∃ segment, memory.segmentAt address = some segment ∧ segment.writable = true
    let counted := departments.flatMap fun department =>
      [meltdownLine department, penaltyLine meltdownPenalty, riskLine]
    let uncounted := departments.flatMap fun department =>
      [meltdownLine department, penaltyLine meltdownPenalty]
    outcome.1 = List.replicate count (.ok .meltdown) ∧
      (∀ register, 8 ≤ register ∧ register ≤ 15 → (after.register register).toInt =
        max 0 ((context.register register).toInt - 10 * count)) ∧
      (∀ register, ¬(8 ≤ register ∧ register ≤ 15) →
        after.register register = context.register register) ∧
      after.pc = context.pc ∧ after.draws = context.draws ∧
      (counts →
        (after.machine.memory.wordAt address).toInt =
            min 4 ((memory.wordAt address).toInt + count) ∧
          (∀ other ≠ address, after.machine.memory.wordAt other = memory.wordAt other) ∧
          after.machine.memory.segments = memory.segments ∧
          after.output = LineSink.emitAll context.output counted ∧ counted.length = 3 * count) ∧
      (¬counts →
        after.machine.memory = memory ∧
          after.output = LineSink.emitAll context.output uncounted ∧
          uncounted.length = 2 * count) := by
  intro count departments outcome after memory address counts counted uncounted
  have hmelts : context.MeltsDown departments after :=
    Catalog.meltsDown_executeAll hne hwords context
  have hcount : departments.length = count := List.length_map _
  refine ⟨Catalog.answers_executeAll_of_meltdown hwords context, ?_,
    fun register hout => hmelts.confines.register_eq register hout, hmelts.confines.pc_eq rfl,
    hmelts.draws_eq, ?_, ?_⟩
  · intro register hband
    rw [← hcount]
    exact hmelts.agent_toInt register hband
  · intro hcounts
    obtain ⟨hword, houtput⟩ := hmelts.counted hcounts
    rw [hcount] at hword
    refine ⟨hword, ?_, hmelts.confines.segments_eq, houtput, ?_⟩
    · intro other hother
      simp only [Memory.wordAt, Std.ExtHashMap.getD_eq_getD_getElem?]
      rw [hmelts.confines.word_eq other hother]
    · rw [← hcount]
      exact length_flatMap_of_forall 3 (fun _ => rfl) departments
  · intro hrefused
    obtain ⟨hmemory, houtput⟩ := hmelts.uncounted hrefused
    refine ⟨hmemory, houtput, ?_⟩
    rw [← hcount]
    exact length_flatMap_of_forall 2 (fun _ => rfl) departments

/-- Three meltdowns at the ends of the ranges: the least and a low register fall to zero, the
greatest counter is pulled down to the ceiling, and a counter in read-only text is left. -/
theorem repeated_meltdown_has_closed_form_at_extremes :
    let words : List Word := [0x66200000, 0x64000000, 0x66200000]
    let machine := ((Machine.new {}).setRegister 8 0x80000000).setRegister 15 25
    let memory := machine.memory.store 0x10008008 0x7FFFFFFF
    let counting : Context Script Transcript := ⟨{ machine with memory }, { values := [] }, {}⟩
    let refused : Context Script Transcript :=
      ⟨machine.setRegister Register.globalPointer 0x00400000, { values := [] }, {}⟩
    (∀ word ∈ words, Catalog.full.find? word = some .meltdown) ∧
      ((Catalog.full.executeAll counting words).2.register 8).toInt = 0 ∧
      ((Catalog.full.executeAll counting words).2.register 15).toInt = 0 ∧
      ((Catalog.full.executeAll counting words).2.machine.memory.wordAt 0x10008008).toInt = 4 ∧
      (Catalog.full.executeAll refused words).2.machine.memory = refused.machine.memory ∧
      (Catalog.full.executeAll refused words).1 = List.replicate 3 (.ok .meltdown) := by
  intro words machine memory counting refused
  have hwords : ∀ word ∈ words, Catalog.full.find? word = some .meltdown := by
    have hfirst : Catalog.full.find? 0x66200000 = some .meltdown := by decide
    have hsecond : Catalog.full.find? 0x64000000 = some .meltdown := by decide
    simp only [words, List.forall_mem_cons, hfirst, hsecond, true_and]
    exact nofun
  have hne : words ≠ [] := nofun
  obtain ⟨-, hagents, -, -, -, hcounted, -⟩ :=
    repeated_meltdown_has_closed_form hne hwords counting
  obtain ⟨hanswers, -, -, -, -, -, hrefused⟩ :=
    repeated_meltdown_has_closed_form hne hwords refused
  have hword : counting.machine.memory.wordAt 0x10008008 = 0x7FFFFFFF := by
    simp only [counting, memory, Memory.wordAt_store, if_true]
  obtain ⟨hcounter, -⟩ := hcounted ⟨by decide, Segment.data, rfl, rfl⟩
  have hlow : (counting.register 8).toInt = -2 ^ 31 ∧ (counting.register 15).toInt = 25 := by
    decide
  have hreadOnly : ¬(Word.IsAligned (refused.register Register.globalPointer + 8) ∧
      ∃ segment, refused.machine.memory.segmentAt
        (refused.register Register.globalPointer + 8) = some segment ∧
          segment.writable = true) := by
    rintro ⟨-, segment, hsegment, hwritable⟩
    have htext : refused.machine.memory.segmentAt
        (refused.register Register.globalPointer + 8) = some Segment.text := rfl
    rw [htext] at hsegment
    cases hsegment
    exact nomatch hwritable
  obtain ⟨hkept, -⟩ := hrefused hreadOnly
  refine ⟨hwords, ?_, ?_, ?_, hkept, hanswers⟩
  · rw [hagents 8 (by decide), hlow.1]
    rfl
  · rw [hagents 15 (by decide), hlow.2]
    rfl
  · refine hcounter.trans ?_
    rw [show counting.register Register.globalPointer + 8 = 0x10008008 by decide, hword]
    decide

end FacilityIsa
