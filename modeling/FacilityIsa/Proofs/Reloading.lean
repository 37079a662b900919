import FacilityIsa.Proofs.Agreement
import FacilityIsa.Proofs.ProgramStart
import FacilityIsa.Proofs.Sessions

/-!
# Loading anew

A reset leaves of a machine its configuration and its segments, which no session changes.
So a load forgets what was done before it: engines of one configuration are alike after
it, and run alike if their sources are in the same state. Their sinks may hold different
lines from before, or be of different kinds, but get the same lines from then on.
-/

namespace FacilityIsa

/-- What a reset leaves is decided by the configuration and the segments. -/
theorem Machine.reset_eq_reset {first second : Machine} (hconfig : first.config = second.config)
    (hsegments : first.memory.segments = second.memory.segments) :
    first.reset = second.reset := by
  simp only [reset, Memory.clear, hconfig, hsegments]

/-- Sources that are in the same state, reached from one they started from. -/
def DrawSource.Replays {ρ : Type} [DrawSource ρ] (start first second : ρ) : Prop :=
  ∃ bounds, first = DrawSource.after start bounds ∧ second = DrawSource.after start bounds

/-- Sinks that took the same lines since they held what they started with. -/
def LineSink.Mirrors {ω τ : Type} [LineSink ω] [LineSink τ] (start : ω) (other : τ)
    (first : ω) (second : τ) : Prop :=
  ∃ lines, first = LineSink.emitAll start lines ∧ second = LineSink.emitAll other lines

theorem DrawSource.respects_replays {ρ : Type} [DrawSource ρ] (start : ρ) (bound : Word) :
    DrawSource.Respects (DrawSource.Replays start) bound := by
  rintro _ _ ⟨bounds, rfl, rfl⟩
  refine ⟨rfl, bounds ++ [bound], ?_⟩
  simp [DrawSource.after]

theorem LineSink.respects_mirrors {ω τ : Type} [LineSink ω] [LineSink τ] (start : ω) (other : τ) :
    LineSink.Respects (LineSink.Mirrors start other) := by
  rintro line _ _ ⟨lines, rfl, rfl⟩
  refine ⟨lines ++ [line], ?_⟩
  simp [LineSink.emitAll]

namespace Engine

section Runs

variable {ρ σ ω τ : Type} [DrawSource ρ] [DrawSource σ] [LineSink ω] [LineSink τ]
  {R : ρ → σ → Prop} {S : ω → τ → Prop}

/-- Runs one after another, each within its own bound, however the one before it ended. -/
def runs (engine : Engine ρ ω) : List Nat → List RunSummary × Engine ρ ω
  | [] => ([], engine)
  | limit :: limits =>
    let (summary, next) := engine.run limit
    let (summaries, reached) := next.runs limits
    (summary :: summaries, reached)

theorem Agrees.runs {first : Engine ρ ω} {second : Engine σ τ} (hsink : LineSink.Respects S)
    (hsource : ∀ bound, DrawSource.Respects R bound) (h : first.Agrees R S second)
    (limits : List Nat) :
    (first.runs limits).1 = (second.runs limits).1 ∧
      (first.runs limits).2.Agrees R S (second.runs limits).2 := by
  induction limits generalizing first second with
  | nil => exact ⟨rfl, h⟩
  | cons limit limits ih =>
    obtain ⟨hsummary, hnext⟩ := h.run hsink limit fun _ _ bound _ => hsource bound
    obtain ⟨hsummaries, hreached⟩ := ih hnext
    exact ⟨congrArg₂ List.cons hsummary hsummaries, hreached⟩

end Runs

variable {ρ ω τ : Type}

theorem load_congr (first : Engine ρ ω) (second : Engine ρ τ)
    (hreset : first.machine.reset = second.machine.reset) (words : List Word) :
    (first.load words).answer = (second.load words).answer ∧
      (first.load words).after.machine = (second.load words).after.machine := by
  rw [answer_load, answer_load, machine_load, machine_load, hreset]
  exact ⟨rfl, rfl⟩

theorem isSilent_load (engine : Engine ρ ω) (words : List Word) :
    engine.context.IsSilent (engine.load words).after.context := by
  unfold load
  split <;> exact ⟨rfl, rfl⟩

variable [DrawSource ρ] [LineSink ω] [LineSink τ]

/-- Whatever was done with each of two engines of one configuration, if their sources are in
the same state they are alike after a load, and if it succeeded also after all runs that
follow it. -/
theorem load_erases_history (config : MachineConfig) (draws otherDraws : ρ) (output : ω)
    (otherOutput : τ) (actions otherActions : List HostAction) (words : List Word) :
    let first := (new config draws output).session actions
    let second := (new config otherDraws otherOutput).session otherActions
    let loaded := (first.load words).after
    let reloaded := (second.load words).after
    first.context.draws = second.context.draws →
      (first.load words).answer = (second.load words).answer ∧
        loaded.machine = reloaded.machine ∧
        first.context.IsSilent loaded.context ∧ second.context.IsSilent reloaded.context ∧
        ((first.load words).answer = .ok () →
          loaded.program = reloaded.program ∧
            ∀ limits,
              let ran := loaded.runs limits
              let other := reloaded.runs limits
              ran.1 = other.1 ∧ ran.2.machine = other.2.machine ∧
                DrawSource.Replays first.context.draws ran.2.context.draws
                  other.2.context.draws ∧
                LineSink.Mirrors first.context.output second.context.output
                  ran.2.context.output other.2.context.output) := by
  intro first second loaded reloaded hdraws
  have hconfig : first.machine.config = second.machine.config := by
    rw [config_session, config_session]
    rfl
  have hsegments : first.machine.memory.segments = second.machine.memory.segments := by
    rw [segments_session, segments_session]
    rfl
  obtain ⟨hanswer, hmachine⟩ :=
    load_congr first second (Machine.reset_eq_reset hconfig hsegments) words
  have hfirst := first.isSilent_load words
  have hsecond := second.isSilent_load words
  refine ⟨hanswer, hmachine, hfirst, hsecond, fun hload => ?_⟩
  have hprogram : loaded.program = reloaded.program := by
    rw [program_load hload, program_load (hanswer ▸ hload), hconfig]
  refine ⟨hprogram, ?_⟩
  intro limits ran other
  have hreplays : DrawSource.Replays first.context.draws loaded.context.draws
      reloaded.context.draws := ⟨[], hfirst.1, hsecond.1.trans hdraws.symm⟩
  have hmirrors : LineSink.Mirrors first.context.output second.context.output
      loaded.context.output reloaded.context.output := ⟨[], hfirst.2, hsecond.2⟩
  have hagrees : loaded.Agrees _ _ reloaded := ⟨⟨hmachine, hreplays, hmirrors⟩, hprogram⟩
  obtain ⟨hsummaries, hran⟩ := hagrees.runs (LineSink.respects_mirrors _ _)
    (DrawSource.respects_replays _) limits
  exact ⟨hsummaries, hran.context.machine_eq, hran.context.draws, hran.context.output⟩

/-- An engine with a register written by its host is, after a load, like one where a load
failed at its second word. -/
theorem load_erases_history_of_failed_load :
    let config : MachineConfig :=
      { regions := [{ start := 0x00400000, stop := 0x00400004, segment := Segment.text }] }
    let fresh :=
      new config ({ values := [3] } : Script) ({ lines := #["Opened"] } : Transcript)
    let first := (new config ({ values := [3] } : Script) ({} : Discard)).session
      [.setRegister 9 7, .setPc 0x00000008]
    let second := fresh.session [.load [0x20090001, 0x20090002], .link 10]
    let loaded := (first.load [0x44090005]).after
    let reloaded := (second.load [0x44090005]).after
    (fresh.load [0x20090001, 0x20090002]).answer ≠ .ok () ∧
      first.context.draws = second.context.draws ∧
      (first.load [0x44090005]).answer = .ok () ∧ loaded.machine = reloaded.machine ∧
      (loaded.runs [1, 3]).1 = (reloaded.runs [1, 3]).1 ∧
        (loaded.runs [1, 3]).2.machine = (reloaded.runs [1, 3]).2.machine := by
  intro config fresh first second loaded reloaded
  have hfailed : (fresh.load [0x20090001, 0x20090002]).answer ≠ .ok () := by
    rw [Ne, load_eq_ok_iff_access]
    intro haccess
    obtain ⟨segment, hsegment⟩ := haccess 1 (by decide)
    exact nomatch (Memory.access_eq_ok_iff.1 hsegment).2
  have hdraws : first.context.draws = second.context.draws :=
    (fresh.isSilent_load [0x20090001, 0x20090002]).1.symm
  have hload : (first.load [0x44090005]).answer = .ok () := by
    rw [load_eq_ok_iff_access]
    intro index hindex
    obtain rfl := Nat.lt_one_iff.1 hindex
    exact ⟨Segment.text, Memory.access_eq_ok_iff.2 ⟨by decide, rfl⟩⟩
  obtain ⟨-, hmachine, -, -, hruns⟩ := load_erases_history config _ _ _ _ _ _ [0x44090005] hdraws
  obtain ⟨hsummaries, hran, -⟩ := (hruns hload).2 [1, 3]
  exact ⟨hfailed, hdraws, hload, hmachine, hsummaries, hran⟩

end Engine
end FacilityIsa
