import FacilityIsa.Attempt
import FacilityIsa.Proofs.CanonicalSegments
import Mathlib.Data.FinEnum
import Mathlib.Data.Set.Card

/-!
# Memory as a plain map

What a memory answers follows from what was done to it: which region was mapped
last over the address, and which word was last stored there. The history of a
memory gives both without segment maps, and without forgetting zeros. That the
memory agrees is shown by induction on the history, together with what makes the
kept words countable: none of them is zero and all of them can be read.
-/

namespace FacilityIsa

/-- What may be done to a memory. -/
inductive MemoryAction where
  | map (region : Region)
  | load (address : Address) (word : Word)
  | write (address : Address) (word : Word)
  | read (address : Address)
  | clear

/-- The address that an action accesses. -/
def MemoryAction.address? : MemoryAction → Option Address
  | .load address _ | .write address _ | .read address => some address
  | .map _ | .clear => none

/-- Only a write asks for a writable segment. -/
def MemoryAction.isWrite : MemoryAction → Bool
  | .write _ _ => true
  | _ => false

/-- The memory that an access leaves, which is the same one if it was refused. -/
def Memory.replaced (memory : Memory) :
    Except AddressError Memory → Attempt AddressError (Option Word) Memory
  | .ok stored => .done none stored
  | .error error => .failed error memory

/-- Does an action. The answer has a word if the action reads one. -/
def Memory.act (memory : Memory) : MemoryAction → Attempt AddressError (Option Word) Memory
  | .map region => .done none (memory.map region)
  | .load address word => memory.replaced (memory.load address word)
  | .write address word => memory.replaced (memory.write address word)
  | .read address => ⟨(memory.read address).map some, memory⟩
  | .clear => .done none memory.clear

/-- What a memory has been through: the regions it started with and every action since,
whether or not it was refused. -/
inductive MemoryHistory where
  | start (regions : List Region)
  | after (history : MemoryHistory) (action : MemoryAction)

namespace MemoryHistory

/-- The memory at the end of a history. -/
def memory : MemoryHistory → Memory
  | start regions => Memory.ofRegions regions
  | after history action => (history.memory.act action).after

/-- Every region mapped so far, in the order of mapping. -/
def regions : MemoryHistory → List Region
  | start regions => regions
  | after history (.map region) => history.regions ++ [region]
  | after history _ => history.regions

/-- Why an action is refused, if it is. -/
def refusal? (history : MemoryHistory) (action : MemoryAction) : Option AddressError :=
  match action.address? with
  | none => none
  | some address =>
    if address.toNat % 4 ≠ 0 then some (.unaligned address)
    else match Region.lastOver? history.regions address with
      | none => some (.unmapped address)
      | some region =>
        if action.isWrite && !region.segment.writable then some (.readOnly address) else none

/-- The word last stored at an address since memory was cleared. A refused store is none. -/
def stored? : MemoryHistory → Address → Option Word
  | start _, _ => none
  | after history action, address =>
    match action with
    | .clear => none
    | .load target word | .write target word =>
      if target = address ∧ history.refusal? action = none then some word
      else history.stored? address
    | .map _ | .read _ => history.stored? address

/-- The answer that an action gets after a history. -/
def answer (history : MemoryHistory) (action : MemoryAction) :
    Except AddressError (Option Word) :=
  match history.refusal? action with
  | some error => .error error
  | none =>
    match action with
    | .read address => .ok (some ((history.stored? address).getD 0))
    | _ => .ok none

end MemoryHistory

namespace Memory

variable {memory : Memory} {address : Address} {word : Word}

section Actions

theorem act_of_access_eq_error {action : MemoryAction} {error : AddressError}
    (haddress : action.address? = some address) (h : memory.access address = .error error) :
    memory.act action = .failed error memory := by
  cases action with
  | map | clear => exact nomatch haddress
  | load | write | read =>
    cases haddress
    simp only [act, load, write, read, h]
    rfl

theorem act_read_of_access {segment : Segment} (h : memory.access address = .ok segment) :
    memory.act (.read address) = .done (some (memory.wordAt address)) memory := by
  simp only [act, read, h]
  rfl

theorem act_load_of_access {segment : Segment} (h : memory.access address = .ok segment)
    (word : Word) : memory.act (.load address word) = .done none (memory.store address word) := by
  simp only [act, load, h]
  rfl

theorem act_write_of_access {segment : Segment} (h : memory.access address = .ok segment)
    (word : Word) :
    memory.act (.write address word) =
      if segment.writable then .done none (memory.store address word)
      else .failed (.readOnly address) memory := by
  simp only [act, write, h]
  cases segment.writable <;> rfl

theorem after_act (memory : Memory) (action : MemoryAction) :
    (memory.act action).after = memory ∨
      (∃ region, action = .map region ∧ (memory.act action).after = memory.map region) ∨
      (memory.act action).after = memory.clear ∨
      ∃ address word segment, memory.access address = .ok segment ∧
        (memory.act action).after = memory.store address word := by
  cases action with
  | map region => exact .inr (.inl ⟨region, rfl, rfl⟩)
  | clear => exact .inr (.inr (.inl rfl))
  | read => exact .inl rfl
  | load address word =>
    cases haccess : memory.access address with
    | error error => exact .inl (congrArg _ (act_of_access_eq_error rfl haccess))
    | ok segment =>
      rw [act_load_of_access haccess]
      exact .inr (.inr (.inr ⟨address, word, segment, haccess, rfl⟩))
  | write address word =>
    cases haccess : memory.access address with
    | error error => exact .inl (congrArg _ (act_of_access_eq_error rfl haccess))
    | ok segment =>
      rw [act_write_of_access haccess]
      split
      · exact .inr (.inr (.inr ⟨address, word, segment, haccess, rfl⟩))
      · exact .inl rfl

theorem segments_act {action : MemoryAction} (h : ∀ region, action ≠ .map region) :
    (memory.act action).after.segments = memory.segments := by
  obtain hafter | ⟨region, rfl, -⟩ | hafter | ⟨address, word, segment, -, hafter⟩ :=
    memory.after_act action
  · rw [hafter]
  · exact absurd rfl (h region)
  · rw [hafter, segments_clear]
  · rw [hafter, segments_store]

end Actions

section Tidy

/-- The kept words are those that do not read as zero, each counted once. -/
structure IsTidy (memory : Memory) : Prop where
  ne_zero : ∀ address ∈ memory.words, memory.wordAt address ≠ 0
  accessible : ∀ address ∈ memory.words, ∃ segment, memory.access address = .ok segment
  counted : memory.wordsInUse = Set.ncard {address | address ∈ memory.words}

theorem IsTidy.mem_words_iff (h : memory.IsTidy) :
    address ∈ memory.words ↔ memory.wordAt address ≠ 0 := by
  refine ⟨h.ne_zero address, ?_⟩
  intro hword
  by_contra hout
  exact hword (Std.ExtHashMap.getD_eq_fallback hout)

theorem isTidy_blank (segments : SegmentMap) : (blank segments).IsTidy where
  ne_zero := fun _ hmem => absurd hmem Std.ExtHashMap.not_mem_empty
  accessible := fun _ hmem => absurd hmem Std.ExtHashMap.not_mem_empty
  counted := by
    simp only [wordsInUse, blank, Std.ExtHashMap.size_empty, Std.ExtHashMap.not_mem_empty,
      Set.ofPred_false, Set.ncard_empty]

theorem IsTidy.map (h : memory.IsTidy) (region : Region) : (memory.map region).IsTidy where
  ne_zero := h.ne_zero
  counted := h.counted
  accessible := by
    intro address hmem
    obtain ⟨segment, haccess⟩ := h.accessible address hmem
    obtain ⟨haligned, hmapped⟩ := access_eq_ok_iff.1 haccess
    have hsegment : (memory.map region).segmentAt address =
        if region.contains address then some region.segment else memory.segmentAt address :=
      SegmentMap.segmentAt_insert _ _ _
    by_cases hin : region.contains address = true
    · rw [if_pos hin] at hsegment
      exact ⟨_, access_eq_ok_iff.2 ⟨haligned, hsegment⟩⟩
    · rw [if_neg hin, hmapped] at hsegment
      exact ⟨_, access_eq_ok_iff.2 ⟨haligned, hsegment⟩⟩

theorem mem_words_store {other : Address} :
    other ∈ (memory.store address word).words ↔
      if other = address then word ≠ 0 else other ∈ memory.words := by
  unfold store
  dsimp only
  by_cases hzero : word = 0
  · rw [if_pos hzero, Std.ExtHashMap.mem_erase, beq_eq_false_iff_ne]
    by_cases hsame : other = address
    · rw [if_pos hsame]
      exact ⟨fun hmem => absurd hsame.symm hmem.1, fun hne => absurd hzero hne⟩
    · rw [if_neg hsame]
      exact ⟨fun hmem => hmem.2, fun hmem => ⟨Ne.symm hsame, hmem⟩⟩
  · rw [if_neg hzero, Std.ExtHashMap.mem_insert, beq_iff_eq]
    by_cases hsame : other = address
    · rw [if_pos hsame]
      exact ⟨fun _ => hzero, fun _ => .inl hsame.symm⟩
    · rw [if_neg hsame]
      exact ⟨fun hmem => hmem.resolve_left (Ne.symm hsame), .inr⟩

theorem setOf_mem_words_store :
    {other | other ∈ (memory.store address word).words} =
      if word = 0 then {other | other ∈ memory.words} \ {address}
      else insert address {other | other ∈ memory.words} := by
  ext other
  rw [Set.mem_ofPred_eq, mem_words_store]
  by_cases hzero : word = 0
  · rw [if_pos hzero, Set.mem_sdiff, Set.mem_singleton_iff]
    by_cases hsame : other = address
    · rw [if_pos hsame]
      exact iff_of_false (not_not_intro hzero) (fun hmem => hmem.2 hsame)
    · rw [if_neg hsame]
      exact (and_iff_left hsame).symm
  · rw [if_neg hzero, Set.mem_insert_iff]
    by_cases hsame : other = address
    · rw [if_pos hsame]
      exact iff_of_true hzero (.inl hsame)
    · rw [if_neg hsame]
      exact (or_iff_right hsame).symm

theorem IsTidy.wordsInUse_store (h : memory.IsTidy) :
    (memory.store address word).wordsInUse =
      Set.ncard {other | other ∈ (memory.store address word).words} := by
  have hcounted : memory.words.size = Set.ncard {other | other ∈ memory.words} := h.counted
  rw [setOf_mem_words_store]
  unfold wordsInUse store
  dsimp only
  by_cases hzero : word = 0
  · rw [if_pos hzero, if_pos hzero, Std.ExtHashMap.size_erase, hcounted]
    split
    · next hmem => exact (Set.ncard_sdiff_singleton_of_mem hmem).symm
    · next hmem => exact congrArg Set.ncard (Set.sdiff_singleton_eq_self hmem).symm
  · rw [if_neg hzero, if_neg hzero, Std.ExtHashMap.size_insert, hcounted]
    split
    · next hmem => exact congrArg Set.ncard (Set.insert_eq_of_mem hmem).symm
    · next hmem => exact (Set.ncard_insert_of_notMem hmem).symm

theorem IsTidy.store (h : memory.IsTidy) {segment : Segment}
    (haccess : memory.access address = .ok segment) (word : Word) :
    (memory.store address word).IsTidy where
  ne_zero := by
    intro other hmem
    rw [mem_words_store] at hmem
    rw [wordAt_store]
    by_cases hsame : other = address
    · rwa [if_pos hsame] at hmem ⊢
    · rw [if_neg hsame] at hmem ⊢
      exact h.ne_zero other hmem
  accessible := by
    intro other hmem
    rw [mem_words_store] at hmem
    rw [access_store]
    by_cases hsame : other = address
    · exact ⟨segment, hsame ▸ haccess⟩
    · rw [if_neg hsame] at hmem
      exact h.accessible other hmem
  counted := h.wordsInUse_store

theorem IsTidy.act (h : memory.IsTidy) (action : MemoryAction) :
    (memory.act action).after.IsTidy := by
  obtain hafter | ⟨region, -, hafter⟩ | hafter | ⟨address, word, segment, haccess, hafter⟩ :=
    memory.after_act action
  · rw [hafter]
    exact h
  · rw [hafter]
    exact h.map region
  · rw [hafter]
    exact isTidy_blank memory.segments
  · rw [hafter]
    exact h.store haccess word

/-- The count of a tidy memory is the number of addresses that read as another word than zero. -/
theorem IsTidy.wordsInUse_eq (h : memory.IsTidy) :
    memory.wordsInUse =
      Set.ncard {address | ∃ word ≠ 0, (memory.act (.read address)).answer = .ok (some word)} := by
  rw [h.counted]
  congr 1
  ext address
  rw [Set.mem_ofPred_eq, Set.mem_ofPred_eq, h.mem_words_iff]
  constructor
  · intro hword
    obtain ⟨segment, haccess⟩ := h.accessible address (h.mem_words_iff.2 hword)
    exact ⟨_, hword, congrArg _ (act_read_of_access haccess)⟩
  · rintro ⟨word, hne, hread⟩
    cases haccess : memory.access address with
    | error error =>
      rw [act_of_access_eq_error rfl haccess] at hread
      exact nomatch hread
    | ok segment =>
      rw [act_read_of_access haccess] at hread
      injection hread with hsome
      injection hsome with hword
      exact hword ▸ hne

end Tidy

end Memory

namespace MemoryHistory

variable {history : MemoryHistory} {action : MemoryAction} {address : Address}

theorem regions_after_of_ne_map (h : ∀ region, action ≠ .map region) :
    (history.after action).regions = history.regions := by
  cases action with
  | map region => exact absurd rfl (h region)
  | _ => rfl

theorem segmentAt_memory (history : MemoryHistory) (address : Address) :
    history.memory.segmentAt address =
      (Region.lastOver? history.regions address).map (·.segment) := by
  induction history with
  | start regions => exact SegmentMap.segmentAt_ofRegions regions address
  | after history action ih =>
    by_cases hmap : ∃ region, action = .map region
    · obtain ⟨region, rfl⟩ := hmap
      refine (SegmentMap.segmentAt_insert _ _ _).trans ?_
      rw [regions, Region.lastOver?_concat]
      split
      · rfl
      · exact ih
    · have hne : ∀ region, action ≠ .map region := fun region h => hmap ⟨region, h⟩
      rw [regions_after_of_ne_map hne, ← ih, memory, Memory.segmentAt, Memory.segments_act hne]
      rfl

theorem isTidy_memory (history : MemoryHistory) : history.memory.IsTidy := by
  induction history with
  | start regions => exact Memory.isTidy_blank _
  | after history action ih => exact ih.act action

theorem refusal?_of_access_eq_error {error : AddressError}
    (haddress : action.address? = some address)
    (h : history.memory.access address = .error error) :
    history.refusal? action = some error := by
  rw [refusal?, haddress]
  dsimp only
  rw [Memory.access_eq_error_iff, segmentAt_memory, Option.map_eq_none_iff] at h
  rcases h with ⟨hunaligned, rfl⟩ | ⟨haligned, hunmapped, rfl⟩
  · exact if_pos hunaligned
  · rw [if_neg (not_not_intro haligned : ¬address.toNat % 4 ≠ 0), hunmapped]

theorem refusal?_of_access_eq_ok {segment : Segment}
    (haddress : action.address? = some address)
    (h : history.memory.access address = .ok segment) :
    history.refusal? action =
      if action.isWrite && !segment.writable then some (.readOnly address) else none := by
  rw [refusal?, haddress]
  dsimp only
  rw [Memory.access_eq_ok_iff, segmentAt_memory, Option.map_eq_some_iff] at h
  obtain ⟨haligned, region, hlast, rfl⟩ := h
  rw [if_neg (not_not_intro haligned : ¬address.toNat % 4 ≠ 0), hlast]

/-- What the history refuses, the memory refuses, and it stays as it is. -/
theorem act_of_refusal? {error : AddressError} (h : history.refusal? action = some error) :
    history.memory.act action = .failed error history.memory := by
  cases haddress : action.address? with
  | none =>
    rw [refusal?, haddress] at h
    exact nomatch h
  | some address =>
    cases haccess : history.memory.access address with
    | error cause =>
      rw [refusal?_of_access_eq_error haddress haccess, Option.some.injEq] at h
      rw [Memory.act_of_access_eq_error haddress haccess, h]
    | ok segment =>
      rw [refusal?_of_access_eq_ok haddress haccess] at h
      cases action with
      | write target word =>
        cases haddress
        cases hwritable : segment.writable with
        | true => rw [hwritable] at h; exact nomatch h
        | false =>
          rw [hwritable] at h
          cases h
          rw [Memory.act_write_of_access haccess, hwritable]
          rfl
      | _ => exact nomatch h

theorem access_of_refusal?_eq_none (haddress : action.address? = some address)
    (h : history.refusal? action = none) :
    ∃ segment, history.memory.access address = .ok segment := by
  cases haccess : history.memory.access address with
  | error cause =>
    rw [refusal?_of_access_eq_error haddress haccess] at h
    exact nomatch h
  | ok segment => exact ⟨segment, rfl⟩

theorem act_store {target : Address} {word : Word}
    (haction : action = .load target word ∨ action = .write target word)
    (h : history.refusal? action = none) :
    history.memory.act action = .done none (history.memory.store target word) := by
  rcases haction with rfl | rfl
  · obtain ⟨segment, haccess⟩ := access_of_refusal?_eq_none rfl h
    exact Memory.act_load_of_access haccess word
  · obtain ⟨segment, haccess⟩ := access_of_refusal?_eq_none rfl h
    rw [refusal?_of_access_eq_ok rfl haccess] at h
    rw [Memory.act_write_of_access haccess]
    cases hwritable : segment.writable with
    | true => rfl
    | false => rw [hwritable] at h; exact nomatch h

/-- Every store leaves the word that the history tells. -/
theorem wordAt_memory_store {target : Address} {word : Word}
    (haction : action = .load target word ∨ action = .write target word)
    (ih : history.memory.wordAt address = (history.stored? address).getD 0) :
    (history.after action).memory.wordAt address =
      ((history.after action).stored? address).getD 0 := by
  have hstored : (history.after action).stored? address =
      if target = address ∧ history.refusal? action = none then some word
      else history.stored? address := by
    rcases haction with rfl | rfl <;> rfl
  rw [hstored, memory]
  cases hrefusal : history.refusal? action with
  | some error => rw [act_of_refusal? hrefusal, if_neg (fun h => nomatch h.2)]; exact ih
  | none =>
    rw [act_store haction hrefusal, Attempt.after_done, Memory.wordAt_store]
    by_cases hsame : target = address
    · rw [if_pos hsame.symm, if_pos ⟨hsame, rfl⟩]
      rfl
    · rw [if_neg (Ne.symm hsame), if_neg (fun h => hsame h.1)]
      exact ih

theorem wordAt_memory (history : MemoryHistory) (address : Address) :
    history.memory.wordAt address = (history.stored? address).getD 0 := by
  induction history with
  | start regions => exact Memory.wordAt_blank _ _
  | after history action ih =>
    cases action with
    | map | read => exact ih
    | clear => exact Memory.wordAt_clear _ _
    | load target word => exact wordAt_memory_store (.inl rfl) ih
    | write target word => exact wordAt_memory_store (.inr rfl) ih

theorem answer_act (history : MemoryHistory) (action : MemoryAction) :
    (history.memory.act action).answer = history.answer action := by
  unfold answer
  cases hrefusal : history.refusal? action with
  | some error => rw [act_of_refusal? hrefusal]; rfl
  | none =>
    cases action with
    | map | clear => rfl
    | load target word => rw [act_store (.inl rfl) hrefusal]; rfl
    | write target word => rw [act_store (.inr rfl) hrefusal]; rfl
    | read target =>
      obtain ⟨segment, haccess⟩ := access_of_refusal?_eq_none rfl hrefusal
      rw [Memory.act_read_of_access haccess, wordAt_memory]
      rfl

theorem answer_eq_error_iff {error : AddressError} :
    history.answer action = .error error ↔ history.refusal? action = some error := by
  unfold answer
  cases history.refusal? action with
  | some cause => simp
  | none => cases action <;> simp

theorem answer_after_of_ne {other : MemoryAction} {target : Address}
    (haction : action.address? = some target) (hother : other.address? = some address)
    (hne : target ≠ address) : (history.after action).answer other = history.answer other := by
  have hrefusal : (history.after action).refusal? other = history.refusal? other := by
    have hregions : (history.after action).regions = history.regions := by
      refine regions_after_of_ne_map ?_
      rintro region rfl
      exact nomatch haction
    rw [refusal?, refusal?, hregions]
  have hstored : (history.after action).stored? address = history.stored? address := by
    cases action with
    | map | clear => exact nomatch haction
    | read => rfl
    | load | write =>
      cases haction
      exact if_neg (fun h => hne h.1)
  unfold answer
  rw [hrefusal]
  cases other with
  | read =>
    cases hother
    simp only [hstored]
  | _ => rfl

/-- After any history a memory answers as the history tells. What it refuses changes
nothing, what is done at one address changes no other, and the words in use are the
addresses that read as another word than zero. -/
theorem memory_answers_as_history (history : MemoryHistory) :
    (∀ action, (history.memory.act action).answer = history.answer action) ∧
      (∀ action error, (history.memory.act action).answer = .error error →
        (history.memory.act action).after = history.memory) ∧
      (∀ (action other : MemoryAction) (target address : Address),
        action.address? = some target → other.address? = some address → target ≠ address →
          ((history.memory.act action).after.act other).answer =
            (history.memory.act other).answer) ∧
      history.memory.listing =
        history.memory.segments.listing ++ " (" ++
          toString (Set.ncard {address | ∃ word ≠ 0,
            (history.memory.act (.read address)).answer = .ok (some word)}) ++
          " words in use)" := by
  refine ⟨history.answer_act, ?_, ?_, ?_⟩
  · intro action error herror
    rw [answer_act, answer_eq_error_iff] at herror
    rw [act_of_refusal? herror, Attempt.after_failed]
  · intro action other target address haction hother hne
    rw [← memory, answer_act, answer_act]
    exact answer_after_of_ne haction hother hne
  · rw [Memory.listing, history.isTidy_memory.wordsInUse_eq]

/-- A word outlives that its address becomes read-only; then only a load can replace it. -/
theorem memory_answers_as_history_of_remapped :
    let data : Region := ⟨0, 16, Segment.data, by decide⟩
    let text : Region := ⟨4, 8, Segment.text, by decide⟩
    let history := (((start [data]).after (.write 4 3)).after .clear).after (.write 4 5)
    let remapped := (history.after (.map text)).after (.write 4 7)
    (remapped.memory.act (.write 4 9)).answer = .error (.readOnly 4) ∧
      (remapped.memory.act (.write 4 9)).after = remapped.memory ∧
      ((remapped.memory.act (.load 8 9)).after.act (.read 4)).answer = .ok (some 5) ∧
      ((remapped.after (.load 4 9)).memory.act (.read 4)).answer = .ok (some 9) := by
  intro data text history remapped
  obtain ⟨hanswer, hunchanged, helsewhere, -⟩ := memory_answers_as_history remapped
  have hrefused : (remapped.memory.act (.write 4 9)).answer = .error (.readOnly 4) :=
    (hanswer _).trans rfl
  refine ⟨hrefused, hunchanged _ _ hrefused, ?_, ?_⟩
  · exact (helsewhere _ _ 8 4 rfl rfl (by decide)).trans ((hanswer _).trans rfl)
  · obtain ⟨hloaded, -⟩ := memory_answers_as_history (remapped.after (.load 4 9))
    exact (hloaded _).trans rfl

end MemoryHistory
end FacilityIsa
