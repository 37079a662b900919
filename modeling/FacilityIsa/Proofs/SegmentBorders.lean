import FacilityIsa.Proofs.Placement
import Mathlib.Tactic.ByContra

/-!
# Programs across segment borders

Placing a program asks of each address that it is accessible and of no two that
they are in one segment. So a program too long for the segment at the text base
goes on into a segment that touches it, be it writable or not, and is refused
just where the words ahead leave all segments. Whether every program stays in
the segment at the text base is therefore decided by the segments alone. By
default it does not, as the data touches the text.
-/

namespace FacilityIsa

/-- Going up from an address word by word, the first change of segment leads out of all
segments. -/
def Memory.IsIsolated (memory : Memory) (base : Address) : Prop :=
  ∀ count segment other,
    (∀ index ≤ count, memory.segmentAt (Word.ahead base index) = some segment) →
      memory.segmentAt (Word.ahead base (count + 1)) = some other → other = segment

namespace Memory

variable {memory : Memory} {base : Address}

theorem IsIsolated.segmentAt_ahead (h : memory.IsIsolated base) {count : Nat}
    (hmapped : ∀ index < count, ∃ segment,
      memory.segmentAt (Word.ahead base index) = some segment) :
    ∀ index < count, memory.segmentAt (Word.ahead base index) = memory.segmentAt base := by
  induction count with
  | zero =>
    intro index hindex
    exact absurd hindex (Nat.not_lt_zero index)
  | succ count ih =>
    have hbefore := ih fun index hindex => hmapped index (Nat.lt_succ_of_lt hindex)
    intro index hindex
    rcases Nat.lt_succ_iff_lt_or_eq.1 hindex with hlt | rfl
    · exact hbefore index hlt
    · cases index with
      | zero => rw [Word.ahead_zero]
      | succ previous =>
        obtain ⟨segment, hsegment⟩ := hmapped 0 (Nat.succ_pos _)
        obtain ⟨other, hother⟩ := hmapped (previous + 1) hindex
        rw [Word.ahead_zero] at hsegment
        have hsame : ∀ earlier ≤ previous,
            memory.segmentAt (Word.ahead base earlier) = some segment := by
          intro earlier hle
          rw [hbefore earlier (Nat.lt_succ_of_le hle), hsegment]
        rw [hother, hsegment, h previous segment other hsame hother]

end Memory

namespace Machine

/-- Every program that is loaded stays in the segment at the text base just if no other
segment touches that one on the way up. -/
theorem loadProgram_stays_in_segment_iff (machine : Machine) :
    let base := machine.config.textBase
    (∀ words stop, (machine.loadProgram words).answer = .ok stop →
        ∀ index < words.length,
          machine.memory.segmentAt (Word.ahead base index) = machine.memory.segmentAt base) ↔
      (Word.IsAligned base → machine.memory.IsIsolated base) := by
  intro base
  constructor
  · intro hstays haligned count segment other hsame hother
    have hplaced : (machine.loadProgram (List.replicate (count + 2) 0)).answer =
        .ok (Word.ahead base (count + 2)) := by
      rw [loadProgram_eq_ok_iff, Memory.place_eq_ok_iff, List.length_replicate]
      refine ⟨rfl, ?_⟩
      intro index hindex
      have hahead := Word.isAligned_ahead haligned index
      rcases Nat.lt_succ_iff_lt_or_eq.1 hindex with hlt | rfl
      · exact ⟨segment, Memory.access_eq_ok_iff.2 ⟨hahead, hsame index (Nat.le_of_lt_succ hlt)⟩⟩
      · exact ⟨other, Memory.access_eq_ok_iff.2 ⟨hahead, hother⟩⟩
    have hlast := hstays _ _ hplaced (count + 1) (by rw [List.length_replicate]; omega)
    have hfirst := hsame 0 (Nat.zero_le count)
    rw [Word.ahead_zero] at hfirst
    rw [hother, hfirst, Option.some.injEq] at hlast
    exact hlast
  · intro hisolated words stop hload index hindex
    obtain ⟨-, -, hplaced⟩ := loadProgram_eq_ok hload
    obtain ⟨segment, hfirst⟩ := hplaced 0 (Nat.zero_lt_of_lt hindex)
    rw [Word.ahead_zero] at hfirst
    have haligned := (Memory.access_eq_ok_iff.1 hfirst).1
    have hmapped : ∀ index < words.length, ∃ segment,
        machine.memory.segmentAt (Word.ahead base index) = some segment := by
      intro index hindex
      obtain ⟨segment, haccess⟩ := hplaced index hindex
      exact ⟨segment, (Memory.access_eq_ok_iff.1 haccess).2⟩
    exact (hisolated haligned).segmentAt_ahead hmapped index hindex

/-- A program of two words is loaded although its second word lies in the writable data
that touches the read-only text. -/
theorem loadProgram_crosses_into_data :
    let config : MachineConfig :=
      { textBase := 0
        regions := [{ start := 0, stop := 4, segment := Segment.text },
                    { start := 4, stop := 8, segment := Segment.data }] }
    let machine := Machine.new config
    (machine.loadProgram [1, 2]).answer = .ok 8 ∧
      machine.memory.segmentAt 0 = some Segment.text ∧
        machine.memory.segmentAt 4 = some Segment.data ∧
          (machine.loadProgram [1, 2]).after.readWord 4 = .ok 2 := by
  intro config machine
  have htext : machine.memory.segmentAt 0 = some Segment.text := rfl
  have hdata : machine.memory.segmentAt 4 = some Segment.data := rfl
  have hload : (machine.loadProgram [1, 2]).answer = .ok 8 := by
    rw [loadProgram_eq_ok_iff, Memory.place_eq_ok_iff]
    refine ⟨by decide, ?_⟩
    intro index hindex
    have hcases : index = 0 ∨ index = 1 := by
      rw [List.length_cons, List.length_singleton] at hindex
      omega
    rcases hcases with rfl | rfl
    · exact ⟨_, Memory.access_eq_ok_iff.2 ⟨by decide, htext⟩⟩
    · exact ⟨_, Memory.access_eq_ok_iff.2 ⟨by decide, hdata⟩⟩
  have hmapped : (machine.loadProgram [1, 2]).after.memory.segmentAt 4 = some Segment.data := by
    rw [Memory.segmentAt, segments_loadProgram]
    exact hdata
  have hword : (machine.loadProgram [1, 2]).after.memory.wordAt 4 = 2 := by
    rw [memory_loadProgram]
    exact Memory.wordAt_place (loadProgram_eq_ok_iff.1 hload) (by decide)
      (show 1 < [(1 : Word), 2].length by decide)
  refine ⟨hload, htext, hdata, ?_⟩
  rw [readWord, Memory.read_eq_ok (by decide) hmapped, hword]

theorem segmentAt_default (address : Address) :
    (Machine.new {}).memory.segmentAt address =
      if 0x10000000 ≤ address.toNat ∧ address.toNat < 0x80000000 then some Segment.data
      else if 0x00400000 ≤ address.toNat ∧ address.toNat < 0x10000000 then some Segment.text
      else none := by
  change ((SegmentMap.empty.insert ⟨0x00400000, 0x10000000, Segment.text, by decide⟩).insert
    ⟨0x10000000, 0x80000000, Segment.data, by decide⟩).segmentAt address = _
  simp only [SegmentMap.segmentAt_insert, SegmentMap.segmentAt_empty, Region.contains_iff,
    BitVec.le_def, BitVec.lt_def]
  rfl

/-- By default a program that is too long for the text is loaded all the same, with the
words for which there is no room in the data. -/
theorem loadProgram_default (words : List Word) :
    let machine := Machine.new {}
    ((∃ stop, (machine.loadProgram words).answer = .ok stop) ↔ words.length ≤ 535822336) ∧
      ∀ index < 535822336, machine.memory.segmentAt (Word.ahead 0x00400000 index) =
        some (if index < 66060288 then Segment.text else Segment.data) := by
  intro machine
  have hsegment : ∀ index < 535822336, machine.memory.segmentAt (Word.ahead 0x00400000 index) =
      some (if index < 66060288 then Segment.text else Segment.data) := by
    intro index hindex
    have hnat : (Word.ahead 0x00400000 index).toNat = 0x00400000 + 4 * index := by
      rw [Word.toNat_ahead]
      exact Nat.mod_eq_of_lt (by change 0x00400000 + 4 * index < 2 ^ 32; omega)
    rw [segmentAt_default, hnat]
    by_cases htext : index < 66060288
    · rw [if_neg (by omega), if_pos (by omega), if_pos htext]
    · rw [if_pos (by omega), if_neg htext]
  have hend : machine.memory.segmentAt (Word.ahead 0x00400000 535822336) = none := by
    rw [segmentAt_default]
    decide
  refine ⟨?_, hsegment⟩
  simp only [loadProgram_eq_ok_iff, Memory.place_eq_ok_iff, exists_eq_left]
  constructor
  · intro hplaced
    by_contra hlong
    obtain ⟨segment, haccess⟩ := hplaced 535822336 (by omega)
    exact nomatch hend.symm.trans (Memory.access_eq_ok_iff.1 haccess).2
  · intro hroom index hindex
    exact ⟨_, Memory.access_eq_ok_iff.2
      ⟨Word.isAligned_ahead (by decide) index, hsegment index (by omega)⟩⟩

end Machine
end FacilityIsa
