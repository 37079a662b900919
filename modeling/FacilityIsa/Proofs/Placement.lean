import FacilityIsa.Machine.Loading
import Mathlib.Algebra.Group.Nat.Defs

/-!
# Where a program lies

A program that was placed has one accessible address for each of its words, a
word apart from the text base on, and its end is the address after the last of
them. Addresses wrap, so the end may be below the text base; an address that is
between the two all the same is one of a placed word.
-/

namespace FacilityIsa
namespace Word

/-- The address a number of words after an address. -/
def ahead (address : Address) (count : Nat) : Address :=
  address + BitVec.ofNat 32 (4 * count)

@[simp] theorem ahead_zero (address : Address) : ahead address 0 = address :=
  BitVec.add_zero address

theorem ahead_next (address : Address) (count : Nat) :
    ahead (next address) count = ahead address (count + 1) := by
  rw [ahead, ahead, next, BitVec.add_assoc, Nat.mul_succ, Nat.add_comm, BitVec.ofNat_add]
  rfl

theorem ahead_ahead (address : Address) (first second : Nat) :
    ahead (ahead address first) second = ahead address (first + second) := by
  rw [ahead, ahead, ahead, BitVec.add_assoc, ← BitVec.ofNat_add, Nat.mul_add]

theorem next_ahead (address : Address) (count : Nat) :
    next (ahead address count) = ahead address (count + 1) :=
  ahead_ahead address count 1

theorem toNat_ahead (address : Address) (count : Nat) :
    (ahead address count).toNat = (address.toNat + 4 * count) % 2 ^ 32 := by
  rw [ahead, BitVec.toNat_add, BitVec.toNat_ofNat, Nat.add_mod_mod]

theorem isAligned_ahead {address : Address} (h : IsAligned address) (count : Nat) :
    IsAligned (ahead address count) := by
  rw [IsAligned, toNat_ahead]
  rw [IsAligned] at h
  omega

theorem ahead_inj {address : Address} {i j : Nat} (hi : i < 2 ^ 30) (hj : j < 2 ^ 30)
    (h : ahead address i = ahead address j) : i = j := by
  have hnat := congrArg BitVec.toNat h
  rw [toNat_ahead, toNat_ahead] at hnat
  omega

theorem exists_ahead_of_lt {first address : Address} {count : Nat} (hfirst : IsAligned first)
    (haligned : IsAligned address) (hle : first ≤ address) (hlt : address < ahead first count) :
    ∃ index < count, address = ahead first index := by
  rw [BitVec.le_def] at hle
  rw [BitVec.lt_def, toNat_ahead] at hlt
  obtain ⟨offset, hoffset⟩ := Nat.exists_eq_add_of_le hle
  have hmultiple : offset % 4 = 0 := by
    rw [IsAligned] at hfirst haligned
    omega
  have hindex : offset = 4 * (offset / 4) := by omega
  have hbelow := Nat.mod_le (first.toNat + 4 * count) (2 ^ 32)
  refine ⟨offset / 4, by omega, BitVec.eq_of_toNat_eq ?_⟩
  rw [toNat_ahead, ← hindex, ← hoffset, Nat.mod_eq_of_lt address.isLt]

end Word

/-- A program is placed exactly when each of its words has an accessible address, of
whatever segment, and its end is the address after the last one. -/
theorem Memory.place_eq_ok_iff {memory : Memory} {address stop : Address} {words : List Word} :
    (memory.place address words).answer = .ok stop ↔
      stop = Word.ahead address words.length ∧
        ∀ index < words.length, ∃ segment,
          memory.access (Word.ahead address index) = .ok segment := by
  induction words generalizing memory address with
  | nil =>
    rw [List.length_nil, Word.ahead_zero]
    constructor
    · intro h
      cases h
      exact ⟨rfl, fun index hindex => absurd hindex (Nat.not_lt_zero index)⟩
    · rintro ⟨rfl, -⟩
      rfl
  | cons word words ih =>
    rw [place]
    cases haccess : memory.access address with
    | error error =>
      constructor
      · intro h
        cases h
      · rintro ⟨-, hplaced⟩
        obtain ⟨segment, hfirst⟩ := hplaced 0 (Nat.succ_pos _)
        rw [Word.ahead_zero, haccess] at hfirst
        cases hfirst
    | ok segment =>
      refine ih.trans ?_
      rw [Word.ahead_next, List.length_cons]
      refine and_congr_right fun _ => ⟨?_, ?_⟩
      · intro hplaced index hindex
        cases index with
        | zero => exact ⟨segment, by rw [Word.ahead_zero, haccess]⟩
        | succ index =>
          have hrest := hplaced index (Nat.lt_of_succ_lt_succ hindex)
          rw [Word.ahead_next] at hrest
          exact hrest
      · intro hplaced index hindex
        rw [Word.ahead_next]
        exact hplaced (index + 1) (Nat.succ_lt_succ hindex)

theorem Memory.wordAt_place_of_ne (memory : Memory) (address : Address) (words : List Word)
    {other : Address} (h : ∀ index < words.length, other ≠ Word.ahead address index) :
    (memory.place address words).after.wordAt other = memory.wordAt other := by
  induction words generalizing memory address with
  | nil => rfl
  | cons word words ih =>
    rw [place]
    cases memory.access address with
    | error error => rfl
    | ok segment =>
      have hfirst : other ≠ address := by
        have hne := h 0 (Nat.succ_pos _)
        rwa [Word.ahead_zero] at hne
      have hrest : ∀ index < words.length, other ≠ Word.ahead (Word.next address) index := by
        intro index hindex
        rw [Word.ahead_next]
        exact h (index + 1) (Nat.succ_lt_succ hindex)
      rw [ih _ _ hrest, wordAt_store, if_neg hfirst]

/-- A placed word is found at its address. A program of more words than there are
multiples of four would run into its own beginning. -/
theorem Memory.wordAt_place {memory : Memory} {address stop : Address} {words : List Word}
    (h : (memory.place address words).answer = .ok stop) (hlength : words.length ≤ 2 ^ 30)
    {index : Nat} (hindex : index < words.length) :
    (memory.place address words).after.wordAt (Word.ahead address index) = words[index] := by
  induction words generalizing memory address index with
  | nil => exact absurd hindex (Nat.not_lt_zero index)
  | cons word words ih =>
    rw [place] at h ⊢
    cases haccess : memory.access address with
    | error error =>
      rw [haccess] at h
      cases h
    | ok segment =>
      rw [haccess] at h
      rw [List.length_cons] at hlength hindex
      cases index with
      | zero =>
        have hlater : ∀ later < words.length,
            Word.ahead address 0 ≠ Word.ahead (Word.next address) later := by
          intro later hlt heq
          rw [Word.ahead_next] at heq
          have hindex := Word.ahead_inj (by omega) (by omega) heq
          exact Nat.succ_ne_zero later hindex.symm
        rw [wordAt_place_of_ne _ _ _ hlater, Word.ahead_zero, wordAt_store, if_pos rfl]
        rfl
      | succ index =>
        rw [← Word.ahead_next]
        exact ih h (by omega) (by omega)

namespace Machine

variable {machine : Machine} {words : List Word}

theorem memory_loadProgram (machine : Machine) (words : List Word) :
    (machine.loadProgram words).after.memory =
      (machine.memory.place machine.config.textBase words).after := by
  unfold loadProgram
  dsimp only
  split <;> next hplace => rw [hplace]; rfl

theorem answer_loadProgram (machine : Machine) (words : List Word) :
    (machine.loadProgram words).answer =
      (machine.memory.place machine.config.textBase words).answer := by
  unfold loadProgram
  dsimp only
  split <;> next hplace => rw [hplace]; rfl

theorem loadProgram_eq_ok_iff {stop : Address} :
    (machine.loadProgram words).answer = .ok stop ↔
      (machine.memory.place machine.config.textBase words).answer = .ok stop := by
  rw [answer_loadProgram]

theorem loadProgram_eq_ok {stop : Address} (h : (machine.loadProgram words).answer = .ok stop) :
    stop = Word.ahead machine.config.textBase words.length ∧
      (machine.loadProgram words).after.pc = machine.config.textBase ∧
        ∀ index < words.length, ∃ segment,
          machine.memory.access (Word.ahead machine.config.textBase index) = .ok segment := by
  obtain ⟨hstop, hplaced⟩ := Memory.place_eq_ok_iff.1 (loadProgram_eq_ok_iff.1 h)
  refine ⟨hstop, ?_, hplaced⟩
  unfold loadProgram at *
  dsimp only at *
  split at h
  · rfl
  · exact nomatch h

theorem mapped_of_loadProgram {address stop : Address}
    (h : (machine.loadProgram words).answer = .ok stop)
    (hfirst : machine.config.textBase ≤ address) (hstop : address < stop) :
    Word.IsAligned machine.config.textBase ∧ (Word.IsAligned address →
      ∃ segment, machine.memory.segmentAt address = some segment) := by
  obtain ⟨rfl, -, hplaced⟩ := loadProgram_eq_ok h
  have hbase : Word.IsAligned machine.config.textBase := by
    cases words with
    | nil =>
      rw [List.length_nil, Word.ahead_zero] at hstop
      exact absurd hstop (BitVec.not_lt.2 hfirst)
    | cons word words =>
      obtain ⟨segment, haccess⟩ := hplaced 0 (Nat.succ_pos _)
      rw [Word.ahead_zero] at haccess
      exact (Memory.access_eq_ok_iff.1 haccess).1
  refine ⟨hbase, ?_⟩
  intro haligned
  obtain ⟨index, hindex, rfl⟩ := Word.exists_ahead_of_lt hbase haligned hfirst hstop
  obtain ⟨segment, haccess⟩ := hplaced index hindex
  exact ⟨segment, (Memory.access_eq_ok_iff.1 haccess).2⟩

theorem pc_loadProgram_of_error {error : AddressError}
    (h : (machine.loadProgram words).answer = .error error) :
    (machine.loadProgram words).after.pc = machine.pc := by
  unfold loadProgram at *
  dsimp only at *
  split at h
  · exact nomatch h
  · rfl

@[simp] theorem segments_loadProgram (machine : Machine) (words : List Word) :
    (machine.loadProgram words).after.memory.segments = machine.memory.segments := by
  rw [memory_loadProgram, Memory.segments_place]

end Machine
end FacilityIsa
