import FacilityIsa.Memory.AddressError
import FacilityIsa.Memory.SegmentMap
import Std.Data.ExtHashMap

/-!
# Segmented memory

Memory holds a word at every multiple of four inside a mapped segment; a word
never stored reads as zero. An access is refused first for an address that is
no multiple of four, then for one outside every segment, and a store also for
one in a read-only segment. Loading stores a word whether or not its segment is
writable.

Only words other than zero are kept: storing a zero forgets the word. So the
kept words are exactly those that do not read as zero, and can be counted.
-/

namespace FacilityIsa

structure Memory where
  segments : SegmentMap
  words : Std.ExtHashMap Address Word

namespace Memory

/-- Memory with the given segments and every word zero. -/
def blank (segments : SegmentMap) : Memory :=
  ⟨segments, ∅⟩

def ofRegions (regions : List Region) : Memory :=
  blank (SegmentMap.ofRegions regions)

/-- Maps one more region; the stored words stay. -/
def map (memory : Memory) (region : Region) : Memory :=
  { memory with segments := memory.segments.insert region }

def segmentAt (memory : Memory) (address : Address) : Option Segment :=
  memory.segments.segmentAt address

/-- The word stored at an address, whatever its segment. -/
def wordAt (memory : Memory) (address : Address) : Word :=
  memory.words.getD address 0

/-- The segment that an access to an address reaches. -/
def access (memory : Memory) (address : Address) : Except AddressError Segment :=
  if Word.IsAligned address then
    match memory.segmentAt address with
    | some segment => .ok segment
    | none => .error (.unmapped address)
  else .error (.unaligned address)

def read (memory : Memory) (address : Address) : Except AddressError Word :=
  (memory.access address).map fun _ => memory.wordAt address

/-- Keeps a word at an address, or forgets it if it is zero. -/
def store (memory : Memory) (address : Address) (word : Word) : Memory :=
  { memory with
    words := if word = 0 then memory.words.erase address else memory.words.insert address word }

/-- Stores a word in a writable segment. -/
def write (memory : Memory) (address : Address) (word : Word) : Except AddressError Memory :=
  match memory.access address with
  | .error error => .error error
  | .ok segment =>
    if segment.writable then .ok (memory.store address word) else .error (.readOnly address)

/-- Stores a word in any segment. -/
def load (memory : Memory) (address : Address) (word : Word) : Except AddressError Memory :=
  (memory.access address).map fun _ => memory.store address word

/-- Forgets every word and keeps the segments. -/
def clear (memory : Memory) : Memory :=
  { memory with words := ∅ }

/-- How many words other than zero are stored. -/
def wordsInUse (memory : Memory) : Nat :=
  memory.words.size

variable (memory : Memory) (address other : Address) (word : Word)

@[simp] theorem wordAt_blank (segments : SegmentMap) : (blank segments).wordAt address = 0 := by
  simp [blank, wordAt]

@[simp] theorem wordAt_clear : memory.clear.wordAt address = 0 := by
  simp [clear, wordAt]

theorem wordAt_store :
    (memory.store address word).wordAt other =
      if other = address then word else memory.wordAt other := by
  simp only [store, wordAt]
  split <;> by_cases hsame : other = address
  · simp_all
  · simp [Std.ExtHashMap.getD_erase, hsame, Ne.symm hsame]
  · simp [hsame]
  · simp [Std.ExtHashMap.getD_insert, hsame, Ne.symm hsame]

@[simp] theorem segments_store : (memory.store address word).segments = memory.segments := rfl

@[simp] theorem segments_clear : memory.clear.segments = memory.segments := rfl

@[simp] theorem access_store :
    (memory.store address word).access other = memory.access other := rfl

variable {memory address word}

theorem access_eq_ok_iff {segment : Segment} :
    memory.access address = .ok segment ↔
      Word.IsAligned address ∧ memory.segmentAt address = some segment := by
  unfold access
  split
  · next haligned => cases memory.segmentAt address <;> simp [haligned]
  · next haligned => simp [haligned]

theorem access_eq_error_iff {error : AddressError} :
    memory.access address = .error error ↔
      (¬Word.IsAligned address ∧ error = .unaligned address) ∨
        Word.IsAligned address ∧ memory.segmentAt address = none ∧
          error = .unmapped address := by
  unfold access
  split
  · next haligned => cases memory.segmentAt address <;> simp [haligned, eq_comm]
  · next haligned => simp [haligned, eq_comm]

theorem read_eq_ok {segment : Segment} (haligned : Word.IsAligned address)
    (hmapped : memory.segmentAt address = some segment) :
    memory.read address = .ok (memory.wordAt address) := by
  rw [read, access_eq_ok_iff.2 ⟨haligned, hmapped⟩]
  rfl

theorem read_store {segment : Segment} (haligned : Word.IsAligned address)
    (hmapped : memory.segmentAt address = some segment) :
    (memory.store address word).read address = .ok word := by
  rw [read, access_store, access_eq_ok_iff.2 ⟨haligned, hmapped⟩]
  simp only [Except.map, wordAt_store, if_true]

theorem read_eq_error_iff {error : AddressError} :
    memory.read address = .error error ↔ memory.access address = .error error := by
  unfold read
  cases memory.access address <;> simp [Except.map]

theorem write_eq_error_iff {error : AddressError} :
    memory.write address word = .error error ↔
      memory.access address = .error error ∨
        ∃ segment, memory.access address = .ok segment ∧ segment.writable = false ∧
          error = .readOnly address := by
  unfold write
  cases haccess : memory.access address with
  | error cause => simp
  | ok segment =>
    cases hwritable : segment.writable with
    | false => simpa [hwritable] using eq_comm
    | true => simp [hwritable]

theorem write_eq_ok_iff {written : Memory} :
    memory.write address word = .ok written ↔
      (∃ segment, memory.access address = .ok segment ∧ segment.writable = true) ∧
        memory.store address word = written := by
  unfold write
  cases haccess : memory.access address with
  | error cause => simp
  | ok segment => cases hwritable : segment.writable <;> simp [hwritable]

/-- The regions and how many words other than zero are stored. -/
def listing (memory : Memory) : String :=
  memory.segments.listing ++ " (" ++ toString memory.wordsInUse ++ " words in use)"

end Memory
end FacilityIsa
