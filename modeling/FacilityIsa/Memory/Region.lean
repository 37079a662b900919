import FacilityIsa.Word

/-!
# Segments and regions

A segment says what a stretch of memory is called and whether stores may change
it. A region is a segment together with the addresses it covers: from `start`
up to but not including `stop`, never none at all. Cutting a region off at an
address leaves a region or nothing.
-/

namespace FacilityIsa

structure Segment where
  name : String
  writable : Bool
  deriving DecidableEq, Repr

namespace Segment

def text : Segment := ⟨"text", false⟩

def data : Segment := ⟨"data", true⟩

end Segment

/-- A segment over the addresses `start ≤ address < stop`. -/
structure Region where
  start : Address
  stop : Address
  segment : Segment
  start_lt_stop : start < stop := by decide
  deriving DecidableEq

namespace Region

/-- The region with the given bounds, unless they enclose no address. -/
def ofBounds? (start stop : Address) (segment : Segment) : Option Region :=
  if h : start < stop then some ⟨start, stop, segment, h⟩ else none

def contains (region : Region) (address : Address) : Bool :=
  region.start ≤ address && address < region.stop

theorem contains_iff {region : Region} {address : Address} :
    region.contains address = true ↔ region.start ≤ address ∧ address < region.stop := by
  simp [contains]

theorem contains_start (region : Region) : region.contains region.start = true :=
  contains_iff.2 ⟨BitVec.le_refl _, region.start_lt_stop⟩

/-- The part of a region that lies below an address. -/
def below? (region : Region) (bound : Address) : Option Region :=
  if region.stop ≤ bound then some region
  else if h : region.start < bound then some { region with stop := bound, start_lt_stop := h }
  else none

/-- The part of a region that lies at or above an address. -/
def above? (region : Region) (bound : Address) : Option Region :=
  if bound ≤ region.start then some region
  else if h : bound < region.stop then some { region with start := bound, start_lt_stop := h }
  else none

theorem below?_eq_some {region part : Region} {bound : Address}
    (h : region.below? bound = some part) :
    part.segment = region.segment ∧
      ∀ address,
        part.contains address = true ↔ region.contains address = true ∧ address < bound := by
  unfold below? at h
  split at h
  · next hstop =>
    cases h
    refine ⟨rfl, fun address => ?_⟩
    simp only [contains_iff, BitVec.le_def, BitVec.lt_def] at *
    omega
  · next hstop =>
    split at h
    · cases h
      refine ⟨rfl, fun address => ?_⟩
      simp only [contains_iff, BitVec.le_def, BitVec.lt_def] at *
      omega
    · cases h

theorem below?_eq_none {region : Region} {bound : Address} (h : region.below? bound = none)
    (address : Address) : ¬(region.contains address = true ∧ address < bound) := by
  unfold below? at h
  split at h
  · cases h
  · split at h
    · cases h
    · simp only [contains_iff, BitVec.le_def, BitVec.lt_def] at *
      omega

theorem above?_eq_some {region part : Region} {bound : Address}
    (h : region.above? bound = some part) :
    part.segment = region.segment ∧
      ∀ address,
        part.contains address = true ↔ region.contains address = true ∧ bound ≤ address := by
  unfold above? at h
  split at h
  · next hstart =>
    cases h
    refine ⟨rfl, fun address => ?_⟩
    simp only [contains_iff, BitVec.le_def, BitVec.lt_def] at *
    omega
  · next hstart =>
    split at h
    · cases h
      refine ⟨rfl, fun address => ?_⟩
      simp only [contains_iff, BitVec.le_def, BitVec.lt_def] at *
      omega
    · cases h

theorem above?_eq_none {region : Region} {bound : Address} (h : region.above? bound = none)
    (address : Address) : ¬(region.contains address = true ∧ bound ≤ address) := by
  unfold above? at h
  split at h
  · cases h
  · split at h
    · cases h
    · simp only [contains_iff, BitVec.le_def, BitVec.lt_def] at *
      omega

/-- Two regions join when the second starts where the first stops and both are
of the same segment. -/
def Joins (first second : Region) : Prop :=
  first.stop = second.start ∧ first.segment = second.segment

instance (first second : Region) : Decidable (Joins first second) :=
  inferInstanceAs (Decidable (_ ∧ _))

/-- The one region that two joining regions make up. -/
def join (first second : Region) (h : Joins first second) : Region where
  start := first.start
  stop := second.stop
  segment := first.segment
  start_lt_stop := BitVec.lt_trans first.start_lt_stop (h.1 ▸ second.start_lt_stop)

theorem contains_join {first second : Region} (h : first.Joins second) (address : Address) :
    (first.join second h).contains address = true ↔
      first.contains address = true ∨ second.contains address = true := by
  have hfirst := first.start_lt_stop
  have hsecond := second.start_lt_stop
  have htouch := h.1
  simp only [contains_iff, join, BitVec.le_def, BitVec.lt_def, ← BitVec.toNat_inj] at *
  omega

/-- The name of the segment and its bounds. -/
def listing (region : Region) : String :=
  region.segment.name ++ " " ++ region.start.toHex ++ ".." ++ region.stop.toHex

end Region
end FacilityIsa
