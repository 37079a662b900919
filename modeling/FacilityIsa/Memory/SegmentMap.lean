import FacilityIsa.Memory.Region

/-!
# Segment maps

A segment map lists the mapped regions by address. Mapping one more region
replaces whatever it covers: a region that reaches into it loses the part it
covers, possibly falling in two, and regions of one segment that touch
afterwards are listed as one.
-/

namespace FacilityIsa

structure SegmentMap where
  regions : List Region
  deriving DecidableEq

namespace SegmentMap

def empty : SegmentMap := ⟨[]⟩

/-- Puts a region before a list of regions, as one with the first if they join. -/
def attach (region : Region) : List Region → List Region
  | [] => [region]
  | next :: rest =>
    if h : region.Joins next then region.join next h :: rest else region :: next :: rest

/-- Lists neighbours that join as one region. -/
def coalesce (regions : List Region) : List Region :=
  regions.foldr attach []

/-- Maps one more region over all that it covers. -/
def insert (segments : SegmentMap) (region : Region) : SegmentMap :=
  let before := segments.regions.filterMap (·.below? region.start)
  let after := segments.regions.filterMap (·.above? region.stop)
  ⟨coalesce (before ++ region :: after)⟩

/-- Maps the regions one after another, so that later ones win. -/
def ofRegions (regions : List Region) : SegmentMap :=
  regions.foldl insert empty

/-- The segment of the first region that covers an address. -/
def segmentIn (regions : List Region) (address : Address) : Option Segment :=
  (regions.find? (·.contains address)).map (·.segment)

/-- The segment that covers an address. -/
def segmentAt (segments : SegmentMap) (address : Address) : Option Segment :=
  segmentIn segments.regions address

@[simp] theorem segmentAt_empty (address : Address) : empty.segmentAt address = none := rfl

@[simp] theorem segmentIn_nil (address : Address) : segmentIn [] address = none := rfl

theorem segmentIn_cons (region : Region) (regions : List Region) (address : Address) :
    segmentIn (region :: regions) address =
      if region.contains address then some region.segment else segmentIn regions address := by
  simp only [segmentIn, List.find?_cons]
  cases region.contains address <;> rfl

theorem segmentIn_append (before after : List Region) (address : Address) :
    segmentIn (before ++ after) address =
      (segmentIn before address).or (segmentIn after address) := by
  simp only [segmentIn, List.find?_append]
  cases before.find? (·.contains address) <;> rfl

theorem segmentIn_attach (region : Region) (regions : List Region) (address : Address) :
    segmentIn (attach region regions) address = segmentIn (region :: regions) address := by
  cases regions with
  | nil => rfl
  | cons next rest =>
    simp only [attach]
    split
    · next h =>
      have hjoin := Region.contains_join h address
      have hsegment : (region.join next h).segment = next.segment := h.2
      simp only [segmentIn_cons, hjoin, hsegment, h.2]
      by_cases hfirst : region.contains address = true <;> simp [hfirst]
    · rfl

theorem segmentIn_coalesce (regions : List Region) (address : Address) :
    segmentIn (coalesce regions) address = segmentIn regions address := by
  induction regions with
  | nil => rfl
  | cons region regions ih =>
    rw [coalesce, List.foldr_cons, segmentIn_attach, segmentIn_cons, segmentIn_cons, ← ih]
    rfl

theorem segmentIn_below (regions : List Region) (bound address : Address) :
    segmentIn (regions.filterMap (·.below? bound)) address =
      if address < bound then segmentIn regions address else none := by
  induction regions with
  | nil => simp
  | cons region regions ih =>
    cases h : region.below? bound with
    | none =>
      have hout := Region.below?_eq_none h address
      simp only [List.filterMap_cons, h, ih, segmentIn_cons]
      by_cases hbound : address < bound
      · have : region.contains address = false := by simpa [hbound] using hout
        simp [this]
      · simp only [hbound, if_false]
    | some part =>
      obtain ⟨hsegment, hpart⟩ := Region.below?_eq_some h
      simp only [List.filterMap_cons, h, ih, segmentIn_cons, hpart address, hsegment]
      by_cases hbound : address < bound <;> simp [hbound]

theorem segmentIn_above (regions : List Region) (bound address : Address) :
    segmentIn (regions.filterMap (·.above? bound)) address =
      if bound ≤ address then segmentIn regions address else none := by
  induction regions with
  | nil => simp
  | cons region regions ih =>
    cases h : region.above? bound with
    | none =>
      have hout := Region.above?_eq_none h address
      simp only [List.filterMap_cons, h, ih, segmentIn_cons]
      by_cases hbound : bound ≤ address
      · have : region.contains address = false := by simpa [hbound] using hout
        simp [this]
      · simp only [hbound, if_false]
    | some part =>
      obtain ⟨hsegment, hpart⟩ := Region.above?_eq_some h
      simp only [List.filterMap_cons, h, ih, segmentIn_cons, hpart address, hsegment]
      by_cases hbound : bound ≤ address <;> simp [hbound]

theorem segmentAt_insert (segments : SegmentMap) (region : Region) (address : Address) :
    (segments.insert region).segmentAt address =
      if region.contains address then some region.segment else segments.segmentAt address := by
  simp only [segmentAt, insert, segmentIn_coalesce, segmentIn_append, segmentIn_cons,
    segmentIn_below, segmentIn_above]
  by_cases hcovers : region.contains address = true
  · have hstart := BitVec.not_lt.2 (Region.contains_iff.1 hcovers).1
    simp [hcovers, hstart]
  · by_cases hstart : address < region.start
    · have hstop : ¬region.stop ≤ address := by
        have := region.start_lt_stop
        simp only [BitVec.le_def, BitVec.lt_def] at *
        omega
      simp [hcovers, hstart, hstop]
    · have hstop : region.stop ≤ address := by
        simp only [Region.contains_iff, BitVec.le_def, BitVec.lt_def] at *
        omega
      simp [hcovers, hstart, hstop]

/-- The regions by address, in brackets. -/
def listing (segments : SegmentMap) : String :=
  "[" ++ String.intercalate ", " (segments.regions.map (·.listing)) ++ "]"

end SegmentMap
end FacilityIsa
