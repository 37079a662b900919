import FacilityIsa.Memory.Basic
import Mathlib.Data.List.Induction
import Mathlib.Tactic.ByContra

/-!
# Canonical segment maps

In whatever order regions are mapped over one another, they end up listed by
address and apart, and no two of them could be listed as one. There is only one
such list for each way of giving segments to addresses. So the listing shows
which segment every address has and nothing of how it came to have it.
-/

namespace FacilityIsa

/-- The region mapped last of those that contain an address. -/
def Region.lastOver? (regions : List Region) (address : Address) : Option Region :=
  regions.reverse.find? (·.contains address)

theorem Region.lastOver?_concat (regions : List Region) (region : Region) (address : Address) :
    lastOver? (regions ++ [region]) address =
      if region.contains address then some region else lastOver? regions address := by
  rw [lastOver?, List.reverse_concat, List.find?_cons]
  cases region.contains address <;> rfl

namespace Region

/-- The first region ends where the second one starts or below, and they do not join. -/
def Precedes (first second : Region) : Prop :=
  first.stop ≤ second.start ∧ ¬first.Joins second

theorem precedes_of_lt {first second : Region} (h : first.stop < second.start) :
    first.Precedes second := by
  refine ⟨BitVec.le_of_lt h, ?_⟩
  rintro ⟨htouch, -⟩
  exact BitVec.lt_irrefl _ (htouch ▸ h)

theorem contains_eq_false_of_le {first second : Region} (h : first.stop ≤ second.start)
    {address : Address} (hfirst : first.contains address = true) :
    second.contains address = false := by
  rw [Bool.eq_false_iff, Ne, contains_iff]
  rw [contains_iff] at hfirst
  simp only [BitVec.le_def, BitVec.lt_def] at *
  omega

theorem eq_of_bounds {first second : Region} (hstart : first.start = second.start)
    (hstop : first.stop = second.stop) (hsegment : first.segment = second.segment) :
    first = second := by
  cases first
  cases second
  simp only at hstart hstop hsegment
  subst hstart hstop hsegment
  rfl

theorem below?_bounds {region part : Region} {bound : Address}
    (h : region.below? bound = some part) :
    part.start = region.start ∧ part.stop ≤ region.stop ∧ part.stop ≤ bound := by
  unfold below? at h
  split at h
  · next hstop =>
    cases h
    exact ⟨rfl, BitVec.le_refl _, hstop⟩
  · next hstop =>
    split at h
    · cases h
      exact ⟨rfl, BitVec.le_of_lt (BitVec.not_le.1 hstop), BitVec.le_refl _⟩
    · cases h

theorem above?_bounds {region part : Region} {bound : Address}
    (h : region.above? bound = some part) :
    part.stop = region.stop ∧ region.start ≤ part.start ∧ bound ≤ part.start := by
  unfold above? at h
  split at h
  · next hstart =>
    cases h
    exact ⟨rfl, BitVec.le_refl _, hstart⟩
  · next hstart =>
    split at h
    · cases h
      exact ⟨rfl, BitVec.le_of_lt (BitVec.not_le.1 hstart), BitVec.le_refl _⟩
    · cases h

end Region

namespace SegmentMap

/-- The regions are listed by address and apart, and no two of them join. -/
def IsCanonical (segments : SegmentMap) : Prop :=
  segments.regions.Pairwise Region.Precedes

section Insertion

theorem start_of_mem_attach {region piece : Region} {regions : List Region}
    (h : piece ∈ attach region regions) :
    ∃ other ∈ region :: regions, piece.start = other.start := by
  cases regions with
  | nil => exact ⟨piece, h, rfl⟩
  | cons next rest =>
    simp only [attach] at h
    split at h
    · rcases List.mem_cons.1 h with rfl | hrest
      · exact ⟨region, .head _, rfl⟩
      · exact ⟨piece, .tail _ (.tail _ hrest), rfl⟩
    · exact ⟨piece, h, rfl⟩

theorem start_of_mem_coalesce {piece : Region} {regions : List Region}
    (h : piece ∈ coalesce regions) : ∃ other ∈ regions, piece.start = other.start := by
  induction regions generalizing piece with
  | nil => exact nomatch h
  | cons region regions ih =>
    obtain ⟨other, hother, hstart⟩ := start_of_mem_attach h
    rcases List.mem_cons.1 hother with rfl | hrest
    · exact ⟨other, .head _, hstart⟩
    · obtain ⟨origin, horigin, hsame⟩ := ih hrest
      exact ⟨origin, .tail _ horigin, hstart.trans hsame⟩

/-- A region below a canonical list either joins the first one or precedes them all. -/
theorem pairwise_attach {region : Region} {regions : List Region}
    (h : regions.Pairwise Region.Precedes)
    (hbelow : ∀ other ∈ regions, region.stop ≤ other.start) :
    (attach region regions).Pairwise Region.Precedes := by
  cases regions with
  | nil => exact List.pairwise_singleton _ _
  | cons next rest =>
    obtain ⟨hnext, hrest⟩ := List.pairwise_cons.1 h
    simp only [attach]
    split
    · next hjoins =>
      refine List.pairwise_cons.2 ⟨?_, hrest⟩
      intro other hother
      obtain ⟨hle, hnot⟩ := hnext other hother
      exact ⟨hle, fun hjoin => hnot ⟨hjoin.1, hjoins.2.symm.trans hjoin.2⟩⟩
    · next hjoins =>
      refine List.pairwise_cons.2 ⟨?_, h⟩
      intro other hother
      rcases List.mem_cons.1 hother with rfl | hother
      · exact ⟨hbelow other (.head _), hjoins⟩
      · apply Region.precedes_of_lt
        have hfirst := hbelow next (.head _)
        have hwidth := next.start_lt_stop
        have hlast := (hnext other hother).1
        simp only [BitVec.le_def, BitVec.lt_def] at *
        omega

theorem pairwise_coalesce {regions : List Region}
    (h : regions.Pairwise fun first second => first.stop ≤ second.start) :
    (coalesce regions).Pairwise Region.Precedes := by
  induction regions with
  | nil => exact .nil
  | cons region regions ih =>
    obtain ⟨hfirst, hrest⟩ := List.pairwise_cons.1 h
    refine pairwise_attach (ih hrest) ?_
    intro other hother
    obtain ⟨origin, horigin, hstart⟩ := start_of_mem_coalesce hother
    exact hstart ▸ hfirst origin horigin

theorem pairwise_below {regions : List Region} (h : regions.Pairwise Region.Precedes)
    (bound : Address) :
    (regions.filterMap (·.below? bound)).Pairwise fun first second =>
      first.stop ≤ second.start := by
  refine h.filterMap _ ?_
  intro first second hprecedes low hlow high hhigh
  have hle := hprecedes.1
  obtain ⟨-, hstop, -⟩ := Region.below?_bounds hlow
  obtain ⟨hstart, -, -⟩ := Region.below?_bounds hhigh
  rw [hstart]
  exact BitVec.le_trans hstop hle

theorem pairwise_above {regions : List Region} (h : regions.Pairwise Region.Precedes)
    (bound : Address) :
    (regions.filterMap (·.above? bound)).Pairwise fun first second =>
      first.stop ≤ second.start := by
  refine h.filterMap _ ?_
  intro first second hprecedes low hlow high hhigh
  have hle := hprecedes.1
  obtain ⟨hstop, -, -⟩ := Region.above?_bounds hlow
  obtain ⟨-, hstart, -⟩ := Region.above?_bounds hhigh
  rw [hstop]
  exact BitVec.le_trans hle hstart

/-- What is left below a new region, the region, and what is left above it are apart. -/
theorem isCanonical_insert {segments : SegmentMap} (h : segments.IsCanonical) (region : Region) :
    (segments.insert region).IsCanonical := by
  have hbelow : ∀ part ∈ segments.regions.filterMap (·.below? region.start),
      part.stop ≤ region.start := by
    intro part hpart
    obtain ⟨origin, -, horigin⟩ := List.mem_filterMap.1 hpart
    exact (Region.below?_bounds horigin).2.2
  have habove : ∀ part ∈ segments.regions.filterMap (·.above? region.stop),
      region.stop ≤ part.start := by
    intro part hpart
    obtain ⟨origin, -, horigin⟩ := List.mem_filterMap.1 hpart
    exact (Region.above?_bounds horigin).2.2
  refine pairwise_coalesce (List.pairwise_append.2 ⟨pairwise_below h _, ?_, ?_⟩)
  · exact List.pairwise_cons.2 ⟨habove, pairwise_above h _⟩
  · intro low hlow high hhigh
    have hstop := hbelow low hlow
    rcases List.mem_cons.1 hhigh with rfl | hhigh
    · exact hstop
    · have hwidth := BitVec.le_of_lt region.start_lt_stop
      exact BitVec.le_trans hstop (BitVec.le_trans hwidth (habove high hhigh))

theorem ofRegions_concat (regions : List Region) (region : Region) :
    ofRegions (regions ++ [region]) = (ofRegions regions).insert region := by
  rw [ofRegions, List.foldl_append]
  rfl

theorem isCanonical_ofRegions (regions : List Region) : (ofRegions regions).IsCanonical := by
  induction regions using List.reverseRecOn with
  | nil => exact .nil
  | append_singleton regions region ih =>
    rw [ofRegions_concat]
    exact isCanonical_insert ih region

theorem segmentAt_ofRegions (regions : List Region) (address : Address) :
    (ofRegions regions).segmentAt address =
      (Region.lastOver? regions address).map (·.segment) := by
  induction regions using List.reverseRecOn with
  | nil => rfl
  | append_singleton regions region ih =>
    rw [ofRegions_concat, segmentAt_insert, Region.lastOver?_concat]
    split
    · rfl
    · exact ih

end Insertion

section Uniqueness

variable {first second : Region} {firsts seconds regions : List Region}

theorem exists_of_segmentIn_eq_some {address : Address} {segment : Segment}
    (h : segmentIn regions address = some segment) :
    ∃ region ∈ regions, region.contains address = true ∧ region.segment = segment := by
  obtain ⟨region, hfind, hsegment⟩ := Option.map_eq_some_iff.1 h
  have hcontains := List.find?_some hfind
  exact ⟨region, List.mem_of_find?_eq_some hfind, hcontains, hsegment⟩

theorem segmentIn_eq_none_of_contains (h : ∀ other ∈ regions, first.Precedes other)
    {address : Address} (hfirst : first.contains address = true) :
    segmentIn regions address = none := by
  rw [segmentIn, Option.map_eq_none_iff, List.find?_eq_none]
  intro other hother
  rw [Region.contains_eq_false_of_le (h other hother).1 hfirst]
  exact Bool.false_ne_true

theorem start_le_of_segmentIn_eq_some (h : (first :: regions).Pairwise Region.Precedes)
    {address : Address} {segment : Segment}
    (hsegment : segmentIn (first :: regions) address = some segment) : first.start ≤ address := by
  obtain ⟨region, hregion, hcontains, -⟩ := exists_of_segmentIn_eq_some hsegment
  have hstart := (Region.contains_iff.1 hcontains).1
  rcases List.mem_cons.1 hregion with rfl | hrest
  · exact hstart
  · have hle := ((List.pairwise_cons.1 h).1 region hrest).1
    exact BitVec.le_trans (BitVec.le_of_lt first.start_lt_stop) (BitVec.le_trans hle hstart)

theorem segmentIn_start (first : Region) (regions : List Region) :
    segmentIn (first :: regions) first.start = some first.segment := by
  rw [segmentIn_cons, if_pos first.contains_start]

/-- Right after the first region of a canonical list its segment is at an end. -/
theorem segmentIn_stop_ne (h : (first :: regions).Pairwise Region.Precedes) :
    segmentIn (first :: regions) first.stop ≠ some first.segment := by
  have hout : ¬first.contains first.stop = true := by
    rw [Region.contains_iff]
    exact fun hin => BitVec.lt_irrefl _ hin.2
  rw [segmentIn_cons, if_neg hout]
  intro hsegment
  obtain ⟨region, hregion, hcontains, hsame⟩ := exists_of_segmentIn_eq_some hsegment
  obtain ⟨hle, hnot⟩ := (List.pairwise_cons.1 h).1 region hregion
  have hstart := (Region.contains_iff.1 hcontains).1
  exact hnot ⟨BitVec.le_antisymm hle hstart, hsame.symm⟩

theorem start_eq_of_segmentIn_eq (hfirsts : (first :: firsts).Pairwise Region.Precedes)
    (hseconds : (second :: seconds).Pairwise Region.Precedes)
    (h : ∀ address,
      segmentIn (first :: firsts) address = segmentIn (second :: seconds) address) :
    first.start = second.start := by
  have hsecond : first.start ≤ second.start :=
    start_le_of_segmentIn_eq_some hfirsts ((h second.start).trans (segmentIn_start _ _))
  have hfirst : second.start ≤ first.start :=
    start_le_of_segmentIn_eq_some hseconds ((h first.start).symm.trans (segmentIn_start _ _))
  exact BitVec.le_antisymm hsecond hfirst

theorem stop_le_of_segmentIn_eq (hfirsts : (first :: firsts).Pairwise Region.Precedes)
    (hstart : first.start = second.start) (hsegment : first.segment = second.segment)
    (h : ∀ address,
      segmentIn (first :: firsts) address = segmentIn (second :: seconds) address) :
    second.stop ≤ first.stop := by
  by_contra hlonger
  -- Otherwise the second region goes on in its segment after the first one has stopped.
  have hin : second.contains first.stop = true := by
    rw [Region.contains_iff, ← hstart]
    exact ⟨BitVec.le_of_lt first.start_lt_stop, BitVec.not_le.1 hlonger⟩
  refine segmentIn_stop_ne hfirsts ?_
  rw [h, segmentIn_cons, if_pos hin, hsegment]

/-- Canonical lists that give every address the same segment are the same list. -/
theorem eq_of_segmentIn_eq (hfirsts : firsts.Pairwise Region.Precedes)
    (hseconds : seconds.Pairwise Region.Precedes)
    (h : ∀ address, segmentIn firsts address = segmentIn seconds address) : firsts = seconds := by
  induction firsts generalizing seconds with
  | nil =>
    cases seconds with
    | nil => rfl
    | cons second seconds => exact nomatch (h second.start).trans (segmentIn_start _ _)
  | cons first firsts ih =>
    cases seconds with
    | nil => exact nomatch (h first.start).symm.trans (segmentIn_start _ _)
    | cons second seconds =>
      have hstart := start_eq_of_segmentIn_eq hfirsts hseconds h
      have hsegment : first.segment = second.segment := by
        have hhead := h first.start
        rw [segmentIn_start, hstart, segmentIn_start] at hhead
        exact Option.some.inj hhead
      have hstop : first.stop = second.stop :=
        BitVec.le_antisymm
          (stop_le_of_segmentIn_eq hseconds hstart.symm hsegment.symm fun address =>
            (h address).symm)
          (stop_le_of_segmentIn_eq hfirsts hstart hsegment h)
      obtain rfl := Region.eq_of_bounds hstart hstop hsegment
      obtain ⟨hlater, hfirsts⟩ := List.pairwise_cons.1 hfirsts
      obtain ⟨hlater', hseconds⟩ := List.pairwise_cons.1 hseconds
      rw [ih hfirsts hseconds]
      intro address
      by_cases hin : first.contains address = true
      · rw [segmentIn_eq_none_of_contains hlater hin, segmentIn_eq_none_of_contains hlater' hin]
      · have htail := h address
        rwa [segmentIn_cons, segmentIn_cons, if_neg hin, if_neg hin] at htail

theorem IsCanonical.ext {segments others : SegmentMap} (hsegments : segments.IsCanonical)
    (hothers : others.IsCanonical)
    (h : ∀ address, segments.segmentAt address = others.segmentAt address) :
    segments = others := by
  obtain ⟨regions⟩ := segments
  obtain ⟨regions'⟩ := others
  rw [mk.injEq]
  exact eq_of_segmentIn_eq hsegments hothers h

end Uniqueness

end SegmentMap

namespace Memory

theorem foldl_map_ofRegions (initial regions : List Region) :
    regions.foldl map (ofRegions initial) = ofRegions (initial ++ regions) := by
  induction regions generalizing initial with
  | nil => rw [List.append_nil, List.foldl_nil]
  | cons region regions ih =>
    have hfirst : (ofRegions initial).map region = ofRegions (initial ++ [region]) := by
      rw [ofRegions, ofRegions, SegmentMap.ofRegions_concat]
      rfl
    rw [List.foldl_cons, hfirst, ih, List.append_assoc, List.singleton_append]

/-- After any mappings the listing shows a canonical list of regions, which gives each
address the segment last mapped over it, and is the only listing to do so. -/
theorem mapped_regions_canonical (initial regions : List Region) :
    let memory := regions.foldl map (ofRegions initial)
    memory.listing =
        "[" ++ String.intercalate ", " (memory.segments.regions.map (·.listing)) ++ "]" ++
          " (0 words in use)" ∧
      memory.segments.IsCanonical ∧
      (∀ address, memory.segmentAt address =
        (Region.lastOver? (initial ++ regions) address).map (·.segment)) ∧
      ∀ initial' regions' : List Region,
        let other := regions'.foldl map (ofRegions initial')
        (∀ address, memory.segmentAt address = other.segmentAt address) →
          memory.segments = other.segments ∧ memory.listing = other.listing := by
  intro memory
  have hmemory : memory = ofRegions (initial ++ regions) := foldl_map_ofRegions initial regions
  have hcanonical : memory.segments.IsCanonical := by
    rw [hmemory]
    exact SegmentMap.isCanonical_ofRegions _
  refine ⟨?_, hcanonical, ?_, ?_⟩
  · have hempty : memory.wordsInUse = 0 := by
      rw [hmemory]
      exact Std.ExtHashMap.size_empty
    have hcount : " (" ++ (toString 0 ++ " words in use)") = " (0 words in use)" := by decide
    rw [listing, hempty, SegmentMap.listing, String.append_assoc, String.append_assoc, hcount]
  · intro address
    rw [hmemory]
    exact SegmentMap.segmentAt_ofRegions _ _
  · intro initial' regions' other hsame
    have hother : other = ofRegions (initial' ++ regions') := foldl_map_ofRegions initial' regions'
    have hsegments : memory.segments = other.segments := by
      refine hcanonical.ext ?_ hsame
      rw [hother]
      exact SegmentMap.isCanonical_ofRegions _
    refine ⟨hsegments, ?_⟩
    rw [hmemory, hother] at hsegments ⊢
    exact congrArg (fun segments => (blank segments).listing) hsegments

/-- Data mapped over the middle of the text and text over it again leave the text in one
piece, as if it had been mapped alone. -/
theorem mapped_regions_canonical_of_restored :
    let text : Region := ⟨0, 16, Segment.text, by decide⟩
    let data : Region := ⟨4, 8, Segment.data, by decide⟩
    let restored : Region := ⟨4, 8, Segment.text, by decide⟩
    let memory := [data, restored].foldl map (ofRegions [text])
    let other := [text].foldl map (ofRegions [])
    (∀ address, memory.segmentAt address = other.segmentAt address) ∧
      memory.segments = other.segments ∧ memory.listing = other.listing := by
  intro text data restored memory other
  have hregions : memory.segments.regions = other.segments.regions := by decide
  have hsame : ∀ address, memory.segmentAt address = other.segmentAt address := by
    intro address
    rw [segmentAt, segmentAt, SegmentMap.segmentAt, SegmentMap.segmentAt, hregions]
  obtain ⟨-, -, -, hunique⟩ := mapped_regions_canonical [text] [data, restored]
  exact ⟨hsame, hunique [] [text] hsame⟩

end Memory
end FacilityIsa
