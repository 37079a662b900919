import FacilityIsa.Draws.Seeded
import Mathlib.Algebra.Order.Floor.Div
import Mathlib.Data.FinEnum
import Mathlib.Probability.Distributions.Uniform

/-!
# Accepted words

The words that are accepted for a bound, and the numbers they stand for. The products of
the bound with all words divide into one window of length 2^32 for each number below the
bound, and the words accepted for a number are those whose product lies at the beginning of
its window, within the bound times a power of two. Multiples of the bound lie that far
apart that the beginning of each window holds equally many, a power of two: the words of a
number stand in a row. So a word that is as likely as any other and was accepted stands for
every number below the bound with the same probability.
-/

namespace FacilityIsa

open scoped ENNReal

/-- The product of a word and a bound, in full. -/
def fullProduct (bound word : Word) : BitVec 64 :=
  word.setWidth 64 * bound.setWidth 64

theorem toNat_fullProduct (bound word : Word) :
    (fullProduct bound word).toNat = word.toNat * bound.toNat := by
  have hword := word.isLt
  have hbound := bound.isLt
  have hproduct : word.toNat * bound.toNat < 2 ^ 32 * 2 ^ 32 := Nat.mul_lt_mul'' hword hbound
  simp only [fullProduct, BitVec.toNat_mul, BitVec.toNat_setWidth]
  rw [Nat.mod_eq_of_lt (by omega : word.toNat < 2 ^ 64),
    Nat.mod_eq_of_lt (by omega : bound.toNat < 2 ^ 64), Nat.mod_eq_of_lt (by omega)]

theorem scaleDown_eq_extractLsb' (bound word : Word) :
    scaleDown bound word = (fullProduct bound word).extractLsb' 32 32 := by
  apply BitVec.eq_of_toNat_eq
  have hproduct := (scaleDown bound word).isLt
  rw [toNat_scaleDown] at hproduct ⊢
  rw [BitVec.extractLsb'_toNat, toNat_fullProduct, Nat.shiftRight_eq_div_pow]
  exact (Nat.mod_eq_of_lt hproduct).symm

variable {bound value : Word}

theorem Word.pos_of_lt (h : value < bound) : 0 < bound :=
  BitVec.lt_def.2 (Nat.zero_lt_of_lt (BitVec.lt_def.1 h))

theorem two_pow_le_toNat_of_pos (h : 0 < bound) :
    bound.clz.toNat ≤ 31 ∧ 2 ^ (31 - bound.clz.toNat) ≤ bound.toNat ∧
      bound.toNat < 2 ^ (32 - bound.clz.toNat) := by
  have hne : bound ≠ 0 := (BitVec.pos_iff_ne_zero bound).1 h
  have hclz : bound.clz.toNat < 32 := BitVec.clz_lt_iff_ne_zero.2 hne
  exact ⟨by omega, BitVec.two_pow_sub_clz_le_toNat_of_ne_zero (by decide) hne,
    BitVec.toNat_lt_two_pow_sub_clz⟩

theorem toNat_mul_two_pow_clz_lt (h : 0 < bound) :
    bound.toNat * 2 ^ bound.clz.toNat < 2 ^ 32 := by
  obtain ⟨hclz, -, hupper⟩ := two_pow_le_toNat_of_pos h
  calc bound.toNat * 2 ^ bound.clz.toNat
      < 2 ^ (32 - bound.clz.toNat) * 2 ^ bound.clz.toNat := by gcongr
    _ = 2 ^ 32 := by rw [← Nat.pow_add, Nat.sub_add_cancel (by omega)]

/-- The zone ends right below the bound so shifted. -/
theorem acceptanceZone_add_one (h : 0 < bound) :
    acceptanceZone bound + 1 = bound.toNat * 2 ^ bound.clz.toNat := by
  obtain ⟨hclz, hlower, hupper⟩ := two_pow_le_toNat_of_pos h
  have hne : bound.toNat ≠ 0 := Nat.ne_of_gt h
  have hshifted : 0 < bound.toNat * 2 ^ bound.clz.toNat := by positivity
  have hlog : bound.toNat.log2 = 31 - bound.clz.toNat := by
    rw [Nat.log2_eq_iff hne]
    exact ⟨hlower, by rwa [show 31 - bound.clz.toNat + 1 = 32 - bound.clz.toNat by omega]⟩
  rw [acceptanceZone, hlog, Nat.sub_sub_self hclz, Nat.pow_eq, Nat.sub_add_cancel hshifted]

theorem toNat_shiftLeft_clz_sub_one (h : 0 < bound) :
    (bound <<< bound.clz - 1).toNat = acceptanceZone bound := by
  have hfits := toNat_mul_two_pow_clz_lt h
  have hzone := acceptanceZone_add_one h
  have hshift : (bound <<< bound.clz).toNat = bound.toNat * 2 ^ bound.clz.toNat := by
    rw [BitVec.shiftLeft_eq', BitVec.toNat_shiftLeft, Nat.shiftLeft_eq, Nat.mod_eq_of_lt hfits]
  have hone : (1 : Word).toNat = 1 := rfl
  rw [BitVec.toNat_sub, hshift, hone]
  omega

theorem isAccepted_iff_extractLsb'_le (h : 0 < bound) (word : Word) :
    isAccepted bound word = true ↔
      (fullProduct bound word).extractLsb' 0 32 ≤ bound <<< bound.clz - 1 := by
  rw [BitVec.le_def, toNat_shiftLeft_clz_sub_one h, BitVec.extractLsb'_toNat, toNat_fullProduct,
    Nat.shiftRight_zero, isAccepted, decide_eq_true_iff, Nat.pow_eq]

theorem isAccepted_iff (h : 0 < bound) (word : Word) :
    isAccepted bound word = true ↔
      word.toNat * bound.toNat % 2 ^ 32 < bound.toNat * 2 ^ bound.clz.toNat := by
  rw [isAccepted, decide_eq_true_iff, ← acceptanceZone_add_one h, Nat.lt_succ_iff, Nat.pow_eq]

theorem mod_lt_and_div_eq_iff {number size length index : Nat} (h : length ≤ size) :
    number % size < length ∧ number / size = index ↔
      index * size ≤ number ∧ number < index * size + length := by
  have hsplit := Nat.div_add_mod' number size
  constructor
  · rintro ⟨hlow, rfl⟩
    omega
  · rintro ⟨hlower, hupper⟩
    have hindex : number / size = index := Nat.div_eq_of_lt_le hlower (by
      rw [Nat.succ_mul]
      omega)
    rw [hindex] at hsplit
    exact ⟨by omega, hindex⟩

/-- The numbers whose products with a factor lie in an interval stand in a row, as many of
them as the factor goes into the length of the interval. -/
theorem mul_mem_window_iff {factor : Nat} (h : 0 < factor) (number start count : Nat) :
    (start ≤ number * factor ∧ number * factor < start + factor * count) ↔
      start ⌈/⌉ factor ≤ number ∧ number < start ⌈/⌉ factor + count := by
  have hfirst : ∀ other, start ⌈/⌉ factor ≤ other ↔ start ≤ other * factor := by
    intro other
    rw [ceilDiv_le_iff_le_mul h, Nat.mul_comm]
  refine and_congr (hfirst number).symm ?_
  -- The first numbers, as many as are counted, meet both upper bounds; from the others the
  -- count is taken off.
  rcases Nat.lt_or_ge number count with hfew | hmany
  · have hmul : number * factor < factor * count := by
      rw [Nat.mul_comm]
      exact Nat.mul_lt_mul_of_pos_left hfew h
    exact iff_of_true (by omega) (by omega)
  · obtain ⟨rest, rfl⟩ := Nat.exists_eq_add_of_le hmany
    have hrest := hfirst rest
    rw [Nat.add_mul, Nat.mul_comm count factor]
    omega

/-- The least number whose product with the bound reaches the window of a value. -/
def firstAccepted (bound value : Word) : Nat :=
  value.toNat * 2 ^ 32 ⌈/⌉ bound.toNat

theorem isAccepted_and_scaleDown_eq_iff (h : 0 < bound) (value word : Word) :
    (isAccepted bound word = true ∧ scaleDown bound word = value) ↔
      firstAccepted bound value ≤ word.toNat ∧
        word.toNat < firstAccepted bound value + 2 ^ bound.clz.toNat := by
  have hfits := toNat_mul_two_pow_clz_lt h
  rw [isAccepted_iff h, ← BitVec.toNat_inj, toNat_scaleDown, Nat.pow_eq,
    mod_lt_and_div_eq_iff hfits.le]
  exact mul_mem_window_iff h _ _ _

theorem firstAccepted_add_le (h : value < bound) :
    firstAccepted bound value + 2 ^ bound.clz.toNat ≤ 2 ^ 32 := by
  have hpos : 0 < bound := Word.pos_of_lt h
  have hvalue : value.toNat + 1 ≤ bound.toNat := h
  have hfits := toNat_mul_two_pow_clz_lt hpos
  have hfirst : firstAccepted bound value ≤ 2 ^ 32 := by
    rw [firstAccepted, ceilDiv_le_iff_le_mul hpos]
    omega
  by_contra hlong
  have hrow := (mul_mem_window_iff hpos (2 ^ 32) _ _).2 ⟨hfirst, Nat.lt_of_not_le hlong⟩
  omega

theorem card_words_between {first last : Nat} (h : last ≤ 2 ^ 32) :
    (Finset.univ.filter fun word : Word => first ≤ word.toNat ∧ word.toNat < last).card =
      last - first := by
  have hword : ∀ number ∈ Finset.Ico first last, (BitVec.ofNat 32 number).toNat = number := by
    intro number hnumber
    rw [BitVec.toNat_ofNat, Nat.mod_eq_of_lt ((Finset.mem_Ico.1 hnumber).2.trans_le h)]
  rw [← Nat.card_Ico]
  refine Finset.card_nbij' BitVec.toNat (BitVec.ofNat 32) ?_ ?_ ?_ hword
  · intro word hbetween
    simpa using hbetween
  · intro number hnumber
    have hbetween := Finset.mem_Ico.1 hnumber
    rw [← hword number hnumber] at hbetween
    simpa using hbetween
  · intro word _
    exact BitVec.ofNat_toNat 32 word

/-- The words that are accepted for a bound. -/
def acceptedWords (bound : Word) : Finset Word :=
  Finset.univ.filter fun word => isAccepted bound word = true

/-- Each value below the bound has a power of two of words. -/
theorem card_acceptedWords_filter (h : value < bound) :
    ((acceptedWords bound).filter fun word => scaleDown bound word = value).card =
      2 ^ bound.clz.toNat := by
  have hpos : 0 < bound := Word.pos_of_lt h
  have hlast := firstAccepted_add_le h
  simp only [acceptedWords, Finset.filter_filter, isAccepted_and_scaleDown_eq_iff hpos]
  rw [card_words_between hlast, Nat.add_sub_cancel_left]

theorem card_acceptedWords (h : 0 < bound) :
    (acceptedWords bound).card = bound.toNat * 2 ^ bound.clz.toNat := by
  let values : Finset Word := Finset.univ.filter fun value => 0 ≤ value.toNat ∧ value < bound
  have hvalues : values.card = bound.toNat := card_words_between bound.isLt.le
  have hmem : ∀ value, value ∈ values ↔ value < bound := by
    simp [values]
  have hmaps : Set.MapsTo (scaleDown bound) (acceptedWords bound) values :=
    fun word _ => (hmem _).2 (scaleDown_lt h word)
  rw [Finset.card_eq_sum_card_fiberwise hmaps, ← hvalues]
  exact Finset.sum_const_nat fun value hvalue => card_acceptedWords_filter ((hmem value).1 hvalue)

theorem filter_uniformOfFintype {α : Type} [Fintype α] [Nonempty α] {s : Finset α}
    (hs : s.Nonempty) (h : ∃ a ∈ (s : Set α), a ∈ (PMF.uniformOfFintype α).support) :
    (PMF.uniformOfFintype α).filter s h = PMF.uniformOfFinset s hs := by
  ext a
  have htotal : (PMF.uniformOfFintype α).toOuterMeasure s = s.card / Fintype.card α := by
    rw [PMF.toOuterMeasure_uniformOfFintype_apply]
    simp
  rw [PMF.filter_apply, ← PMF.toOuterMeasure_apply, htotal, PMF.uniformOfFinset_apply]
  by_cases ha : a ∈ s
  · have hall : (Fintype.card α : ℝ≥0∞) ≠ 0 := by simp
    rw [Set.indicator_of_mem (Finset.mem_coe.2 ha), PMF.uniformOfFintype_apply, if_pos ha,
      ENNReal.inv_div (.inl (ENNReal.natCast_ne_top _)) (.inl hall), div_eq_mul_inv, ← mul_assoc,
      ENNReal.inv_mul_cancel hall (ENNReal.natCast_ne_top _), one_mul]
  · simp [ha]

theorem acceptedWords_nonempty (bound : Word) : (acceptedWords bound).Nonempty :=
  ⟨0, by simp [acceptedWords, isAccepted]⟩

/-- A uniform word, given that it is accepted. -/
noncomputable def acceptedWordLaw (bound : Word) : PMF Word :=
  (PMF.uniformOfFintype Word).filter (acceptedWords bound)
    (let ⟨word, hword⟩ := acceptedWords_nonempty bound
    ⟨word, hword, PMF.mem_support_uniformOfFintype word⟩)

/-- An accepted word stands for all values below the bound with the same probability. -/
theorem map_scaleDown_acceptedWordLaw (h : 0 < bound) (value : Word) :
    (acceptedWordLaw bound).map (scaleDown bound) value =
      if value < bound then (bound.toNat : ℝ≥0∞)⁻¹ else 0 := by
  have hlaw : (acceptedWordLaw bound).map (scaleDown bound) value =
      ((acceptedWords bound).filter fun word => scaleDown bound word = value).card /
        (acceptedWords bound).card := by
    rw [← PMF.toOuterMeasure_apply_singleton, PMF.toOuterMeasure_map_apply, acceptedWordLaw,
      filter_uniformOfFintype (acceptedWords_nonempty bound),
      PMF.toOuterMeasure_uniformOfFinset_apply]
    simp only [Set.mem_preimage, Set.mem_singleton_iff]
  rw [hlaw, card_acceptedWords h]
  split
  · next hvalue =>
    have hrow : ((2 ^ bound.clz.toNat : Nat) : ℝ≥0∞) ≠ 0 := by simp
    rw [card_acceptedWords_filter hvalue, Nat.cast_mul,
      ENNReal.div_eq_inv_mul, ENNReal.mul_inv (.inr (ENNReal.natCast_ne_top _)) (.inr hrow),
      mul_assoc, ENNReal.inv_mul_cancel hrow (ENNReal.natCast_ne_top _), mul_one]
  · next hvalue =>
    have hnone : ((acceptedWords bound).filter fun word => scaleDown bound word = value) = ∅ := by
      rw [Finset.filter_eq_empty_iff]
      rintro word - rfl
      exact hvalue (scaleDown_lt h word)
    rw [hnone, Finset.card_empty, Nat.cast_zero, ENNReal.zero_div]

end FacilityIsa
