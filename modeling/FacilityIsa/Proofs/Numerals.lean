import FacilityIsa.Text.Blank
import FacilityIsa.Text.Numeral
import Mathlib.Data.List.Forall2
import Mathlib.Data.List.TakeWhile
import Mathlib.Data.Nat.Digits.Defs
import Mathlib.Tactic.SplitIfs

/-!
# Trimmed texts and numerals

What reading accepts, said by what is written. A trimmed text is what stands between
blanks and neither starts nor ends with one. A numeral is a row of digits behind a plus
sign or none, and has the value of the row in its base; no letter of a row is a sign, so
there is one way only to take a numeral apart.
-/

namespace FacilityIsa
namespace Text

section Trimming

variable {text core left right : List Char}

/-- The core stands in the text between blanks, of which it has none at its own ends. -/
def StandsIn (core text : List Char) : Prop :=
  ∃ left right, text = left ++ core ++ right ∧ (∀ c ∈ left, isBlank c = true) ∧
    (∀ c ∈ right, isBlank c = true) ∧
    (∀ c ∈ core.head?, isBlank c = false) ∧ ∀ c ∈ core.getLast?, isBlank c = false

theorem dropWhile_eq_iff {α : Type} {p : α → Bool} {values rest : List α} :
    values.dropWhile p = rest ↔
      ∃ front, values = front ++ rest ∧ (∀ a ∈ front, p a = true) ∧
        ∀ a ∈ rest.head?, p a = false := by
  constructor
  · rintro rfl
    refine ⟨values.takeWhile p, List.takeWhile_append_dropWhile.symm,
      List.all_eq_true.1 List.all_takeWhile, ?_⟩
    intro a ha
    have hhead := List.head?_dropWhile_not p values
    rw [Option.mem_def.1 ha] at hhead
    exact hhead
  · rintro ⟨front, rfl, hfront, hrest⟩
    rw [List.dropWhile_append_of_pos hfront]
    cases rest with
    | nil => rfl
    | cons a rest => exact List.dropWhile_cons_of_neg (Bool.eq_false_iff.1 (hrest a rfl))

theorem trim_append_left (hleft : ∀ c ∈ left, isBlank c = true) :
    trim (left ++ text) = trim text := by
  rw [trim, trim, List.dropWhile_append_of_pos hleft]

theorem trim_append_right (hright : ∀ c ∈ right, isBlank c = true) :
    trim (text ++ right) = trim text := by
  rw [trim, trim, List.dropWhile_append]
  split
  · next hempty =>
    rw [List.dropWhile_eq_nil_iff.2 hright, List.isEmpty_iff.1 hempty]
  · rw [List.reverse_append, List.dropWhile_append_of_pos]
    intro c hc
    exact hright c (List.mem_reverse.1 hc)

theorem trim_eq_self (hfirst : ∀ c ∈ core.head?, isBlank c = false)
    (hlast : ∀ c ∈ core.getLast?, isBlank c = false) : trim core = core := by
  have hdrop : core.dropWhile isBlank = core :=
    dropWhile_eq_iff.2 ⟨[], rfl, List.forall_mem_nil _, hfirst⟩
  have hreverse : core.reverse.dropWhile isBlank = core.reverse :=
    dropWhile_eq_iff.2 ⟨[], rfl, List.forall_mem_nil _, by rwa [List.head?_reverse]⟩
  rw [trim, hdrop, hreverse, List.reverse_reverse]

theorem trim_eq_iff : trim text = core ↔ StandsIn core text := by
  constructor
  · intro h
    rw [trim, List.reverse_eq_iff, dropWhile_eq_iff] at h
    obtain ⟨back, hback, hblank, hlast⟩ := h
    rw [List.reverse_eq_iff, List.reverse_append, List.reverse_reverse, dropWhile_eq_iff] at hback
    obtain ⟨front, rfl, hfront, hfirst⟩ := hback
    refine ⟨front, back.reverse, (List.append_assoc ..).symm, hfront, ?_, ?_, ?_⟩
    · intro c hc
      exact hblank c (List.mem_reverse.1 hc)
    · intro c hc
      refine hfirst c ?_
      rw [List.head?_append, Option.mem_def.1 hc, Option.some_or]
      rfl
    · rwa [List.head?_reverse] at hlast
  · rintro ⟨left, right, rfl, hleft, hright, hfirst, hlast⟩
    rw [trim_append_right hright, trim_append_left hleft, trim_eq_self hfirst hlast]

end Trimming

section Numerals

variable {base limit value digit : Nat} {c : Char} {text row : List Char}

/-- The character is a digit of the base with the given value, a letter of either case. -/
def IsDigit (base : Nat) (c : Char) (digit : Nat) : Prop :=
  digit < base ∧ (c = digit.digitChar ∨ c = digit.digitChar.toUpper)

/-- At least one digit of the base, and the value of them all, the last weighing least. -/
def IsRow (base : Nat) (row : List Char) (value : Nat) : Prop :=
  ∃ digits, digits ≠ [] ∧ List.Forall₂ (IsDigit base) row digits ∧
    value = Nat.ofDigits base digits.reverse

/-- A plus sign or none. -/
def IsSign (sign : List Char) : Prop :=
  sign = [] ∨ sign = ['+']

instance (base : Nat) (c : Char) (digit : Nat) : Decidable (IsDigit base c digit) :=
  inferInstanceAs (Decidable (_ ∧ _))

theorem toNat_lt_of_digitValue (h : digitValue c = some digit) : c.toNat < 103 := by
  have hlast : ∀ {last : Char}, c ≤ last → c.toNat ≤ last.toNat := id
  unfold digitValue at h
  split_ifs at h with hdecimal hlower hupper
  · exact Nat.lt_of_le_of_lt (hlast hdecimal.2) (by decide)
  · exact Nat.lt_of_le_of_lt (hlast hlower.2) (by decide)
  · exact Nat.lt_of_le_of_lt (hlast hupper.2) (by decide)

theorem digitValue_eq_some_iff : digitValue c = some digit ↔ IsDigit 16 c digit := by
  constructor
  · intro h
    have hread : ∀ code < 103, ∀ digit ∈ digitValue (Char.ofNat code),
        IsDigit 16 (Char.ofNat code) digit := by
      decide
    have hdigit := hread c.toNat (toNat_lt_of_digitValue h)
    rw [Char.ofNat_toNat] at hdigit
    exact hdigit digit h
  · have hread : ∀ digit < 16, digitValue digit.digitChar = some digit ∧
        digitValue digit.digitChar.toUpper = some digit := by
      decide
    rintro ⟨hdigit, rfl | rfl⟩
    · exact (hread digit hdigit).1
    · exact (hread digit hdigit).2

theorem isBlank_of_digitValue (h : digitValue c = some digit) : isBlank c = false := by
  have hdigits : ∀ digit < 16, isBlank digit.digitChar = false ∧
      isBlank digit.digitChar.toUpper = false := by
    decide
  obtain ⟨hdigit, rfl | rfl⟩ := digitValue_eq_some_iff.1 h
  · exact (hdigits digit hdigit).1
  · exact (hdigits digit hdigit).2

theorem digitOf_eq_some_iff (hbase : base ≤ 16) :
    digitOf base c = some digit ↔ IsDigit base c digit := by
  rw [digitOf, Option.filter_eq_some_iff, digitValue_eq_some_iff, IsDigit, IsDigit,
    decide_eq_true_eq]
  constructor
  · rintro ⟨⟨-, hc⟩, hdigit⟩
    exact ⟨hdigit, hc⟩
  · rintro ⟨hdigit, hc⟩
    exact ⟨⟨Nat.lt_of_lt_of_le hdigit hbase, hc⟩, hdigit⟩

theorem mapM_eq_some_iff {α β : Type} {f : α → Option β} {values : List α} {results : List β} :
    values.mapM f = some results ↔ List.Forall₂ (fun a b => f a = some b) values results := by
  induction values generalizing results with
  | nil => simp [eq_comm]
  | cons a values ih =>
    simp only [List.mapM_cons, Option.bind_eq_bind, Option.bind_eq_some_iff, ih, Option.pure_def,
      Option.some.injEq, List.forall₂_cons_left_iff]
    constructor
    · rintro ⟨b, hb, rest, hrest, rfl⟩
      exact ⟨b, rest, hb, hrest, rfl⟩
    · rintro ⟨b, rest, hb, hrest, rfl⟩
      exact ⟨b, hb, rest, hrest, rfl⟩

theorem ofDigits_eq (base : Nat) (digits : List Nat) :
    ofDigits base digits = Nat.ofDigits base digits.reverse := by
  rw [← List.reverse_reverse digits]
  generalize digits.reverse = low
  induction low with
  | nil => rfl
  | cons digit low ih =>
    rw [List.reverse_cons, ofDigits, List.foldl_append, ← ofDigits, ih, List.reverse_reverse,
      ← List.reverse_cons, List.reverse_reverse, Nat.ofDigits_cons]
    simp only [List.foldl_cons, List.foldl_nil]
    rw [Nat.mul_comm, Nat.add_comm]

theorem IsRow.exists_digitValue (hrow : IsRow base row value) (hbase : base ≤ 16)
    (hc : c ∈ row) : ∃ digit, digitValue c = some digit := by
  obtain ⟨digits, -, hread, -⟩ := hrow
  induction hread with
  | nil => exact absurd hc List.not_mem_nil
  | cons hdigit _ ih =>
    obtain rfl | hc := List.mem_cons.1 hc
    · exact ⟨_, digitValue_eq_some_iff.2 ⟨Nat.lt_of_lt_of_le hdigit.1 hbase, hdigit.2⟩⟩
    · exact ih hc

theorem IsRow.ne_nil (hrow : IsRow base row value) : row ≠ [] := by
  obtain ⟨digits, hdigits, hread, -⟩ := hrow
  rintro rfl
  exact hdigits (List.forall₂_nil_left_iff.1 hread)

theorem withoutPlus_append {sign : List Char} (hsign : IsSign sign) (hbase : base ≤ 16)
    (hrow : IsRow base row value) : withoutPlus (sign ++ row) = row := by
  obtain rfl | rfl := hsign
  · rw [List.nil_append, withoutPlus]
    rintro text rfl
    obtain ⟨digit, hplus⟩ := hrow.exists_digitValue hbase List.mem_cons_self
    exact nomatch hplus
  · rfl

theorem exists_sign (text : List Char) :
    ∃ sign, IsSign sign ∧ text = sign ++ withoutPlus text := by
  unfold withoutPlus
  split
  · exact ⟨['+'], .inr rfl, rfl⟩
  · exact ⟨[], .inl rfl, rfl⟩

theorem isRow_iff (hbase : base ≤ 16) : IsRow base row value ↔
    ∃ digits, row.mapM (digitOf base) = some digits ∧ digits ≠ [] ∧
      ofDigits base digits = value := by
  simp only [IsRow, mapM_eq_some_iff, digitOf_eq_some_iff hbase, ofDigits_eq]
  constructor
  · rintro ⟨digits, hdigits, hrow, rfl⟩
    exact ⟨digits, hrow, hdigits, rfl⟩
  · rintro ⟨digits, hrow, hdigits, rfl⟩
    exact ⟨digits, hdigits, hrow, rfl⟩

theorem numeral?_eq_some_iff (hbase : base ≤ 16) :
    numeral? base limit text = some value ↔
      value < limit ∧ ∃ sign row, text = sign ++ row ∧ IsSign sign ∧ IsRow base row value := by
  have hread : numeral? base limit text = some value ↔
      value < limit ∧ IsRow base (withoutPlus text) value := by
    simp only [numeral?, isRow_iff hbase, Option.bind_eq_bind, Option.bind_eq_some_iff,
      Option.ite_none_right_eq_some, Option.some.injEq]
    constructor
    · rintro ⟨digits, hdigits, ⟨hne, hlimit⟩, rfl⟩
      exact ⟨hlimit, digits, hdigits, hne, rfl⟩
    · rintro ⟨hlimit, digits, hdigits, hne, rfl⟩
      exact ⟨digits, hdigits, ⟨hne, hlimit⟩, rfl⟩
  rw [hread]
  refine and_congr_right fun _ => ⟨?_, ?_⟩
  · intro hrow
    obtain ⟨sign, hsign, htext⟩ := exists_sign text
    exact ⟨sign, withoutPlus text, htext, hsign, hrow⟩
  · rintro ⟨sign, row, rfl, hsign, hrow⟩
    rwa [withoutPlus_append hsign hbase hrow]

end Numerals

end Text
end FacilityIsa
