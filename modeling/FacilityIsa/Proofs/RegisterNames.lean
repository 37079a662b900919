import FacilityIsa.Proofs.DispatchOrder
import FacilityIsa.Proofs.Numerals
import FacilityIsa.Proofs.PrintedWords

/-!
# Register names

A register is denoted by its conventional name, or by a dollar sign and its index in
decimal, with any number of leading zeros and behind a plus sign or none. No conventional
name can be taken for an index, and no text denotes two registers. What is read between
blanks is just what denotes a register, so a name in a column is read back.
-/

namespace FacilityIsa

namespace Text

theorem isBlank_of_mem_spaces (count : Nat) : ∀ c ∈ (spaces count).toList, isBlank c = true := by
  intro c hc
  rw [spaces, String.toList_ofList] at hc
  rw [List.eq_of_mem_replicate hc]
  decide

theorem exists_apply_eq {padding : Padding} {text : String}
    (h : ∀ limit ∈ padding.precision, text.length ≤ limit) :
    ∃ before after, padding.apply text = spaces before ++ text ++ spaces after := by
  unfold Padding.apply
  cases hprecision : padding.precision with
  | none => exact ⟨_, _, rfl⟩
  | some limit =>
    have hwhole : text.toList.take limit = text.toList :=
      List.take_of_length_le (h limit hprecision)
    simp only [hwhole, String.ofList_toList]
    exact ⟨_, _, rfl⟩

end Text

namespace Register

/-- How a register is written. -/
inductive Denotes : List Char → Register → Prop
  | name (register : Register) : Denotes register.name.toList register
  | index {sign digits : List Char} {register : Register} (hsign : Text.IsSign sign)
      (hdigits : Text.IsRow 10 digits register.toNat) : Denotes ('$' :: (sign ++ digits)) register

variable {text : List Char} {register : Register}

theorem ofDollarIndex?_eq_some_iff :
    ofDollarIndex? text = some register ↔
      ∃ sign digits, text = '$' :: (sign ++ digits) ∧ Text.IsSign sign ∧
        Text.IsRow 10 digits register.toNat := by
  have hindex : ∀ value < 32, ofNat value = register ↔ value = register.toNat := by
    intro value hvalue
    rw [ofNat, ← BitVec.toNat_inj, BitVec.toNat_ofNat, Nat.mod_eq_of_lt hvalue]
  unfold ofDollarIndex?
  split
  · next rest =>
    simp only [Option.map_eq_some_iff, Text.numeral?_eq_some_iff (show 10 ≤ 16 by decide),
      List.cons.injEq, true_and]
    constructor
    · rintro ⟨value, ⟨hvalue, sign, digits, rfl, hsign, hdigits⟩, hregister⟩
      rw [(hindex value hvalue).1 hregister] at hdigits
      exact ⟨sign, digits, rfl, hsign, hdigits⟩
    · rintro ⟨sign, digits, rfl, hsign, hdigits⟩
      exact ⟨register.toNat, ⟨register.isLt, sign, digits, rfl, hsign, hdigits⟩,
        (hindex _ register.isLt).2 rfl⟩
  · next hdollar =>
    simp only [reduceCtorEq, false_iff]
    rintro ⟨sign, digits, rfl, -⟩
    exact hdollar _ rfl

theorem ofDollarIndex?_name : ∀ register : Register, ofDollarIndex? register.name.toList = none := by
  decide +kernel

theorem find?_name_eq_some_iff :
    (all.find? fun register => register.name.toList = text) = some register ↔
      register.name.toList = text := by
  constructor
  · intro h
    simpa using List.find?_some h
  · rintro rfl
    have hunique : ∀ other : Register,
        decide (other.name.toList = register.name.toList) = true → other = register := by
      intro other hother
      exact name_injective (String.toList_inj.1 (of_decide_eq_true hother))
    have hfound := find?_eq_of_unique (p := fun other => decide (other.name.toList = _))
      (decide_eq_true rfl) hunique all
    exact hfound.trans (if_pos (mem_all register))

/-- Names are tried before indices, which makes no difference. -/
theorem denotes_iff :
    Denotes text register ↔
      (all.find? fun register => register.name.toList = text).or (ofDollarIndex? text) =
        some register := by
  rw [Option.or_eq_some_iff, find?_name_eq_some_iff]
  constructor
  · intro h
    cases h with
    | name => exact .inl rfl
    | @index sign digits _ hsign hdigits =>
      have hindex := ofDollarIndex?_eq_some_iff.2 ⟨sign, digits, rfl, hsign, hdigits⟩
      refine .inr ⟨?_, hindex⟩
      rw [List.find?_eq_none]
      intro other _ hother
      rw [← of_decide_eq_true hother, ofDollarIndex?_name] at hindex
      exact nomatch hindex
  · rintro (rfl | ⟨-, hindex⟩)
    · exact .name register
    · obtain ⟨sign, digits, rfl, hsign, hdigits⟩ := ofDollarIndex?_eq_some_iff.1 hindex
      exact .index hsign hdigits

theorem Denotes.unique {other : Register} (h : Denotes text register)
    (hother : Denotes text other) : register = other := by
  rw [denotes_iff] at h hother
  exact Option.some.inj (h.symm.trans hother)

theorem ofName?_eq_some_iff {text : String} :
    ofName? text = some register ↔
      ∃ core, Text.StandsIn core text.toList ∧ Denotes core register := by
  simp only [← Text.trim_eq_iff, exists_eq_left', denotes_iff, ofName?]

theorem ofName?_padded {padding : Text.Padding}
    (h : ∀ limit ∈ padding.precision, register.name.length ≤ limit) :
    ofName? (register.padded padding) = some register := by
  obtain ⟨before, after, hpadded⟩ := Text.exists_apply_eq h
  have htrimmed : Text.trim (register.padded padding).toList = Text.trim register.name.toList := by
    rw [padded, hpadded, String.toList_append, String.toList_append,
      Text.trim_append_right (Text.isBlank_of_mem_spaces after),
      Text.trim_append_left (Text.isBlank_of_mem_spaces before)]
  rw [ofName?, htrimmed]
  exact ofName?_name register

/-- A text is read as a register just if one is denoted by what stands between its blanks, and
then no other is. A name is read back from its column, unless it was cut. -/
theorem register_is_read_iff_denoted :
    (∀ (text : String) (register : Register), ofName? text = some register ↔
        ∃ core, Text.StandsIn core text.toList ∧ Denotes core register) ∧
      (∀ text : String, ofName? text = none ↔
        ∀ core register, Text.StandsIn core text.toList → ¬Denotes core register) ∧
      (∀ (text : List Char) (first second : Register),
        Denotes text first → Denotes text second → first = second) ∧
      ∀ (register : Register) (padding : Text.Padding),
        (∀ limit ∈ padding.precision, register.name.length ≤ limit) →
          ofName? (register.padded padding) = some register := by
  refine ⟨fun _ _ => ofName?_eq_some_iff, ?_, fun _ _ _ => Denotes.unique,
    fun _ _ => ofName?_padded⟩
  intro text
  rw [Option.eq_none_iff_forall_ne_some]
  simp only [ne_eq, ofName?_eq_some_iff, not_exists, not_and]
  exact forall_comm

/-- A name in the middle of a column that just has room for it, an index behind zeros between
blanks, and a number that no register has. -/
theorem register_is_read_iff_denoted_of_wide_blanks :
    ofName? (Register.zero.padded ⟨9, .centre, some 5⟩) = some Register.zero ∧
      ofName? "\u3000$+0031\n" = some Register.returnAddress ∧ ofName? "$288" = none ∧
      ∀ register, ¬Denotes "$288".toList register := by
  obtain ⟨hread, hnone, -, hpadded⟩ := register_is_read_iff_denoted
  have hdigits : Text.IsRow 10 "0031".toList Register.returnAddress.toNat :=
    (Text.isRow_iff (by decide)).2 ⟨[0, 0, 3, 1], by decide, by decide, by decide⟩
  have hindex : Denotes "$+0031".toList Register.returnAddress := .index (.inr rfl) hdigits
  have hrefused : ofName? "$288" = none := by decide +kernel
  have hstands : Text.StandsIn "$288".toList "$288".toList := by
    rw [← Text.trim_eq_iff]
    decide +kernel
  refine ⟨?_, ?_, hrefused, ?_⟩
  · apply hpadded
    intro limit hlimit
    cases hlimit
    decide
  · rw [hread]
    refine ⟨_, ?_, hindex⟩
    rw [← Text.trim_eq_iff]
    decide +kernel
  · intro register
    exact (hnone "$288").1 hrefused _ register hstands

end Register
end FacilityIsa
