import FacilityIsa.Register.Basic
import FacilityIsa.Word

/-!
# Printed words and registers

A register name, a signed decimal and eight hexadecimal digits each determine what they
were printed from. None of them has a comma or a parenthesis in it, so they can be told
apart again where they are joined by these.
-/

namespace FacilityIsa

namespace Word

variable {first second : Word} {c : Char}

theorem isDigit_of_mem_repr {number : Nat} (h : c ∈ number.repr.toList) : c.isDigit = true := by
  rw [Nat.toList_repr] at h
  exact Nat.isDigit_of_mem_toDigits (by decide) (by decide) h

theorem minus_repr_ne_repr (number other : Nat) : "-" ++ number.repr ≠ other.repr := by
  intro h
  have hminus : '-' ∈ ("-" ++ number.repr).toList := by
    rw [String.toList_append]
    exact List.mem_append_left _ (by decide)
  rw [h] at hminus
  exact absurd (isDigit_of_mem_repr hminus) (by decide)

theorem toDecimal_injective (h : first.toDecimal = second.toDecimal) : first = second := by
  have hread : ∀ {number other : Nat}, number.repr = other.repr → number = other := by
    intro number other hsame
    have hdigits := congrArg (fun text => Nat.ofDigitChars 10 text.toList 0) hsame
    simpa only [Nat.toList_repr, Nat.ofDigitChars_ten_toDigits] using hdigits
  apply BitVec.eq_of_toInt_eq
  rw [toDecimal, toDecimal, Int.toString_eq_repr, Int.toString_eq_repr, Int.repr_eq_if,
    Int.repr_eq_if] at h
  split at h <;> split at h
  · have hsame := hread h
    omega
  · exact absurd h.symm (minus_repr_ne_repr _ _)
  · exact absurd h (minus_repr_ne_repr _ _)
  · rw [← String.toList_inj, String.toList_append, String.toList_append,
      List.append_cancel_left_eq, String.toList_inj] at h
    have hsame := hread h
    omega

theorem isDigit_of_mem_toDecimal {word : Word} (h : c ∈ word.toDecimal.toList) :
    c.isDigit = true ∨ c = '-' := by
  rw [toDecimal, Int.toString_eq_repr, Int.repr_eq_if] at h
  split at h
  · exact .inl (isDigit_of_mem_repr h)
  · rw [String.toList_append, List.mem_append] at h
    exact h.symm.imp isDigit_of_mem_repr List.mem_singleton.1

theorem digitValue_hexDigit :
    ∀ bits : BitVec 4, Text.digitValue (hexDigit bits) = some bits.toNat := by
  decide

theorem hexDigit_injective {first second : BitVec 4} (h : hexDigit first = hexDigit second) :
    first = second := by
  have hvalue := digitValue_hexDigit first
  rw [h, digitValue_hexDigit, Option.some.injEq] at hvalue
  exact BitVec.eq_of_toNat_eq hvalue.symm

theorem toHex_injective (h : first.toHex = second.toHex) : first = second := by
  rw [toHex, toHex, ← String.toList_inj, String.toList_append, String.toList_append,
    List.append_cancel_left_eq, String.toList_ofList, String.toList_ofList, hexDigits, hexDigits,
    List.map_inj_left] at h
  apply BitVec.eq_of_getLsbD_eq
  intro index hindex
  -- The bit lies in the digit that starts at the multiple of four below it.
  have hdigit : index / 4 * 4 ∈ [28, 24, 20, 16, 12, 8, 4, 0] := by
    simp only [List.mem_cons, List.not_mem_nil, or_false]
    omega
  have hbit := congrArg (·.getLsbD (index % 4)) (hexDigit_injective (h _ hdigit))
  have hlow : index % 4 < 4 := Nat.mod_lt _ (by decide)
  simpa only [BitVec.getLsbD_extractLsb', hlow, decide_true, Bool.true_and,
    Nat.div_add_mod' index 4] using hbit

theorem isDigit_of_mem_toHex {word : Word} (h : c ∈ word.toHex.toList) :
    c = 'x' ∨ (Text.digitValue c).isSome = true := by
  rw [toHex, String.toList_append, List.mem_append] at h
  obtain hlead | hdigit := h
  · have hmarks : "0x".toList = ['0', 'x'] := by decide
    rw [hmarks, List.mem_cons, List.mem_singleton] at hlead
    obtain rfl | rfl := hlead
    · exact .inr rfl
    · exact .inl rfl
  · rw [String.toList_ofList] at hdigit
    obtain ⟨low, -, rfl⟩ := List.mem_map.1 hdigit
    rw [digitValue_hexDigit]
    exact .inr rfl

theorem x_mem_toHex (word : Word) : 'x' ∈ word.toHex.toList := by
  rw [toHex, String.toList_append]
  exact List.mem_append_left _ (by decide)

end Word

namespace Register

theorem ofName?_name : ∀ register : Register, ofName? register.name = some register := by
  decide +kernel

theorem name_injective {first second : Register} (h : first.name = second.name) :
    first = second := by
  have hfirst := ofName?_name first
  rw [h, ofName?_name] at hfirst
  exact (Option.some.inj hfirst).symm

theorem dollar_mem_name : ∀ register : Register, '$' ∈ register.name.toList := by
  decide +kernel

theorem punctuation_not_mem_name :
    ∀ register : Register, ',' ∉ register.name.toList ∧ '(' ∉ register.name.toList := by
  decide +kernel

end Register
end FacilityIsa
