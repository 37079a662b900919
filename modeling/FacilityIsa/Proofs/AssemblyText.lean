import FacilityIsa.Proofs.Dispatch
import FacilityIsa.Proofs.OperandPatterns
import FacilityIsa.Proofs.PrintedWords

/-!
# Assembly text

A decoded word is written as its mnemonic and its operands in the order of the pattern:
five bits as a register, sixteen as a signed number, a target as a byte address. What
stands between the operands occurs in none of them, so the text can be taken apart
again. Hence it tells the instruction and the operand bits of the word, and nothing else;
the raw word never stands in for the operands.
-/

namespace FacilityIsa

/-- The operand in a range of bits as it is written, which its width decides. -/
def BitRange.text (range : BitRange) (word : Word) : String :=
  if range.width = 5 then Register.name ((word.field range).setWidth 5)
  else if range.width = 16 then (word.field range).signExtend16.toDecimal
  else Word.toHex (word.field range <<< 2)

/-- Operands with commas between them, but the base of an address in parentheses. -/
def Layout.punctuate : Layout → List String → String
  | rtOffsetBase, [register, offset, base] => register ++ ", " ++ offset ++ "(" ++ base ++ ")"
  | _, operands => String.intercalate ", " operands

section Separators

/-- What follows the mark may have it again, unlike in `List.append_cons_inj_of_notMem`. -/
theorem append_cons_inj_of_not_mem {α : Type} {mark : α} {first second rest rest' : List α}
    (hfirst : mark ∉ first) (hsecond : mark ∉ second)
    (h : first ++ mark :: rest = second ++ mark :: rest') : first = second ∧ rest = rest' := by
  induction first generalizing second with
  | nil =>
    cases second with
    | nil => exact ⟨rfl, (List.cons.inj h).2⟩
    | cons head tail => exact absurd (List.cons.inj h).1 (List.ne_of_not_mem_cons hsecond)
  | cons head tail ih =>
    cases second with
    | nil => exact absurd (List.cons.inj h).1.symm (List.ne_of_not_mem_cons hfirst)
    | cons head' tail' =>
      obtain ⟨rfl, htail⟩ := List.cons.inj h
      obtain ⟨rfl, hrest⟩ := ih (List.not_mem_of_not_mem_cons hfirst)
        (List.not_mem_of_not_mem_cons hsecond) htail
      exact ⟨rfl, hrest⟩

variable {separator : String} {mark : Char}

/-- A text is taken apart in one way only at the first mark that opens a separator. -/
theorem append_separator_inj (hmark : separator.toList.head? = some mark)
    {first second rest rest' : String} (hfirst : mark ∉ first.toList)
    (hsecond : mark ∉ second.toList)
    (h : first ++ separator ++ rest = second ++ separator ++ rest') :
    first = second ∧ rest = rest' := by
  obtain ⟨tail, htail⟩ := List.head?_eq_some_iff.1 hmark
  rw [← String.toList_inj] at h
  simp only [String.toList_append, htail, List.append_assoc, List.cons_append] at h
  obtain ⟨hsame, hrest⟩ := append_cons_inj_of_not_mem hfirst hsecond h
  exact ⟨String.toList_inj.1 hsame, String.toList_inj.1 (List.append_cancel_left hrest)⟩

theorem eq_of_intercalate_eq (hmark : separator.toList.head? = some mark)
    {first second : List String} (hlength : first.length = second.length)
    (hfirst : ∀ text ∈ first, mark ∉ text.toList) (hsecond : ∀ text ∈ second, mark ∉ text.toList)
    (h : String.intercalate separator first = String.intercalate separator second) :
    first = second := by
  induction first generalizing second with
  | nil => exact (List.length_eq_zero_iff.1 hlength.symm).symm
  | cons text texts ih =>
    obtain ⟨text', texts', rfl⟩ := List.exists_cons_of_length_eq_add_one hlength.symm
    have hlength' : texts.length = texts'.length := Nat.succ.inj hlength
    cases texts with
    | nil =>
      obtain rfl := List.length_eq_zero_iff.1 hlength'.symm
      exact congrArg (fun text => [text]) h
    | cons next texts =>
      obtain ⟨next', texts', rfl⟩ := List.exists_cons_of_length_eq_add_one hlength'.symm
      rw [String.intercalate_cons_cons, String.intercalate_cons_cons] at h
      rw [List.forall_mem_cons] at hfirst hsecond
      obtain ⟨rfl, hrest⟩ := append_separator_inj hmark hfirst.1 hsecond.1 h
      rw [ih hlength' hfirst.2 hsecond.2 hrest]

end Separators

namespace BitRange

variable {range : BitRange} {first second : Word}

theorem punctuation_not_mem_text (range : BitRange) (word : Word) :
    ',' ∉ (range.text word).toList ∧ '(' ∉ (range.text word).toList := by
  unfold text
  split
  · exact Register.punctuation_not_mem_name _
  split
  · constructor <;> intro h <;> exact absurd (Word.isDigit_of_mem_toDecimal h) (by decide)
  · constructor <;> intro h <;> exact absurd (Word.isDigit_of_mem_toHex h) (by decide)

theorem field_eq_of_setWidth_eq {kept : Nat} (hkept : range.width ≤ kept)
    (h : (first.field range).setWidth kept = (second.field range).setWidth kept) :
    first.field range = second.field range := by
  refine Word.field_ext fun index hindex => ?_
  have hbit := congrArg (·.getLsbD index) h
  have hlt : index < kept := Nat.lt_of_lt_of_le hindex hkept
  simpa only [BitVec.getLsbD_setWidth, hlt, decide_true, Bool.true_and] using hbit

theorem field_eq_of_shiftLeft_eq (hwidth : range.width ≤ 30)
    (h : first.field range <<< 2 = second.field range <<< 2) :
    first.field range = second.field range := by
  refine Word.field_ext fun index hindex => ?_
  have hbit := congrArg (·.getLsbD (index + 2)) h
  have hlt : index + 2 < 32 := by omega
  have hkept : ¬index + 2 < 2 := by omega
  simpa only [BitVec.getLsbD_shiftLeft, hlt, hkept, decide_true, decide_false, Bool.not_false,
    Bool.true_and, Nat.add_sub_cancel] using hbit

theorem field_eq_of_text_eq (hwidth : range.width ≤ 30) (h : range.text first = range.text second) :
    first.field range = second.field range := by
  unfold text at h
  by_cases hfive : range.width = 5
  · rw [if_pos hfive, if_pos hfive] at h
    exact field_eq_of_setWidth_eq (Nat.le_of_eq hfive) (Register.name_injective h)
  rw [if_neg hfive, if_neg hfive] at h
  by_cases hsixteen : range.width = 16
  · rw [if_pos hsixteen, if_pos hsixteen] at h
    have hvalue := congrArg BitVec.toInt (Word.toDecimal_injective h)
    rw [Word.signExtend16, Word.signExtend16, BitVec.toInt_signExtend_of_le (by decide),
      BitVec.toInt_signExtend_of_le (by decide)] at hvalue
    exact field_eq_of_setWidth_eq (Nat.le_of_eq hsixteen) (BitVec.eq_of_toInt_eq hvalue)
  rw [if_neg hsixteen, if_neg hsixteen] at h
  exact field_eq_of_shiftLeft_eq hwidth (Word.toHex_injective h)

end BitRange

namespace Layout

variable {layout : Layout}

theorem punctuate_of_ne (h : layout ≠ .rtOffsetBase) (operands : List String) :
    layout.punctuate operands = String.intercalate ", " operands := by
  unfold punctuate
  split
  · exact absurd rfl h
  · rfl

theorem punctuate_rtOffsetBase (register offset base : String) :
    rtOffsetBase.punctuate [register, offset, base] =
      register ++ ", " ++ (offset ++ "(" ++ (base ++ ")")) := by
  simp only [punctuate, String.append_assoc]

theorem text_eq_of_punctuate_eq {first second : Word}
    (h : layout.punctuate (layout.ranges.map (·.text first)) =
      layout.punctuate (layout.ranges.map (·.text second))) :
    ∀ range ∈ layout.ranges, range.text first = range.text second := by
  have hcomma : ", ".toList.head? = some ',' := by decide
  by_cases hlayout : layout = .rtOffsetBase
  · subst hlayout
    simp only [ranges, List.map_cons, List.map_nil, punctuate_rtOffsetBase] at h
    obtain ⟨hregister, hrest⟩ := append_separator_inj hcomma
      (BitRange.rt.punctuation_not_mem_text first).1
      (BitRange.rt.punctuation_not_mem_text second).1 h
    obtain ⟨hoffset, hbase⟩ := append_separator_inj (show "(".toList.head? = some '(' by decide)
      (BitRange.immediate.punctuation_not_mem_text first).2
      (BitRange.immediate.punctuation_not_mem_text second).2 hrest
    simp only [ranges, List.forall_mem_cons, hregister, hoffset, (String.append_left_inj _).1 hbase,
      List.not_mem_nil, false_imp_iff, implies_true, and_self]
  · rw [punctuate_of_ne hlayout, punctuate_of_ne hlayout] at h
    have hplain : ∀ (word : Word), ∀ text ∈ layout.ranges.map (·.text word),
        ',' ∉ text.toList := by
      intro word text htext
      obtain ⟨range, -, rfl⟩ := List.mem_map.1 htext
      exact (range.punctuation_not_mem_text word).1
    refine List.map_inj_left.1 (eq_of_intercalate_eq hcomma ?_ (hplain first) (hplain second) h)
    rw [List.length_map, List.length_map]

theorem dollar_mem_punctuate (htarget : layout ≠ .target) (himm : layout ≠ .imm) (word : Word) :
    '$' ∈ (layout.punctuate (layout.ranges.map (·.text word))).toList := by
  have hregister : ∀ {range : BitRange}, range.width = 5 → '$' ∈ (range.text word).toList := by
    intro range hwidth
    rw [BitRange.text, if_pos hwidth]
    exact Register.dollar_mem_name _
  have hrs := hregister (show BitRange.rs.width = 5 from rfl)
  have hrt := hregister (show BitRange.rt.width = 5 from rfl)
  have hrd := hregister (show BitRange.rd.width = 5 from rfl)
  cases layout with
  | target => exact absurd rfl htarget
  | imm => exact absurd rfl himm
  | _ =>
    simp only [ranges, List.map_cons, List.map_nil, punctuate, String.intercalate_cons_cons,
      String.intercalate_singleton, String.toList_append, List.mem_append, hrs, hrt, hrd, true_or]

theorem width_le_of_mem_ranges : ∀ (layout : Layout), ∀ range ∈ layout.ranges, range.width ≤ 30 := by
  intro layout
  cases layout <;> decide

end Layout

namespace Instruction

variable {instruction : Instruction} {first second : Word}

theorem write?_operandsOf (instruction : Instruction) (word : Word) :
    instruction.spec.layout.write? (instruction.operandsOf word) =
      some (instruction.spec.layout.punctuate
        (instruction.spec.layout.ranges.map (·.text word))) := by
  cases instruction <;>
    simp only [operandsOf, format, spec, InstructionSpec.threeRegister, InstructionSpec.work,
      Operands.decode, RegisterFields.decode_eq, ImmediateFields.decode_eq, JumpFields.decode_eq,
      Layout.write?, Operands.immediateFields?, Option.map_some] <;>
    rfl

theorem text_decode (instruction : Instruction) (word : Word) :
    (instruction.decode word).text = instruction.mnemonic ++ " " ++
      instruction.spec.layout.punctuate (instruction.spec.operandRanges.map (·.text word)) := by
  rw [decode, DecodedWord.text, write?_operandsOf, Option.getD_some, instruction.pattern_spec.1,
    String.append_assoc]

theorem blank_not_mem_mnemonic (instruction : Instruction) :
    ' ' ∉ instruction.mnemonic.toList := by
  cases instruction <;> decide

/-- The text tells the instruction and its operands, and nothing else. -/
theorem text_decode_eq_iff {other : Instruction} :
    (instruction.decode first).text = (other.decode second).text ↔
      instruction = other ∧ instruction.spec.AgreeOnOperands first second := by
  constructor
  · intro h
    rw [text_decode, text_decode] at h
    obtain ⟨hmnemonic, hoperands⟩ := append_separator_inj (show " ".toList.head? = some ' ' by decide)
      instruction.blank_not_mem_mnemonic other.blank_not_mem_mnemonic h
    obtain rfl := mnemonic_injective hmnemonic
    refine ⟨rfl, agreeOnOperands_iff.2 ?_⟩
    rw [instruction.pattern_spec.1] at hoperands
    intro range hrange
    exact BitRange.field_eq_of_text_eq (Layout.width_le_of_mem_ranges _ range hrange)
      (Layout.text_eq_of_punctuate_eq hoperands range hrange)
  · rintro ⟨rfl, hagree⟩
    rw [text_decode, text_decode, instruction.pattern_spec.1]
    have htext : ∀ range ∈ instruction.spec.layout.ranges,
        range.text first = range.text second := by
      intro range hrange
      rw [BitRange.text, BitRange.text, agreeOnOperands_iff.1 hagree range hrange]
    rw [List.map_inj_left.2 htext]

/-- The address that a jump shows is never the word of the jump. -/
theorem field_target_shiftLeft_ne {word : Word} (h : word.opcode = 2 ∨ word.opcode = 3) :
    word.field .target <<< 2 ≠ word := by
  intro hsame
  have hlow : word.getLsbD 1 = false := by
    rw [← hsame, BitVec.getLsbD_shiftLeft]
    rfl
  have hshift : ∀ index < 26, word.getLsbD (index + 2) = word.getLsbD index := by
    intro index hindex
    have hbit := congrArg (·.getLsbD (index + 2)) hsame
    have hwidth : index < BitRange.target.width := hindex
    have hlt : index + 2 < 32 := by omega
    have hkept : ¬index + 2 < 2 := by omega
    simp only [BitVec.getLsbD_shiftLeft, Word.getLsbD_field, hlt, hkept, hwidth, decide_true,
      decide_false, Bool.not_false, Bool.true_and, Nat.add_sub_cancel] at hbit
    rw [← hbit, BitRange.target, Nat.zero_add]
  -- So bit 1 is zero, and with it every odd bit up to bit 27 of the opcode.
  have hodd : ∀ half ≤ 13, word.getLsbD (2 * half + 1) = false := by
    intro half
    induction half with
    | zero => exact fun _ => hlow
    | succ half ih =>
      intro hle
      rw [show 2 * (half + 1) + 1 = 2 * half + 1 + 2 by omega, hshift _ (by omega),
        ih (by omega)]
  have hopcode : word.opcode.getLsbD 1 = true := by
    obtain h | h := h <;> rw [h] <;> rfl
  rw [Word.opcode, BitVec.getLsbD_extractLsb'] at hopcode
  exact Bool.false_ne_true ((hodd 13 (by decide)).symm.trans hopcode)

theorem text_decode_ne_raw {word : Word} (h : instruction.fits word = true) :
    (instruction.decode word).text ≠ instruction.mnemonic ++ " " ++ word.toHex := by
  intro hraw
  rw [text_decode, String.append_right_inj, instruction.pattern_spec.1] at hraw
  by_cases htarget : instruction.spec.layout = .target
  · have hnumber : Layout.target.punctuate (Layout.target.ranges.map (·.text word)) =
        Word.toHex (word.field .target <<< 2) := rfl
    rw [htarget, hnumber] at hraw
    have hopcode : instruction.spec.opcode = 2 ∨ instruction.spec.opcode = 3 := by
      revert htarget
      cases instruction <;> decide
    rw [(fits_iff.1 h).1] at hopcode
    exact field_target_shiftLeft_ne hopcode (Word.toHex_injective hraw)
  by_cases himm : instruction.spec.layout = .imm
  · have hnumber : Layout.imm.punctuate (Layout.imm.ranges.map (·.text word)) =
        (word.field .immediate).signExtend16.toDecimal := rfl
    have hx := word.x_mem_toHex
    rw [← hraw, himm, hnumber] at hx
    exact absurd (Word.isDigit_of_mem_toDecimal hx) (by decide)
  · have hdollar := Layout.dollar_mem_punctuate htarget himm word
    rw [hraw] at hdollar
    exact absurd (Word.isDigit_of_mem_toHex hdollar) (by decide)

end Instruction

namespace Catalog

variable {catalog : Catalog} {word : Word} {decoded : DecodedWord}

theorem decode_eq_ok_iff : catalog.decode word = .ok decoded ↔
    ∃ instruction, catalog.find? word = some instruction ∧ instruction.decode word = decoded := by
  unfold decode
  cases catalog.find? word with
  | none => simp only [reduceCtorEq, false_and, exists_false]
  | some instruction => simp only [Except.ok.injEq, Option.some.injEq, exists_eq_left']

/-- Two words that a catalog decodes have the same text just when they are words of one
instruction that agree wherever its pattern has a letter. The text is the mnemonic with the
operands in the order of the letters, and never the mnemonic with the raw word. So words
that have all the fixed bits of their patterns are told apart by their texts. -/
theorem text_tells_instruction_and_operands (catalog : Catalog) :
    (∀ first second one other,
        catalog.decode first = .ok one → catalog.decode second = .ok other →
          (one.text = other.text ↔
            one.instruction = other.instruction ∧
              one.instruction.spec.AgreeOnOperands first second)) ∧
      (∀ word decoded, catalog.decode word = .ok decoded →
        let spec := decoded.instruction.spec
        decoded.text =
            spec.mnemonic ++ " " ++ spec.layout.punctuate (spec.operandRanges.map (·.text word)) ∧
          decoded.text ≠ spec.mnemonic ++ " " ++ word.toHex) ∧
      ∀ first second one other,
        catalog.decode first = .ok one → catalog.decode second = .ok other →
        one.instruction.spec.Conforms first → other.instruction.spec.Conforms second →
          one.text = other.text → first = second := by
  refine ⟨?_, ?_, ?_⟩
  · intro first second one other hone hother
    obtain ⟨instruction, -, rfl⟩ := decode_eq_ok_iff.1 hone
    obtain ⟨instruction', -, rfl⟩ := decode_eq_ok_iff.1 hother
    exact Instruction.text_decode_eq_iff
  · intro word decoded hdecoded
    obtain ⟨instruction, hfind, rfl⟩ := decode_eq_ok_iff.1 hdecoded
    have hfits : instruction.fits word = true :=
      List.find?_some (p := (Instruction.fits · word)) hfind
    exact ⟨instruction.text_decode word, Instruction.text_decode_ne_raw hfits⟩
  · intro first second one other hone hother hfirst hsecond htext
    obtain ⟨instruction, -, rfl⟩ := decode_eq_ok_iff.1 hone
    obtain ⟨instruction', -, rfl⟩ := decode_eq_ok_iff.1 hother
    obtain ⟨rfl, hagree⟩ := Instruction.text_decode_eq_iff.1 htext
    exact Instruction.eq_of_conforms hfirst hsecond hagree

/-- The text of `add $t1, $t2, $t3` passes over the shift amount, so a word that has one
lacks a fixed bit. The text of a load has the base last. -/
theorem text_tells_instruction_and_operands_of_spare_bits :
    let plain := Instruction.add.decode 0x014B4820
    let spare := Instruction.add.decode 0x014B4FE0
    let load := Instruction.lw.decode 0x8FA9FFFC
    full.decode 0x014B4820 = .ok plain ∧ full.decode 0x014B4FE0 = .ok spare ∧
      full.decode 0x8FA9FFFC = .ok load ∧
      plain.text = spare.text ∧ plain.text ≠ load.text ∧
      load.text = "lw" ++ " " ++ Layout.rtOffsetBase.punctuate ["$t1", "-4", "$sp"] ∧
      Instruction.add.spec.Conforms 0x014B4820 ∧
      ¬Instruction.add.spec.Conforms 0x014B4FE0 := by
  intro plain spare load
  have hplain : full.decode 0x014B4820 = .ok plain :=
    decode_eq_ok_iff.2 ⟨.add, by decide, rfl⟩
  have hspare : full.decode 0x014B4FE0 = .ok spare :=
    decode_eq_ok_iff.2 ⟨.add, by decide, rfl⟩
  have hload : full.decode 0x8FA9FFFC = .ok load :=
    decode_eq_ok_iff.2 ⟨.lw, by decide, rfl⟩
  obtain ⟨hsame, hwritten, hinjective⟩ := text_tells_instruction_and_operands full
  have htext : plain.text = spare.text :=
    (hsame _ _ _ _ hplain hspare).2 ⟨rfl, Instruction.agreeOnOperands_iff.2 (by decide)⟩
  have hconforms : Instruction.add.spec.Conforms 0x014B4820 :=
    Instruction.conforms_iff.2 (by decide)
  refine ⟨hplain, hspare, hload, htext, ?_, (hwritten _ _ hload).1.trans ?_, hconforms, ?_⟩
  · intro h
    exact nomatch ((hsame _ _ _ _ hplain hload).1 h).1
  · decide
  · intro h
    exact absurd (hinjective _ _ _ _ hplain hspare hconforms h htext) (by decide)

end Catalog
end FacilityIsa
