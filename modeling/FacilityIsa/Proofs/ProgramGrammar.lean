import FacilityIsa.ProgramText
import FacilityIsa.Proofs.Numerals
import FacilityIsa.Proofs.PrintedWords

/-!
# The grammar of program texts

A line holds what stands between blanks before the first `#`: nothing, a word, or
something else. A text whose lines all hold nothing or a word is a program, and its words
are those of its lines, in the order of the lines. In any other text the first line that
holds something else is reported. So a program reads the same in whatever way its words
are written, one to a line.
-/

namespace FacilityIsa
namespace ProgramText

section Lines

variable {line text kept comment : List Char} {words : List Word} {word : Word}

/-- A comment or nothing. -/
def IsComment (comment : List Char) : Prop :=
  ∀ c ∈ comment.head?, c = '#'

/-- What a line holds: the text that stands between blanks before the first `#`. -/
def Holds (line text : List Char) : Prop :=
  ∃ kept comment, line = kept ++ comment ∧ '#' ∉ kept ∧ IsComment comment ∧
    Text.StandsIn text kept

def IsRadixMark (mark : List Char) : Prop :=
  mark = [] ∨ mark = ['0', 'x'] ∨ mark = ['0', 'X']

/-- The ways to write a word: after a radix mark or none, and a plus sign or none, at least
one hexadecimal digit of either case, with the value of the word. -/
def Spells (text : List Char) (word : Word) : Prop :=
  ∃ mark sign row, text = mark ++ (sign ++ row) ∧ IsRadixMark mark ∧ Text.IsSign sign ∧
    Text.IsRow 16 row word.toNat

/-- A line that holds nothing or a word. -/
def IsReadable (line : List Char) : Prop :=
  Holds line [] ∨ ∃ text word, Holds line text ∧ Spells text word

/-- The words of a readable line: none if it holds nothing, and else the one that it holds. -/
def Yields (line : List Char) (words : List Word) : Prop :=
  Holds line [] ∧ words = [] ∨ ∃ text word, Holds line text ∧ Spells text word ∧ words = [word]

theorem isReadable_iff : IsReadable line ↔ ∃ words, Yields line words := by
  constructor
  · rintro (hempty | ⟨text, word, hheld, hword⟩)
    · exact ⟨[], .inl ⟨hempty, rfl⟩⟩
    · exact ⟨[word], .inr ⟨text, word, hheld, hword, rfl⟩⟩
  · rintro ⟨words, ⟨hempty, -⟩ | ⟨text, word, hheld, hword, -⟩⟩
    · exact .inl hempty
    · exact .inr ⟨text, word, hheld, hword⟩

theorem takeWhile_eq_iff : line.takeWhile (· ≠ '#') = kept ↔
    ∃ comment, line = kept ++ comment ∧ '#' ∉ kept ∧ IsComment comment := by
  constructor
  · rintro rfl
    refine ⟨line.dropWhile (· ≠ '#'), List.takeWhile_append_dropWhile.symm, ?_, ?_⟩
    · intro hmem
      have hpassed := List.all_eq_true.1 List.all_takeWhile _ hmem
      exact of_decide_eq_true hpassed rfl
    · intro c hc
      have hhead := List.head?_dropWhile_not (· ≠ '#') line
      rw [Option.mem_def.1 hc] at hhead
      exact not_not.1 (of_decide_eq_false hhead)
  · rintro ⟨comment, rfl, hkept, hcomment⟩
    have hpassed : ∀ c ∈ kept, decide (c ≠ '#') = true := by
      intro c hc
      exact decide_eq_true (ne_of_mem_of_not_mem hc hkept)
    rw [List.takeWhile_append_of_pos hpassed]
    cases comment with
    | nil => rw [List.takeWhile_nil, List.append_nil]
    | cons c comment =>
      rw [hcomment c rfl, List.takeWhile_cons_of_neg (by decide), List.append_nil]

theorem content_eq_iff : content line = text ↔ Holds line text := by
  rw [content, Text.trim_eq_iff]
  constructor
  · intro h
    obtain ⟨comment, hline, hkept, hcomment⟩ := takeWhile_eq_iff.1 rfl
    exact ⟨_, comment, hline, hkept, hcomment, h⟩
  · rintro ⟨kept, comment, hline, hkept, hcomment, htext⟩
    rwa [takeWhile_eq_iff.2 ⟨comment, hline, hkept, hcomment⟩]

theorem exists_radixMark (text : List Char) :
    ∃ mark, IsRadixMark mark ∧ text = mark ++ withoutRadixMark text := by
  unfold withoutRadixMark
  split
  · exact ⟨['0', 'x'], .inr (.inl rfl), rfl⟩
  · exact ⟨['0', 'X'], .inr (.inr rfl), rfl⟩
  · exact ⟨[], .inl rfl, rfl⟩

theorem withoutRadixMark_append {mark sign row : List Char} {value : Nat}
    (hmark : IsRadixMark mark) (hsign : Text.IsSign sign) (hrow : Text.IsRow 16 row value) :
    withoutRadixMark (mark ++ (sign ++ row)) = sign ++ row := by
  obtain rfl | rfl | rfl := hmark
  · obtain rfl | rfl := hsign
    · rw [List.nil_append, List.nil_append, withoutRadixMark]
      · rintro digits rfl
        obtain ⟨digit, hx⟩ := hrow.exists_digitValue (c := 'x') (by decide) (by simp)
        exact nomatch hx
      · rintro digits rfl
        obtain ⟨digit, hx⟩ := hrow.exists_digitValue (c := 'X') (by decide) (by simp)
        exact nomatch hx
    · rfl
  · rfl
  · rfl

theorem word?_eq_some_iff : word? text = some word ↔ Spells text word := by
  have hread : word? text = some word ↔
      ∃ sign row, withoutRadixMark text = sign ++ row ∧ Text.IsSign sign ∧
        Text.IsRow 16 row word.toNat := by
    rw [word?, Option.map_eq_some_iff]
    simp only [Text.numeral?_eq_some_iff (show 16 ≤ 16 by decide)]
    constructor
    · rintro ⟨value, ⟨hvalue, hparts⟩, rfl⟩
      rwa [BitVec.toNat_ofNat, Nat.mod_eq_of_lt hvalue]
    · intro hparts
      exact ⟨word.toNat, ⟨word.isLt, hparts⟩, by rw [BitVec.ofNat_toNat, BitVec.setWidth_eq]⟩
  rw [hread]
  constructor
  · rintro ⟨sign, row, htext, hsign, hrow⟩
    obtain ⟨mark, hmark, hwhole⟩ := exists_radixMark text
    exact ⟨mark, sign, row, by rw [← htext, ← hwhole], hmark, hsign, hrow⟩
  · rintro ⟨mark, sign, row, rfl, hmark, hsign, hrow⟩
    exact ⟨sign, row, withoutRadixMark_append hmark hsign hrow, hsign, hrow⟩

theorem Spells.ne_nil (h : Spells text word) : text ≠ [] := by
  obtain ⟨mark, sign, row, rfl, -, -, hrow⟩ := h
  rw [Ne, List.append_eq_nil_iff, List.append_eq_nil_iff]
  exact fun hnil => hrow.ne_nil hnil.2.2

theorem addLine_of_yields (h : Yields line words) (number : Nat)
    (rest : Except InvalidWord (List Word)) :
    addLine (line, number) rest = rest.map (words ++ ·) := by
  obtain ⟨hempty, rfl⟩ | ⟨text, word, hheld, hword, rfl⟩ := h
  · rw [addLine, content_eq_iff.2 hempty]
    cases rest <;> rfl
  · obtain ⟨c, tail, rfl⟩ := List.exists_cons_of_ne_nil hword.ne_nil
    simp only [addLine, content_eq_iff.2 hheld, word?_eq_some_iff.2 hword]
    rfl

theorem addLine_of_not_readable (h : ¬IsReadable line) (hheld : Holds line text) (number : Nat)
    (rest : Except InvalidWord (List Word)) :
    addLine (line, number) rest = .error ⟨number, String.ofList text⟩ := by
  cases text with
  | nil => exact absurd (.inl hheld) h
  | cons c tail =>
    have hnone : word? (c :: tail) = none := by
      rw [Option.eq_none_iff_forall_ne_some]
      intro word hword
      exact h (.inr ⟨_, word, hheld, word?_eq_some_iff.1 hword⟩)
    simp only [addLine, content_eq_iff.2 hheld, hnone]

end Lines

section Texts

variable {start : Nat} {line : List Char} {lines : List (List Char)} {words : List Word}
  {error : InvalidWord}

theorem lines_eq_splitOn (source : List Char) :
    ProgramText.lines source = source.splitOn '\n' := by
  induction source with
  | nil => rfl
  | cons c source ih =>
    rw [List.splitOn_cons_eq_if_modifyHead, ← ih]
    by_cases hc : c = '\n'
    · subst hc
      rfl
    · obtain ⟨line, rest, hlines⟩ := List.exists_cons_of_ne_nil (lines_ne_nil source)
      rw [lines_cons hc hlines, hlines, if_neg (by rwa [beq_iff_eq]), List.modifyHead_cons]

theorem wordsOfLines_cons_eq_ok_iff :
    wordsOfLines start (line :: lines) = .ok words ↔
      ∃ part more, Yields line part ∧ wordsOfLines (start + 1) lines = .ok more ∧
        words = part ++ more := by
  rw [wordsOfLines_cons]
  constructor
  · intro h
    by_cases hline : IsReadable line
    · obtain ⟨part, hpart⟩ := isReadable_iff.1 hline
      rw [addLine_of_yields hpart] at h
      cases hmore : wordsOfLines (start + 1) lines with
      | error error =>
        rw [hmore] at h
        cases h
      | ok more =>
        rw [hmore] at h
        cases h
        exact ⟨part, more, hpart, rfl, rfl⟩
    · rw [addLine_of_not_readable hline (content_eq_iff.1 rfl)] at h
      cases h
  · rintro ⟨part, more, hpart, hmore, rfl⟩
    rw [addLine_of_yields hpart, hmore]
    rfl

theorem wordsOfLines_cons_eq_error_iff :
    wordsOfLines start (line :: lines) = .error error ↔
      (¬IsReadable line ∧ ∃ text, Holds line text ∧ error = ⟨start, String.ofList text⟩) ∨
        IsReadable line ∧ wordsOfLines (start + 1) lines = .error error := by
  rw [wordsOfLines_cons]
  by_cases hline : IsReadable line
  · obtain ⟨part, hpart⟩ := isReadable_iff.1 hline
    rw [addLine_of_yields hpart]
    cases wordsOfLines (start + 1) lines <;> simp [Except.map, hline]
  · constructor
    · intro h
      rw [addLine_of_not_readable hline (content_eq_iff.1 rfl)] at h
      cases h
      exact .inl ⟨hline, _, content_eq_iff.1 rfl, rfl⟩
    · rintro (⟨-, text, hheld, rfl⟩ | ⟨hreadable, -⟩)
      · exact addLine_of_not_readable hline hheld _ _
      · exact absurd hreadable hline

theorem wordsOfLines_eq_ok_iff : wordsOfLines start lines = .ok words ↔
    ∃ parts, List.Forall₂ Yields lines parts ∧ words = parts.flatten := by
  induction lines generalizing start words with
  | nil =>
    simp only [wordsOfLines_nil, List.forall₂_nil_left_iff, exists_eq_left, Except.ok.injEq,
      List.flatten_nil, eq_comm]
  | cons line lines ih =>
    simp only [wordsOfLines_cons_eq_ok_iff, ih, List.forall₂_cons_left_iff]
    constructor
    · rintro ⟨part, more, hpart, ⟨parts, hparts, rfl⟩, rfl⟩
      exact ⟨part :: parts, ⟨part, parts, hpart, hparts, rfl⟩, rfl⟩
    · rintro ⟨_, ⟨part, parts, hpart, hparts, rfl⟩, rfl⟩
      exact ⟨part, parts.flatten, hpart, ⟨parts, hparts, rfl⟩, rfl⟩

/-- The first line that is not readable is the one reported. -/
theorem wordsOfLines_eq_error_iff : wordsOfLines start lines = .error error ↔
    ∃ before line after text, lines = before ++ line :: after ∧
      (∀ earlier ∈ before, IsReadable earlier) ∧ ¬IsReadable line ∧ Holds line text ∧
        error = ⟨start + before.length, String.ofList text⟩ := by
  induction lines generalizing start with
  | nil => simp
  | cons first rest ih =>
    rw [wordsOfLines_cons_eq_error_iff, ih]
    constructor
    · rintro (⟨hfirst, text, hheld, rfl⟩ | ⟨hfirst, before, line, after, text, rfl, h⟩)
      · exact ⟨[], first, rest, text, rfl, List.forall_mem_nil _, hfirst, hheld, rfl⟩
      · obtain ⟨hbefore, hline, hheld, rfl⟩ := h
        refine ⟨first :: before, line, after, text, rfl,
          List.forall_mem_cons.2 ⟨hfirst, hbefore⟩, hline, hheld, ?_⟩
        rw [List.length_cons, Nat.add_assoc, Nat.add_comm 1]
    · rintro ⟨before, line, after, text, hlines, hbefore, hline, hheld, rfl⟩
      cases before with
      | nil =>
        obtain ⟨rfl, rfl⟩ := List.cons.inj hlines
        exact .inl ⟨hline, text, hheld, rfl⟩
      | cons earlier before =>
        obtain ⟨rfl, rfl⟩ := List.cons.inj hlines
        obtain ⟨hfirst, hbefore⟩ := List.forall_mem_cons.1 hbefore
        refine .inr ⟨hfirst, before, line, after, text, rfl, hbefore, hline, hheld, ?_⟩
        rw [List.length_cons, Nat.add_assoc, Nat.add_comm 1]

theorem exists_wordsOfLines_iff :
    (∃ words, wordsOfLines start lines = .ok words) ↔ ∀ line ∈ lines, IsReadable line := by
  induction lines generalizing start with
  | nil => simp
  | cons line lines ih =>
    rw [List.forall_mem_cons, ← ih, isReadable_iff]
    simp only [wordsOfLines_cons_eq_ok_iff]
    constructor
    · rintro ⟨_, part, more, hpart, hmore, -⟩
      exact ⟨⟨part, hpart⟩, more, hmore⟩
    · rintro ⟨⟨part, hpart⟩, more, hmore⟩
      exact ⟨_, part, more, hpart, hmore, rfl⟩

variable {source : String}

theorem exists_parse_iff : (∃ words, parse source = .ok words) ↔
    ∀ line ∈ source.toList.splitOn '\n', IsReadable line := by
  simp only [parse, lines_eq_splitOn, exists_wordsOfLines_iff]

theorem parse_eq_ok_iff : parse source = .ok words ↔
    ∃ parts, List.Forall₂ Yields (source.toList.splitOn '\n') parts ∧ words = parts.flatten := by
  rw [parse, lines_eq_splitOn, wordsOfLines_eq_ok_iff]

theorem parse_eq_error_iff : parse source = .error error ↔
    ∃ before line after text, source.toList.splitOn '\n' = before ++ line :: after ∧
      (∀ earlier ∈ before, IsReadable earlier) ∧ ¬IsReadable line ∧ Holds line text ∧
        error = ⟨before.length + 1, String.ofList text⟩ := by
  simp only [parse, lines_eq_splitOn, wordsOfLines_eq_error_iff, Nat.add_comm 1]

end Texts

section Writing

variable {line text : List Char} {words : List Word} {word : Word}

/-- A line as it may be written: a word or none, with blanks around and a comment behind. -/
inductive Writes : List Char → List Word → Prop
  | blank {blanks comment : List Char} (hblanks : ∀ c ∈ blanks, Text.isBlank c = true)
      (hcomment : IsComment comment) : Writes (blanks ++ comment) []
  | word {left text right comment : List Char} {word : Word}
      (hleft : ∀ c ∈ left, Text.isBlank c = true) (hword : Spells text word)
      (hright : ∀ c ∈ right, Text.isBlank c = true) (hcomment : IsComment comment) :
      Writes (left ++ text ++ right ++ comment) [word]

/-- A text of such lines, each but the last one ended by a line feed with or without a
carriage return before it. -/
inductive Renders : List Char → List Word → Prop
  | last {line : List Char} {words : List Word} (hline : Writes line words)
      (hfeed : '\n' ∉ line) : Renders line words
  | line {line ending rest : List Char} {words more : List Word} (hline : Writes line words)
      (hfeed : '\n' ∉ line) (hending : ending = ['\n'] ∨ ending = ['\r', '\n'])
      (hrest : Renders rest more) : Renders (line ++ ending ++ rest) (words ++ more)

theorem Spells.forall_mem (h : Spells text word) :
    ∀ c ∈ text, Text.isBlank c = false ∧ c ≠ '#' := by
  obtain ⟨mark, sign, row, rfl, hmark, hsign, hrow⟩ := h
  intro c hc
  rw [List.mem_append, List.mem_append] at hc
  obtain hc | hc | hc := hc
  · have hletter : c = '0' ∨ c = 'x' ∨ c = 'X' := by
      obtain rfl | rfl | rfl := hmark <;> simp at hc <;> tauto
    obtain rfl | rfl | rfl := hletter <;> decide
  · have hplus : c = '+' := by
      obtain rfl | rfl := hsign
      · exact absurd hc List.not_mem_nil
      · exact List.mem_singleton.1 hc
    subst hplus
    decide
  · obtain ⟨digit, hdigit⟩ := hrow.exists_digitValue (by decide) hc
    refine ⟨Text.isBlank_of_digitValue hdigit, ?_⟩
    rintro rfl
    exact nomatch hdigit

theorem not_mem_of_blank {blanks : List Char} (h : ∀ c ∈ blanks, Text.isBlank c = true) :
    '#' ∉ blanks :=
  fun hmem => absurd (h _ hmem) (by decide)

theorem Writes.yields (h : Writes line words) : Yields line words := by
  cases h with
  | @blank blanks comment hblanks hcomment =>
    refine .inl ⟨⟨blanks, comment, rfl, not_mem_of_blank hblanks, hcomment, blanks, [], ?_,
      hblanks, List.forall_mem_nil _, nofun, nofun⟩, rfl⟩
    rw [List.append_nil, List.append_nil]
  | @word left text right comment word hleft hword hright hcomment =>
    have hends := hword.forall_mem
    refine .inr ⟨text, word, ⟨left ++ text ++ right, comment, rfl, ?_, hcomment, left, right,
      rfl, hleft, hright, ?_, ?_⟩, hword, rfl⟩
    · rw [List.mem_append, List.mem_append]
      rintro ((hmem | hmem) | hmem)
      · exact not_mem_of_blank hleft hmem
      · exact (hends _ hmem).2 rfl
      · exact not_mem_of_blank hright hmem
    · exact fun c hc => (hends c (List.mem_of_mem_head? hc)).1
    · exact fun c hc => (hends c (List.mem_of_mem_getLast? hc)).1

theorem Writes.append_return (h : Writes line words) : Writes (line ++ ['\r']) words := by
  have hreturn : ∀ c ∈ ['\r'], Text.isBlank c = true := by
    intro c hc
    rw [List.mem_singleton.1 hc]
    decide
  have hlonger : ∀ {c : Char} {comment : List Char}, IsComment (c :: comment) →
      IsComment (c :: comment ++ ['\r']) := id
  cases h with
  | @blank blanks comment hblanks hcomment =>
    cases comment with
    | nil =>
      have hall := List.forall_mem_append.2 ⟨hblanks, hreturn⟩
      simpa using Writes.blank hall hcomment
    | cons c comment => simpa using Writes.blank hblanks (hlonger hcomment)
  | @word left text right comment word hleft hword hright hcomment =>
    cases comment with
    | nil =>
      have hall := List.forall_mem_append.2 ⟨hright, hreturn⟩
      simpa using Writes.word hleft hword hall hcomment
    | cons c comment => simpa using Writes.word hleft hword hright (hlonger hcomment)

theorem wordsOfLines_of_renders (h : Renders text words) (start : Nat) :
    wordsOfLines start (text.splitOn '\n') = .ok words := by
  induction h generalizing start with
  | last hline hfeed =>
    rw [List.splitOn_eq_singleton hfeed, wordsOfLines_cons, addLine_of_yields hline.yields,
      wordsOfLines_nil, Except.map, List.append_nil]
  | @line line ending rest words more hline hfeed hending _ ih =>
    obtain ⟨whole, hwhole, hyields, hfeed⟩ : ∃ whole, line ++ ending = whole ++ ['\n'] ∧
        Yields whole words ∧ '\n' ∉ whole := by
      obtain rfl | rfl := hending
      · exact ⟨line, rfl, hline.yields, hfeed⟩
      · refine ⟨line ++ ['\r'], by simp, hline.append_return.yields, ?_⟩
        simpa using hfeed
    rw [hwhole, List.append_assoc, List.singleton_append,
      List.splitOn_append_cons_self_of_not_mem hfeed, wordsOfLines_cons,
      addLine_of_yields hyields, ih]
    rfl

theorem isRow_hexDigits (word : Word) : Text.IsRow 16 word.hexDigits word.toNat := by
  refine ⟨[28, 24, 20, 16, 12, 8, 4, 0].map fun low => (word.extractLsb' low 4).toNat,
    List.cons_ne_nil _ _, ?_, ?_⟩
  · rw [Word.hexDigits, List.forall₂_map_left_iff, List.forall₂_map_right_iff, List.forall₂_same]
    intro low _
    exact Text.digitValue_eq_some_iff.1 (Word.digitValue_hexDigit _)
  · have hword := word.isLt
    simp only [List.map_cons, List.map_nil, List.reverse_cons, List.reverse_nil, List.nil_append,
      List.cons_append, Nat.ofDigits_cons, Nat.ofDigits_nil, BitVec.extractLsb'_toNat,
      Nat.shiftRight_eq_div_pow]
    omega

theorem spells_toHex (word : Word) : Spells word.toHex.toList word := by
  refine ⟨['0', 'x'], [], word.hexDigits, ?_, .inr (.inl rfl), .inl rfl, isRow_hexDigits word⟩
  rw [Word.toHex, String.toList_append, String.toList_ofList, String.toList_ofList,
    List.nil_append]

theorem exists_renders (words : List Word) : ∃ text, Renders text words := by
  induction words with
  | nil => exact ⟨[], .last (.blank (List.forall_mem_nil _) nofun) List.not_mem_nil⟩
  | cons word words ih =>
    obtain ⟨rest, hrest⟩ := ih
    have hline : Writes word.toHex.toList [word] := by
      simpa using Writes.word (List.forall_mem_nil _) (spells_toHex word) (List.forall_mem_nil _)
        (show IsComment [] from nofun)
    refine ⟨word.toHex.toList ++ ['\n'] ++ rest, .line hline ?_ (.inl rfl) hrest⟩
    intro hmem
    exact absurd ((spells_toHex word).forall_mem _ hmem).1 (by decide)

end Writing

/-- A text is a program exactly when each of its lines, cut at the first `#` and trimmed, is
empty or a word in hexadecimal, and then its words are those of the lines in their order. Of
any other text the first line that is neither is reported with its number, counted from one,
and what it holds. Hence words that are written one to a line, in whatever way, are read back. -/
theorem parse_accepts_grammar :
    (∀ source : String,
      let lines := source.toList.splitOn '\n'
      ((∃ words, parse source = .ok words) ↔ ∀ line ∈ lines, IsReadable line) ∧
        (∀ words, parse source = .ok words ↔
          ∃ parts, List.Forall₂ Yields lines parts ∧ words = parts.flatten) ∧
        ∀ error, parse source = .error error ↔
          ∃ before line after text, lines = before ++ line :: after ∧
            (∀ earlier ∈ before, IsReadable earlier) ∧ ¬IsReadable line ∧ Holds line text ∧
              error = ⟨before.length + 1, String.ofList text⟩) ∧
      (∀ text words, Renders text words → parse (String.ofList text) = .ok words) ∧
      ∀ words, ∃ text, Renders text words := by
  refine ⟨fun source => ?_, ?_, exists_renders⟩
  · exact ⟨exists_parse_iff, fun words => parse_eq_ok_iff, fun error => parse_eq_error_iff⟩
  · intro text words h
    rw [parse, lines_eq_splitOn, String.toList_ofList]
    exact wordsOfLines_of_renders h 1

/-- Comments, an empty line and both line ends make no difference; a second radix mark on a
line does. -/
theorem parse_accepts_grammar_of_mixed_lines :
    let text := "# start".toList ++ ['\r', '\n'] ++
      (" ".toList ++ "0x+00fF".toList ++ "\t".toList ++ "# all".toList ++ ['\n'] ++
        ([] ++ ['\n'] ++ "0X1f".toList))
    Renders text [0xFF, 0x1F] ∧ parse (String.ofList text) = .ok [0xFF, 0x1F] ∧
      parse "1\n0x0x1 # 1\n+" = .error ⟨2, "0x0x1"⟩ := by
  intro text
  obtain ⟨hparse, hwritten, -⟩ := parse_accepts_grammar
  have hempty : Writes [] [] := .blank (List.forall_mem_nil _) nofun
  have hspace : ∀ c ∈ [' '], Text.isBlank c = true := List.forall_mem_singleton.2 (by decide)
  have htab : ∀ c ∈ ['\t'], Text.isBlank c = true := List.forall_mem_singleton.2 (by decide)
  have hcomment : ∀ note, IsComment ('#' :: note) := by
    rintro note c ⟨⟩
    rfl
  have hfirst : Spells "0x+00fF".toList 0xFF := word?_eq_some_iff.1 (by decide)
  have hlast : Spells "0X1f".toList 0x1F := word?_eq_some_iff.1 (by decide)
  have hrenders : Renders text [0xFF, 0x1F] := by
    refine .line (.blank (List.forall_mem_nil _) (hcomment _)) (by decide) (.inr rfl)
      (.line (.word hspace hfirst htab (hcomment _)) (by decide) (.inl rfl)
        (.line hempty (by decide) (.inl rfl) (.last ?_ (by decide))))
    have hplain := Writes.word (List.forall_mem_nil _) hlast (List.forall_mem_nil _)
      (show IsComment [] from nofun)
    rwa [List.append_nil, List.append_nil] at hplain
  have hone : IsReadable ['1'] :=
    .inr ⟨['1'], 1, content_eq_iff.1 (by decide), word?_eq_some_iff.1 (by decide)⟩
  have htwice : Holds "0x0x1 # 1".toList "0x0x1".toList := content_eq_iff.1 (by decide)
  refine ⟨hrenders, hwritten _ _ hrenders, ?_⟩
  refine ((hparse _).2.2 _).2
    ⟨[['1']], "0x0x1 # 1".toList, [['+']], "0x0x1".toList, by decide, ?_, ?_, htwice, by decide⟩
  · exact List.forall_mem_singleton.2 hone
  · rintro (hnothing | ⟨text, word, hheld, hword⟩)
    · exact absurd (content_eq_iff.2 hnothing) (by decide)
    · rw [← content_eq_iff.2 hheld, ← word?_eq_some_iff] at hword
      have hnone : word? (content "0x0x1 # 1".toList) = none := by decide
      exact nomatch hnone.symm.trans hword

end ProgramText
end FacilityIsa
