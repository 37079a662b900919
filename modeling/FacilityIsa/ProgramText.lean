import FacilityIsa.Text.Blank
import FacilityIsa.Text.Numeral
import FacilityIsa.Word

/-!
# Program texts

A program is written one word to a line, in hexadecimal with an optional `0x`.
A `#` starts a comment that runs to the end of the line, and lines without a
word are skipped. The first line that holds anything else is reported by its
number, counted from one, with its text between blanks.
-/

namespace FacilityIsa

/-- A line that is not a word. -/
structure InvalidWord where
  line : Nat
  text : String
  deriving DecidableEq

def InvalidWord.message (error : InvalidWord) : String :=
  "line " ++ toString error.line ++ ": `" ++ error.text ++ "` is not a 32-bit hex word"

namespace ProgramText

/-- The lines of a text. A text that ends with a line end has an empty last line. -/
def lines (source : List Char) : List (List Char) :=
  source.foldr
    (fun c lines =>
      if c = '\n' then [] :: lines
      else match lines with
        | [] => [[c]]
        | line :: rest => (c :: line) :: rest)
    [[]]

@[simp] theorem lines_nil : lines [] = [[]] := rfl

@[simp] theorem lines_newline (source : List Char) : lines ('\n' :: source) = [] :: lines source :=
  rfl

theorem lines_ne_nil (source : List Char) : lines source ≠ [] := by
  cases source with
  | nil => simp
  | cons c source =>
    simp only [lines, List.foldr_cons]
    split
    · simp
    · split <;> simp

theorem lines_cons {c : Char} (hc : c ≠ '\n') {source line : List Char} {rest : List (List Char)}
    (h : lines source = line :: rest) : lines (c :: source) = (c :: line) :: rest := by
  simp only [lines, List.foldr_cons, if_neg hc] at h ⊢
  rw [h]

theorem length_lines (source : List Char) : (lines source).length = source.count '\n' + 1 := by
  induction source with
  | nil => rfl
  | cons c source ih =>
    by_cases hc : c = '\n'
    · subst hc
      simp [ih]
    · obtain ⟨line, rest, hlines⟩ := List.exists_cons_of_ne_nil (lines_ne_nil source)
      rw [lines_cons hc hlines, List.count_cons_of_ne hc, ← ih, hlines]
      rfl

/-- What a line holds besides a comment and blanks. -/
def content (line : List Char) : List Char :=
  Text.trim (line.takeWhile (· ≠ '#'))

def withoutRadixMark : List Char → List Char
  | '0' :: 'x' :: digits => digits
  | '0' :: 'X' :: digits => digits
  | digits => digits

/-- The word that a content stands for. -/
def word? (content : List Char) : Option Word :=
  (Text.numeral? 16 (Nat.pow 2 32) (withoutRadixMark content)).map (BitVec.ofNat 32)

/-- The words of a numbered line and of the lines after it. -/
def addLine (line : List Char × Nat) (rest : Except InvalidWord (List Word)) :
    Except InvalidWord (List Word) :=
  match content line.1 with
  | [] => rest
  | text =>
    match word? text with
    | some word => rest.map (word :: ·)
    | none => .error ⟨line.2, String.ofList text⟩

/-- The words of lines that are numbered from `start` on. -/
def wordsOfLines (start : Nat) (lines : List (List Char)) : Except InvalidWord (List Word) :=
  (lines.zipIdx start).foldr addLine (.ok [])

/-- The words of a program text. -/
def parse (source : String) : Except InvalidWord (List Word) :=
  wordsOfLines 1 (lines source.toList)

@[simp] theorem wordsOfLines_nil (start : Nat) : wordsOfLines start [] = .ok [] := rfl

theorem wordsOfLines_cons (start : Nat) (line : List Char) (lines : List (List Char)) :
    wordsOfLines start (line :: lines) =
      addLine (line, start) (wordsOfLines (start + 1) lines) := by
  simp [wordsOfLines, List.zipIdx_cons]

end ProgramText
end FacilityIsa
