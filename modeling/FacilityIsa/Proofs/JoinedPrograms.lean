import FacilityIsa.Proofs.ProgramGrammar

/-!
# Programs joined by a line end

The lines of two texts with a line end between them are the lines of the first and then
those of the second, whatever the first one ends with. So the words add up, what is wrong
with the first text stays wrong in the same line, and what is wrong with the second is
found as many lines later as the first has.
-/

namespace FacilityIsa
namespace ProgramText

variable {first second : String} {words more : List Word} {error : InvalidWord}

theorem splitOn_joined (first second : String) :
    (first ++ "\n" ++ second).toList.splitOn '\n' =
      first.toList.splitOn '\n' ++ second.toList.splitOn '\n' := by
  have hend : "\n".toList = ['\n'] := by decide
  rw [String.toList_append, String.toList_append, hend, List.append_assoc, List.singleton_append,
    List.splitOn_append_cons_self]

theorem parse_joined_of_ok (hfirst : parse first = .ok words) (hsecond : parse second = .ok more) :
    parse (first ++ "\n" ++ second) = .ok (words ++ more) := by
  obtain ⟨parts, hparts, rfl⟩ := parse_eq_ok_iff.1 hfirst
  obtain ⟨parts', hparts', rfl⟩ := parse_eq_ok_iff.1 hsecond
  rw [parse_eq_ok_iff, splitOn_joined]
  exact ⟨parts ++ parts', List.rel_append hparts hparts', List.flatten_append.symm⟩

theorem parse_joined_of_error_second (hfirst : parse first = .ok words)
    (hsecond : parse second = .error error) :
    parse (first ++ "\n" ++ second) =
      .error ⟨error.line + first.toList.count '\n' + 1, error.text⟩ := by
  obtain ⟨before, line, after, text, hlines, hbefore, hline, hheld, rfl⟩ :=
    parse_eq_error_iff.1 hsecond
  have hreadable := exists_parse_iff.1 ⟨words, hfirst⟩
  have hlength := length_lines first.toList
  rw [lines_eq_splitOn] at hlength
  rw [parse_eq_error_iff, splitOn_joined, hlines]
  refine ⟨first.toList.splitOn '\n' ++ before, line, after, text, (List.append_assoc ..).symm,
    List.forall_mem_append.2 ⟨hreadable, hbefore⟩, hline, hheld, ?_⟩
  rw [List.length_append, hlength, InvalidWord.mk.injEq]
  exact ⟨by dsimp only; omega, rfl⟩

theorem parse_joined_of_error_first (hfirst : parse first = .error error) (second : String) :
    parse (first ++ "\n" ++ second) = .error error := by
  obtain ⟨before, line, after, text, hlines, h⟩ := parse_eq_error_iff.1 hfirst
  rw [parse_eq_error_iff, splitOn_joined, hlines, List.append_assoc, List.cons_append]
  exact ⟨before, line, after ++ second.toList.splitOn '\n', text, rfl, h⟩

/-- A program behind another one adds its words, or reports its first wrong line as many
lines later as there are line ends before it. A wrong line in the first text is reported
whatever comes behind. -/
theorem joined_programs_parse_in_turn (first second : String) :
    let joined : Except InvalidWord (List Word) := parse (first ++ "\n" ++ second)
    (∀ words, parse first = .ok words →
      (∀ more, parse second = .ok more → joined = .ok (words ++ more)) ∧
        ∀ error, parse second = .error error →
          joined = .error ⟨error.line + first.toList.count '\n' + 1, error.text⟩) ∧
      ∀ error, parse first = .error error → joined = .error error := by
  intro joined
  refine ⟨fun words hfirst => ⟨?_, ?_⟩, ?_⟩
  · intro more hsecond
    exact parse_joined_of_ok hfirst hsecond
  · intro error hsecond
    exact parse_joined_of_error_second hfirst hsecond
  · intro error hfirst
    exact parse_joined_of_error_first hfirst second

/-- A first text may end in a comment, in a carriage return or in a line end of its own. -/
theorem joined_programs_parse_in_turn_of_comment :
    parse ("1 # one\r" ++ "\n" ++ "2") = .ok [1, 2] ∧
      parse ("1\n" ++ "\n" ++ "\n+0x1") = .error ⟨4, "+0x1"⟩ ∧
        parse ("1\nx" ++ "\n" ++ "y") = .error ⟨2, "x"⟩ := by
  obtain ⟨hcommented, -⟩ := joined_programs_parse_in_turn "1 # one\r" "2"
  obtain ⟨hended, -⟩ := joined_programs_parse_in_turn "1\n" "\n+0x1"
  obtain ⟨-, hwrong⟩ := joined_programs_parse_in_turn "1\nx" "y"
  refine ⟨(hcommented [1] (by decide)).1 [2] (by decide), ?_, hwrong _ (by decide)⟩
  exact (hended [1] (by decide)).2 ⟨2, "+0x1"⟩ (by decide)

end ProgramText
end FacilityIsa
