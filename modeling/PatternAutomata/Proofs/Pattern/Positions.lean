import PatternAutomata.Proofs.Pattern.Parentheses
import PatternAutomata.Proofs.Pattern.Refusal

/-!
# The positions that refusals name

A position that a refusal names is that of a character that is to blame, though
the reader may have passed it long before.  While an operand is expected, the
top of the operator stack is the character read last.  A concatenation that
nothing writes has its operand at once, so it is never there.
-/

namespace PatternAutomata

/-- What is found at the position that a reason names. -/
def SyntaxError.PointsAt (pattern : List Char) : SyntaxError → Prop
  | .emptyPattern => pattern = []
  | .unterminatedClass opening =>
      pattern[opening]? = some '[' ∧ ']' ∉ pattern.drop (opening + 1)
  | .emptyClass opening =>
      pattern[opening]? = some '[' ∧ pattern[opening + 1]? = some ']'
  | .descendingRange first last position =>
      last < first ∧ ∃ start, position = start + 2 ∧
        pattern[start]? = some first ∧ pattern[start + 1]? = some '-' ∧
        pattern[position]? = some last
  | .unmatchedClosing position =>
      pattern[position]? = some ')' ∧
        (position = 0 ∨ IsRead (pattern.take position))
  | .unmatchedOpening position => Pattern.IsLastUnclosed pattern position
  | .emptyGroup position =>
      ∃ opening, position = opening + 1 ∧ pattern[opening]? = some '(' ∧
        pattern[position]? = some ')'
  | .missingOperand operator position => pattern[position]? = some operator

/-! ## Bracket expressions -/

namespace Bracket

variable {opening position : Nat} {expectation : Expectation}
  {members : CharacterClass} {word characters : List Char}

/-- What the reader looks for tells which characters it has just passed. -/
def Expectation.Follows (word : List Char) : Expectation → Prop
  | .member none => True
  | .member (some previous) => ∃ front, word = front ++ [previous]
  | .rangeEnd first => ∃ front, word = front ++ [first, '-']

theorem rangeStart?_eq_some {previous : Option Char} {character first : Char}
    {rest : List Char}
    (starts : rangeStart? previous character rest = some first) :
    previous = some first ∧ character = '-' := by
  rw [rangeStart?] at starts
  split at starts
  · next dash => exact ⟨starts, dash.1⟩
  · cases starts

/-- A class without members is closed by the character that is read first. -/
theorem closes_of_emptyClass {place : Nat}
    (refused : readFrom opening position expectation members characters =
      .error (.emptyClass place)) :
    place = opening ∧ (∀ listed, listed ∉ members) ∧
      (∃ previous, expectation = .member previous) ∧
      ∃ rest, characters = ']' :: rest := by
  induction characters generalizing position expectation members with
  | nil =>
      rw [readFrom] at refused
      cases refused
  | cons character rest closes =>
      cases expectation with
      | rangeEnd first =>
          rw [readFrom] at refused
          split at refused
          · cases refused
          · next ascends =>
              exact absurd (CharacterClass.mem_insertRange.2
                (.inr ⟨Char.le_refl _, Char.not_lt.1 ascends⟩))
                ((closes refused).2.1 first)
      | member previous =>
          rw [readFrom] at refused
          split at refused
          · next here =>
              split at refused
              · next memberless =>
                  cases refused
                  rw [Std.ExtTreeSet.isEmpty_iff,
                    Std.ExtTreeSet.eq_empty_iff_forall_not_mem] at memberless
                  exact ⟨rfl, memberless, ⟨previous, rfl⟩, rest, here ▸ rfl⟩
              · cases refused
          · split at refused
            · rcases (closes refused).2.2.1 with ⟨_, impossible⟩
              cases impossible
            · exact absurd Std.ExtTreeSet.mem_insert_self
                ((closes refused).2.1 character)

/-- The ends of a descending range stand around a dash. -/
theorem exists_dash {first last : Char} (follows : expectation.Follows word)
    (refused : readFrom opening word.length expectation members characters =
      .error (.descendingRange first last position)) :
    last < first ∧ ∃ front back,
      word ++ characters = front ++ first :: '-' :: last :: back ∧
        position = front.length + 2 := by
  induction characters generalizing word expectation members with
  | nil =>
      rw [readFrom] at refused
      cases refused
  | cons character rest dash =>
      have passed : word.length + 1 = (word ++ [character]).length := by simp
      have whole : word ++ character :: rest = word ++ [character] ++ rest :=
        by simp
      have member : (Expectation.member (some character)).Follows
          (word ++ [character]) := ⟨word, rfl⟩
      rw [whole]
      cases expectation with
      | rangeEnd start =>
          rw [readFrom, passed] at refused
          split at refused
          · next descends =>
              cases refused
              rcases follows with ⟨front, rfl⟩
              exact ⟨descends, front, rest, by simp, by simp⟩
          · exact dash member refused
      | member previous =>
          rw [readFrom, passed] at refused
          split at refused
          · split at refused
            · cases refused
            · cases refused
          · split at refused
            · next start starts =>
                rcases rangeStart?_eq_some starts with ⟨rfl, rfl⟩
                rcases follows with ⟨front, rfl⟩
                have between : (Expectation.rangeEnd start).Follows
                    (front ++ [start] ++ ['-']) := ⟨front, by simp⟩
                exact dash between refused
            · exact dash member refused

/-- The position that a bracket expression is refused with. -/
theorem pointsAt_of_read {front rest : List Char} {error : SyntaxError}
    (refused : read front.length rest = .error error) :
    error.PointsAt (front ++ '[' :: rest) := by
  rcases refused_cases refused with rfl | ⟨fault, -⟩
  · refine ⟨by simp, ?_⟩
    rw [← List.drop_drop, List.drop_left]
    exact not_mem_of_unterminated refused
  · cases error with
    | emptyClass place =>
        rcases closes_of_emptyClass refused with ⟨rfl, -, -, rest, rfl⟩
        constructor
        · simp
        · simp
    | descendingRange first last position =>
        have opened : front.length + 1 = (front ++ ['[']).length := by simp
        rw [read, opened] at refused
        have follows : (Expectation.member none).Follows (front ++ ['[']) :=
          trivial
        rcases exists_dash follows refused with
          ⟨descends, before, back, whole, rfl⟩
        rw [List.append_assoc, List.singleton_append] at whole
        rw [whole]
        exact ⟨descends, before.length, rfl, by simp, by simp, by simp⟩
    | _ => exact fault.elim

end Bracket

/-! ## Tokens and the ends of patterns -/

namespace Parser

variable {pattern front rest : List Char} {state : State} {character : Char}
  {failure : Failure} {error : SyntaxError}

/-- The position that the end of a pattern is refused with. -/
theorem Reads.pointsAt_of_finish (reads : Reads pattern state)
    (refused : state.finish = .error failure) :
    failure.error.PointsAt pattern := by
  rcases reads.finish_cases refused with
    ⟨same, empty⟩ | ⟨opening, others, same, groups⟩ |
      ⟨operator, front, before, same, rfl, -⟩
  · rw [same]
    exact empty
  · have leaves := reads.leavesOpen
    rw [groups] at leaves
    rw [same]
    exact leaves.isLastUnclosed
  · rw [same]
    exact List.getElem?_concat_length

/-- The position that a token of one character is refused with. -/
theorem Reads.pointsAt_of_step (reads : Reads front state)
    (refused : state.step (Token.ofChar character, front.length) =
      .error failure) :
    failure.error.PointsAt (front ++ character :: rest) := by
  have here : (front ++ character :: rest)[front.length]? = some character :=
    by simp
  have spelled := Token.sign?_ofChar character
  have refuses := reads.holds.refuses refused
  generalize Token.ofChar character = token at spelled refuses
  generalize failure.error = error at refuses
  cases refuses with
  | @unmatched tree after finished =>
      cases spelled
      refine ⟨here, .inr ?_⟩
      rw [List.take_left]
      exact isRead_iff.2 ⟨tree, reads.parse_eq.trans finished⟩
  | first waiting empty =>
      cases spelled
      cases reads.eq_nil_of_waiting waiting empty
      exact ⟨here, .inl rfl⟩
  | empty waiting top =>
      cases spelled
      rcases reads.exists_before_top waiting top with ⟨before, -, rfl, rfl, -⟩
      exact ⟨before.length, by simp, by simp [Waiting.sign], here⟩
  | operator waiting top =>
      rcases reads.exists_before_top waiting top with ⟨before, -, rfl, rfl, -⟩
      simp [SyntaxError.PointsAt, Waiting.sign]
  | binary operator waiting =>
      cases spelled
      exact here
  | repetition repetition waiting =>
      cases spelled
      exact here

theorem GetsStuck.pointsAt (stuck : GetsStuck pattern error) :
    error.PointsAt pattern := by
  cases stuck with
  | bracket _ _ refused => exact Bracket.pointsAt_of_read refused
  | character reads _ refused => exact reads.pointsAt_of_step refused

theorem pointsAt_of_parse
    (refused : parse pattern = .error failure) :
    failure.error.PointsAt pattern := by
  rcases Reads.start.cases_append pattern with
    ⟨reached, reads⟩ | ⟨front, cut, reached, rfl, reads, cutOff⟩ |
      ⟨error, stuck⟩
  · exact reads.pointsAt_of_finish (reads.parse_eq.symm.trans refused)
  · cases (reads.parse_bracket cutOff).symm.trans refused
    exact Bracket.pointsAt_of_read cutOff
  · rcases stuck.exists_parse_eq with ⟨operands, same⟩
    cases same.symm.trans refused
    exact stuck.pointsAt

end Parser

/-- Whatever a pattern is refused for is found at the position that the refusal
names. -/
theorem refused_pointsAt (pattern : List Char) (supply : IdSupply)
    (error : SyntaxError)
    (refused : (Nfa.ofPattern pattern supply).1 = .error error) :
    error.PointsAt pattern := by
  rcases Nfa.ofPattern_eq_error_iff.1 refused with ⟨operands, same⟩
  exact Parser.pointsAt_of_parse same

/-- Neither a group that is closed nor parentheses in a bracket expression are
to blame, and the first group is not the last one. -/
theorem refused_pointsAt_groups :
    (Nfa.ofPattern ['(', 'a', '(', 'b', '(', 'c', '[', ')', '(', ']', ')']
        .fresh).1 = .error (.unmatchedOpening 2) ∧
      Pattern.IsLastUnclosed
        ['(', 'a', '(', 'b', '(', 'c', '[', ')', '(', ']', ')'] 2 := by
  have refused : (Nfa.ofPattern
      ['(', 'a', '(', 'b', '(', 'c', '[', ')', '(', ']', ')'] .fresh).1 =
        .error (.unmatchedOpening 2) := by
    decide +kernel
  exact ⟨refused, refused_pointsAt _ _ _ refused⟩

end PatternAutomata
