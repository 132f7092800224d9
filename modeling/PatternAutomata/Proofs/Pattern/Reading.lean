import PatternAutomata.Proofs.Pattern.Parser

/-!
# How far a pattern can be read

A pattern can be read up to its end, or it ends within a bracket expression, or
reading gets stuck before.  Where reading gets stuck, nothing that follows
matters: the character that the reader looks ahead to is there, or the bracket
expression could go on anyway.
-/

namespace PatternAutomata

/-! ## Bracket expressions that are refused -/

/-- A bracket expression is wrong, whatever follows. -/
def SyntaxError.IsBracketFault : SyntaxError → Prop
  | .emptyClass _ => True
  | .descendingRange _ _ _ => True
  | _ => False

namespace Bracket

variable {opening position : Nat} {expectation : Expectation}
  {members : CharacterClass} {characters : List Char} {error : SyntaxError}

/-- A bracket expression that goes on reads a dash before its end like one
that ends there. -/
theorem rangeStart?_append_of_ne {previous : Option Char} {character : Char}
    {rest more : List Char} (goes : rest = [] → more.head? ≠ some ']') :
    rangeStart? previous character (rest ++ more) =
      rangeStart? previous character rest := by
  rw [rangeStart?, rangeStart?]
  cases rest with
  | nil => simp [goes rfl]
  | cons head tail => rfl

/-- A bracket expression lacks its end, or it is wrong whatever follows. -/
theorem refused_cases
    (refused : readFrom opening position expectation members characters =
      .error error) :
    error = .unterminatedClass opening ∨
      error.IsBracketFault ∧ ∀ more,
        readFrom opening position expectation members (characters ++ more) =
          .error error := by
  induction characters generalizing position expectation members with
  | nil =>
      rw [readFrom] at refused
      exact .inl (Except.error.inj refused).symm
  | cons character rest goesOn =>
      cases expectation with
      | rangeEnd first =>
          simp only [List.cons_append, readFrom] at refused ⊢
          split at refused
          · next descends =>
              cases refused
              simp only [if_pos descends]
              exact .inr ⟨trivial, fun _ => trivial⟩
          · next ascends =>
              simp only [if_neg ascends]
              exact goesOn refused
      | member previous =>
          simp only [List.cons_append, readFrom] at refused ⊢
          split at refused
          · next closes =>
              split at refused
              · next memberless =>
                  cases refused
                  simp only [if_pos closes, if_pos memberless]
                  exact .inr ⟨trivial, fun _ => trivial⟩
              · cases refused
          · next differs =>
              cases rest with
              | nil =>
                  -- nothing is left, so the end is missing
                  left
                  split at refused <;>
                    exact (Except.error.inj refused).symm
              | cons head tail =>
                  have ahead (more : List Char) :
                      rangeStart? previous character (head :: tail ++ more) =
                        rangeStart? previous character (head :: tail) :=
                    rangeStart?_append_of_ne fun absent =>
                      absurd absent (List.cons_ne_nil head tail)
                  simp only [if_neg differs, ahead]
                  split at refused
                  · exact goesOn refused
                  · exact goesOn refused

/-- A bracket expression that lacks its end can be ended, after a character
that no range descends to. -/
theorem exists_ended
    (cut : readFrom opening position expectation members characters =
      .error (.unterminatedClass opening)) :
    ∃ found, readFrom opening position expectation members
        (characters ++ [lastCharacter, ']']) =
      .ok (found, position + characters.length + 1) := by
  induction characters generalizing position expectation members with
  | nil =>
      cases expectation with
      | rangeEnd first =>
          have ascends := Char.not_lt.2 (le_lastCharacter first)
          have occupied :
              (members.insertRange first lastCharacter).isEmpty = false := by
            rw [Std.ExtTreeSet.isEmpty_eq_false_iff]
            exact Std.ExtTreeSet.ne_empty_of_mem
              (CharacterClass.mem_insertRange.2
                (.inr ⟨le_lastCharacter first, Char.le_refl _⟩))
          refine ⟨members.insertRange first lastCharacter, ?_⟩
          simp [readFrom, ascends, occupied]
      | member previous =>
          have plain : lastCharacter ≠ ']' := by decide
          have single : rangeStart? previous lastCharacter [']'] = none :=
            if_neg fun dash => absurd dash.1 (by decide)
          refine ⟨members.insert lastCharacter, ?_⟩
          simp [readFrom, plain, single]
  | cons character rest ended =>
      have place : position + (character :: rest).length + 1 =
          position + 1 + rest.length + 1 := by
        rw [List.length_cons]
        omega
      rw [place]
      cases expectation with
      | rangeEnd first =>
          simp only [List.cons_append, readFrom] at cut ⊢
          split at cut
          · cases cut
          · next ascends =>
              rw [if_neg ascends]
              exact ended cut
      | member previous =>
          simp only [List.cons_append, readFrom] at cut ⊢
          split at cut
          · split at cut
            · cases cut
            · cases cut
          · next differs =>
              rw [if_neg differs, rangeStart?_append_of_ne]
              · split at cut
                · exact ended cut
                · exact ended cut
              · exact fun _ => by decide

/-- A bracket expression that lacks its end becomes a body. -/
theorem exists_isBody
    (cut : read opening characters = .error (.unterminatedClass opening)) :
    ∃ members : CharacterClass, IsBody (characters ++ [lastCharacter]) ∧
      ∀ character, character ∈ members ↔
        Lists (characters ++ [lastCharacter]) character := by
  rcases exists_ended cut with ⟨members, ended⟩
  rcases read_eq_ok_iff.1 ended with
    ⟨body, others, split, isBody, same, closing⟩
  have bodyLength : (characters ++ [lastCharacter]).length = body.length := by
    rw [List.length_append, List.length_singleton]
    omega
  have whole : characters ++ [lastCharacter] ++ [']'] =
      body ++ ']' :: others := by
    rw [List.append_assoc]
    exact split
  rw [(List.append_inj whole bodyLength).1]
  exact ⟨members, isBody, same⟩

theorem not_mem_of_unterminated
    (cut : read opening characters = .error (.unterminatedClass opening)) :
    ']' ∉ characters := by
  rcases exists_isBody cut with ⟨members, isBody, -⟩
  intro closes
  exact isBody.unclosed (List.mem_append_left _ closes)

end Bracket

/-! ## Tokens of one character -/

namespace Token

/-- The character that writes a token, if it takes one only. -/
def sign? : Token → Option Char
  | literal character => some character
  | oneOf _ => none
  | openGroup => some '('
  | closeGroup => some ')'
  | .binary operator => some operator.sign
  | .repetition repeated => some repeated.sign

theorem sign?_ofChar (character : Char) :
    (ofChar character).sign? = some character := by
  unfold ofChar
  split <;> rfl

/-- A test that literals pass is a test on special characters. -/
theorem ofChar_iff_not_mem {test : Token → Bool} {signs : List Char}
    (literals : ∀ character, test (literal character) = true)
    (specials : ∀ character ∈ Pattern.special,
      (test (ofChar character) = true ↔ character ∉ signs))
    (areSpecial : ∀ sign ∈ signs, sign ∈ Pattern.special)
    (character : Char) :
    test (ofChar character) = true ↔ character ∉ signs := by
  by_cases special : character ∈ Pattern.special
  · exact specials character special
  · rw [Parser.ofChar_literal special]
    refine iff_of_true (literals character) ?_
    intro sign
    exact special (areSpecial character sign)

/-- An operand is complete after the token. -/
def endsOperand : Token → Bool
  | openGroup => false
  | binary _ => false
  | _ => true

theorem endsOperand_ofChar_iff (character : Char) :
    (ofChar character).endsOperand = true ↔ character ∉ ['(', '|', '&'] :=
  ofChar_iff_not_mem (fun _ => rfl)
    (by simp [Pattern.special, ofChar, endsOperand])
    (by simp [Pattern.special]) character

/-- The token may stand where an operand is expected. -/
def startsOperand : Token → Bool
  | closeGroup => false
  | binary _ => false
  | repetition _ => false
  | _ => true

theorem startsOperand_ofChar_iff (character : Char) :
    (ofChar character).startsOperand = true ↔
      character ∉ [')', '*', '+', '?', '|', '&'] :=
  ofChar_iff_not_mem (fun _ => rfl)
    (by simp [Pattern.special, ofChar, startsOperand])
    (by simp [Pattern.special]) character

end Token

namespace Parser

/-! ## Beginnings of patterns -/

/-- The characters have been read from the start, and the reader has come to
the state. -/
inductive Reads : List Char → State → Prop
  | start : Reads [] .initial
  | character {word : List Char} {state next : State} {character : Char} :
      Reads word state → character ≠ '[' →
      state.step (Token.ofChar character, word.length) = .ok next →
      Reads (word ++ [character]) next
  | bracket {word body : List Char} {members : CharacterClass}
      {state next : State} :
      Reads word state → Bracket.IsBody body →
      (∀ character, character ∈ members ↔ Bracket.Lists body character) →
      state.step (.oneOf members, word.length) = .ok next →
      Reads (word ++ '[' :: (body ++ [']'])) next

variable {word pattern : List Char} {state next : State} {error : SyntaxError}
  {position : Nat}

namespace Holds

/-- After an operand, an operator can be read. -/
theorem exists_pushOperator (holds : Holds word state)
    (after : state.afterOperand = true) (operator : BinaryOperator)
    (position : Nat) :
    ∃ next, state.pushOperator operator position = .ok next ∧
      next.afterOperand = false := by
  cases holds with
  | awaiting => exact nomatch after
  | complete awaits derived =>
      rcases awaits.reduces operator derived with
        ⟨reduced, rest, before, phrase, tree, reduces, -⟩
      exact ⟨_, pushOperator_of_reduces position rfl reduces, rfl⟩

/-- An operand can be expected anywhere outside bracket expressions. -/
theorem exists_beforeOperand (holds : Holds word state) (position : Nat) :
    ∃ ready, state.beforeOperand position = .ok ready := by
  rw [State.beforeOperand]
  split
  · next after =>
      rcases holds.exists_pushOperator after .concatenation position with
        ⟨next, pushed, -⟩
      exact ⟨next, pushed⟩
  · exact ⟨state, rfl⟩

theorem exists_pushOperand (holds : Holds word state) (operand : Regex)
    (position : Nat) :
    ∃ next, state.pushOperand operand position = .ok next ∧
      next.afterOperand = true := by
  rcases holds.exists_beforeOperand position with ⟨ready, before⟩
  rw [State.pushOperand, before]
  exact ⟨_, rfl, rfl⟩

end Holds

/-- A bracket expression with what comes before and after it. -/
theorem append_bracket_append (word body rest : List Char) :
    word ++ '[' :: (body ++ [']']) ++ rest =
      word ++ '[' :: (body ++ ']' :: rest) := by
  simp

theorem length_append_bracket (word body : List Char) :
    (word ++ '[' :: (body ++ [']'])).length =
      word.length + 1 + (body.length + 1) := by
  simp only [List.length_append, List.length_cons, List.length_nil]
  omega

namespace Reads

theorem holds (reads : Reads word state) : Holds word state := by
  induction reads with
  | start => exact .awaiting .start
  | character _ plain stepped holds => exact holds.step plain stepped
  | bracket _ isBody same stepped holds =>
      exact holds.pushOperand (.oneOf isBody same) stepped

/-- The rest of a pattern is read from where its beginning has led. -/
theorem parse_append (reads : Reads word state) (rest : List Char) :
    parse (word ++ rest) = readOn word.length rest state := by
  induction reads generalizing rest with
  | start => exact parse_eq rest
  | @character word state next character _ plain stepped parses =>
      rw [List.append_assoc, parses, List.singleton_append,
        readOn_cons _ _ _ plain, stepped, List.length_append]
      rfl
  | @bracket word body members state next _ isBody same stepped parses =>
      rw [append_bracket_append, parses, readOn_body _ _ _ isBody same,
        stepped, length_append_bracket]
      rfl

theorem parse_eq (reads : Reads word state) : parse word = state.finish := by
  have parses := reads.parse_append []
  rw [List.append_nil] at parses
  exact parses

end Reads

/-- The pattern ends within a bracket expression. -/
def EndsInBracket (pattern : List Char) : Prop :=
  ∃ front cut state, pattern = front ++ '[' :: cut ∧ Reads front state ∧
    Bracket.read front.length cut = .error (.unterminatedClass front.length)

/-- Reading gets stuck within the pattern, for the given reason. -/
inductive GetsStuck : List Char → SyntaxError → Prop
  | bracket {front rest : List Char} {state : State} {error : SyntaxError} :
      Reads front state → error.IsBracketFault →
      Bracket.read front.length rest = .error error →
      GetsStuck (front ++ '[' :: rest) error
  | character {front rest : List Char} {character : Char} {state : State}
      {failure : Failure} :
      Reads front state → character ≠ '[' →
      state.step (Token.ofChar character, front.length) = .error failure →
      GetsStuck (front ++ character :: rest) failure.error

/-- A bracket expression that is refused ends the reading. -/
theorem Reads.parse_bracket {front rest : List Char}
    (reads : Reads front state)
    (refused : Bracket.read front.length rest = .error error) :
    parse (front ++ '[' :: rest) = state.fail error := by
  rw [reads.parse_append, readOn, Tokens.readFrom, if_pos rfl, refused]
  rfl

/-- A pattern that reading gets stuck in is refused for this reason. -/
theorem GetsStuck.exists_parse_eq (stuck : GetsStuck pattern error) :
    ∃ operands, parse pattern = .error ⟨error, operands⟩ := by
  cases stuck with
  | @bracket _ _ state _ reads _ refused =>
      exact ⟨state.operands, reads.parse_bracket refused⟩
  | @character _ _ _ _ failure reads plain refused =>
      refine ⟨failure.operands, ?_⟩
      rw [reads.parse_append, readOn_cons _ _ _ plain, refused]
      rfl

/-- What follows does not matter. -/
theorem GetsStuck.append (stuck : GetsStuck pattern error)
    (more : List Char) : GetsStuck (pattern ++ more) error := by
  cases stuck with
  | bracket reads fault refused =>
      rw [List.append_assoc]
      apply GetsStuck.bracket reads fault
      rcases Bracket.refused_cases refused with rfl | ⟨-, always⟩
      · exact fault.elim
      · exact always more
  | character reads plain refused =>
      rw [List.append_assoc]
      exact .character reads plain refused

/-- A pattern can be read to its end, or it ends within a bracket expression, or
reading gets stuck. -/
theorem Reads.cases_append {word : List Char} {state : State}
    (reads : Reads word state) (rest : List Char) :
    (∃ reached, Reads (word ++ rest) reached) ∨
      EndsInBracket (word ++ rest) ∨
      ∃ error, GetsStuck (word ++ rest) error := by
  match rest with
  | [] =>
      rw [List.append_nil]
      exact .inl ⟨state, reads⟩
  | head :: others =>
      by_cases opens : head = '['
      · subst opens
        cases found : Bracket.read word.length others with
        | error fault =>
            right
            rcases Bracket.refused_cases found with rfl | ⟨wrong, -⟩
            · exact .inl ⟨word, others, state, rfl, reads, found⟩
            · exact .inr ⟨fault, .bracket reads wrong found⟩
        | ok result =>
            rcases result with ⟨members, closing⟩
            rcases Bracket.read_eq_ok_iff.1 found with
              ⟨body, others, rfl, isBody, same, -⟩
            rcases reads.holds.exists_pushOperand (.oneOf members)
              word.length with ⟨next, stepped, -⟩
            have goesOn := (reads.bracket isBody same stepped).cases_append
              others
            simpa using goesOn
      · cases stepped : state.step (Token.ofChar head, word.length) with
        | error failure =>
            exact .inr (.inr ⟨failure.error,
              .character reads opens stepped⟩)
        | ok next =>
            have goesOn := (reads.character opens stepped).cases_append
              others
            simpa using goesOn
termination_by rest.length

theorem EndsInBracket.exists_parse_eq (ends : EndsInBracket pattern) :
    ∃ opening operands,
      parse pattern = .error ⟨.unterminatedClass opening, operands⟩ := by
  rcases ends with ⟨front, cut, state, rfl, reads, refused⟩
  exact ⟨front.length, state.operands, reads.parse_bracket refused⟩

/-! ## Where an operand is expected -/

/-- The token that puts an entry on the operator stack. -/
def Waiting.token : Waiting → Token
  | .group => .openGroup
  | .operator waiting => .binary waiting

/-- The character that writes an entry of the operator stack. -/
def Waiting.sign : Waiting → Char
  | .group => '('
  | .operator waiting => waiting.sign

/-- The token tells whether an operand has just been completed. -/
theorem afterOperand_step {token : Token}
    (stepped : state.step (token, position) = .ok next) :
    next.afterOperand = token.endsOperand := by
  cases token with
  | literal _ | oneOf _ | openGroup =>
      rcases exists_of_bind_eq_ok stepped with ⟨_, -, same⟩
      cases same
      rfl
  | closeGroup =>
      rcases exists_of_closeGroup stepped with ⟨-, reduced, -, rfl⟩
      rfl
  | binary operator =>
      rcases exists_of_pushOperator stepped with ⟨-, reduced, -, rfl⟩
      rfl
  | repetition repetition =>
      rcases exists_of_repeatOperand stepped with ⟨-, body, rest, -, rfl⟩
      rfl

/-- While an operand is expected, the token read last is on top of the operator
stack; an operator has been read after an operand. -/
theorem top_of_step {token : Token}
    (stepped : state.step (token, position) = .ok next)
    (waiting : next.afterOperand = false) :
    ∃ entry rest, next.operators = (entry, position) :: rest ∧
      token = entry.token ∧
      (entry = .group ∨ state.afterOperand = true) := by
  rw [afterOperand_step stepped] at waiting
  cases token with
  | openGroup =>
      rcases exists_of_bind_eq_ok stepped with ⟨ready, -, same⟩
      cases same
      exact ⟨.group, ready.operators, rfl, rfl, .inl rfl⟩
  | binary operator =>
      rcases exists_of_pushOperator stepped with ⟨after, reduced, -, rfl⟩
      exact ⟨.operator operator, reduced.1, rfl, rfl, .inr after⟩
  | _ => cases waiting

/-- While an operand is expected, nothing has been read, or the last character
is on top of the operator stack. -/
theorem Reads.top_of_waiting (reads : Reads word state)
    (waiting : state.afterOperand = false) :
    word = [] ∧ state.operators = [] ∨
      ∃ front before entry rest, word = front ++ [entry.sign] ∧
        state.operators = (entry, front.length) :: rest ∧
        Reads front before ∧
        (entry = .group ∨ before.afterOperand = true) := by
  cases reads with
  | start => exact .inl ⟨rfl, rfl⟩
  | @character front before state character reads plain stepped =>
      rcases top_of_step stepped waiting with
        ⟨entry, rest, top, token, complete⟩
      have sign : entry.sign = character := by
        have spelled := Token.sign?_ofChar character
        rw [token] at spelled
        cases entry <;> exact Option.some.inj spelled
      subst sign
      exact .inr ⟨front, before, entry, rest, rfl, top, reads, complete⟩
  | bracket reads isBody same stepped =>
      rw [afterOperand_step stepped] at waiting
      cases waiting

/-- The last character tells whether an operand is complete. -/
theorem Reads.afterOperand_iff (reads : Reads word state) :
    state.afterOperand = true ↔
      ∃ last, word.getLast? = some last ∧ last ∉ ['(', '|', '&'] := by
  cases reads with
  | start => exact iff_of_false Bool.false_ne_true (by simp)
  | @character _ _ _ character _ _ stepped =>
      rw [afterOperand_step stepped, Token.endsOperand_ofChar_iff,
        List.getLast?_concat]
      simp
  | @bracket word body _ _ _ _ _ _ stepped =>
      have whole : word ++ '[' :: (body ++ [']']) =
          word ++ '[' :: body ++ [']'] := by simp
      rw [afterOperand_step stepped, whole, List.getLast?_concat]
      exact iff_of_true rfl ⟨']', rfl, by decide⟩

/-- What is read while an operand is expected may stand there. -/
theorem startsOperand_of_step {token : Token}
    (stepped : state.step (token, position) = .ok next)
    (waiting : state.afterOperand = false) :
    token.startsOperand = true := by
  cases token with
  | literal _ | oneOf _ | openGroup => rfl
  | closeGroup =>
      cases (exists_of_closeGroup stepped).1.symm.trans waiting
  | binary operator =>
      cases (exists_of_pushOperator stepped).1.symm.trans waiting
  | repetition repetition =>
      cases (exists_of_repeatOperand stepped).1.symm.trans waiting

theorem Reads.exists_before_top {entry : Waiting} {rest : Operators}
    (reads : Reads word state) (waiting : state.afterOperand = false)
    (top : state.operators = (entry, position) :: rest) :
    ∃ front before, word = front ++ [entry.sign] ∧
      position = front.length ∧ Reads front before ∧
      (entry = .group ∨ before.afterOperand = true) := by
  rcases reads.top_of_waiting waiting with
    ⟨-, empty⟩ | ⟨front, before, other, others, whole, found, complete⟩
  · cases top.symm.trans empty
  · cases top.symm.trans found
    exact ⟨front, before, whole, rfl, complete⟩

theorem Reads.eq_nil_of_waiting (reads : Reads word state)
    (waiting : state.afterOperand = false) (empty : state.operators = []) :
    word = [] := by
  rcases reads.top_of_waiting waiting with
    ⟨whole, -⟩ | ⟨_, _, _, _, -, found, -⟩
  · exact whole
  · cases empty.symm.trans found

end Parser

end PatternAutomata
