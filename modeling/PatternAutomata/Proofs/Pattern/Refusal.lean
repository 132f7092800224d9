import PatternAutomata.Nfa.Thompson
import PatternAutomata.Proofs.Pattern.OpenGroups

/-!
# Refused patterns that can be completed

A pattern is refused because something is missing at its end, or because
something in it is wrong.  In the first case there are characters that complete
it, in the second case it is refused for the same reason whatever follows, and
the reason tells which case it is.  Only a missing operand can be either: it
can still come if the operator is the last character and could be read there.
-/

namespace PatternAutomata

variable {pattern : List Char} {error : SyntaxError}

/-- The pattern is read, whatever number comes next. -/
def IsRead (pattern : List Char) : Prop :=
  ∀ supply, ∃ nfa, (Nfa.ofPattern pattern supply).1 = .ok nfa

/-- The pattern is refused for the given reason, whatever number comes
next. -/
def IsRefused (pattern : List Char) (error : SyntaxError) : Prop :=
  ∀ supply, (Nfa.ofPattern pattern supply).1 = .error error

/-- Some characters after the pattern make it one that is read. -/
def IsCompletable (pattern : List Char) : Prop :=
  ∃ rest, IsRead (pattern ++ rest)

/-- Whatever follows, the pattern is refused for the same reason. -/
def IsHopeless (pattern : List Char) (error : SyntaxError) : Prop :=
  ∀ rest, IsRefused (pattern ++ rest) error

/-- The reason for which a pattern is refused is something missing at its end.
An operand is missing there if the pattern before the operator is read with
its open groups closed. -/
def SyntaxError.IsAtEnd (pattern : List Char) : SyntaxError → Prop
  | .emptyPattern => True
  | .unterminatedClass _ => True
  | .unmatchedOpening _ => True
  | .emptyClass _ => False
  | .descendingRange _ _ _ => False
  | .emptyGroup _ => False
  | .unmatchedClosing _ => False
  | .missingOperand operator position =>
      (operator = '|' ∨ operator = '&') ∧ position + 1 = pattern.length ∧
        IsRead (withGroupsClosed pattern.dropLast)

/-- The number that comes next does not matter for the reading. -/
theorem Nfa.exists_ofPattern_iff {supply : IdSupply} :
    (∃ nfa, (ofPattern pattern supply).1 = .ok nfa) ↔
      ∃ tree, Parser.parse pattern = .ok tree := by
  rw [ofPattern]
  cases Parser.parse pattern <;> simp

/-- The number that comes next does not matter for the refusal. -/
theorem Nfa.ofPattern_eq_error_iff {supply : IdSupply} :
    (ofPattern pattern supply).1 = .error error ↔
      ∃ operands, Parser.parse pattern = .error ⟨error, operands⟩ := by
  rw [ofPattern]
  cases Parser.parse pattern with
  | ok tree => simp
  | error failure =>
      constructor
      · intro same
        cases same
        exact ⟨failure.operands, rfl⟩
      · rintro ⟨operands, same⟩
        cases same
        rfl

theorem isRead_iff :
    IsRead pattern ↔ ∃ tree, Parser.parse pattern = .ok tree :=
  ⟨fun read => Nfa.exists_ofPattern_iff.1 (read .fresh),
    fun parsed _ => Nfa.exists_ofPattern_iff.2 parsed⟩

theorem isRefused_iff :
    IsRefused pattern error ↔
      ∃ operands, Parser.parse pattern = .error ⟨error, operands⟩ :=
  ⟨fun refused => Nfa.ofPattern_eq_error_iff.1 (refused .fresh),
    fun failed _ => Nfa.ofPattern_eq_error_iff.2 failed⟩

theorem IsRead.not_isRefused (read : IsRead pattern) :
    ¬IsRefused pattern error := by
  intro refused
  rcases read .fresh with ⟨nfa, same⟩
  rw [refused .fresh] at same
  exact nomatch same

theorem IsCompletable.not_isHopeless (completable : IsCompletable pattern) :
    ¬IsHopeless pattern error := by
  intro hopeless
  rcases completable with ⟨rest, read⟩
  exact read.not_isRefused (hopeless rest)

/-- A token is wrong after those before it. -/
def SyntaxError.IsTokenFault : SyntaxError → Prop
  | .emptyGroup _ => True
  | .unmatchedClosing _ => True
  | .missingOperand _ _ => True
  | _ => False

namespace Parser

variable {state next : State} {word : List Char} {position : Nat}

/-! ## Tokens that are refused -/

/-- A token is refused for the given reason: a closing parenthesis because no
group is open, or another token because no operand precedes it. -/
inductive Refuses (state : State) (position : Nat) :
    Token → SyntaxError → Prop
  | unmatched {tree : Regex} : state.afterOperand = true →
      state.finish = .ok tree →
      Refuses state position .closeGroup (.unmatchedClosing position)
  | first : state.afterOperand = false → state.operators = [] →
      Refuses state position .closeGroup (.unmatchedClosing position)
  | empty {opening : Nat} {rest : Operators} : state.afterOperand = false →
      state.operators = (.group, opening) :: rest →
      Refuses state position .closeGroup (.emptyGroup position)
  | operator {operator : BinaryOperator} {earlier : Nat} {rest : Operators} :
      state.afterOperand = false →
      state.operators = (.operator operator, earlier) :: rest →
      Refuses state position .closeGroup
        (.missingOperand operator.sign earlier)
  | binary (operator : BinaryOperator) : state.afterOperand = false →
      Refuses state position (.binary operator)
        (.missingOperand operator.sign position)
  | repetition (repetition : Repetition) : state.afterOperand = false →
      Refuses state position (.repetition repetition)
        (.missingOperand repetition.sign position)

theorem Holds.refuses {token : Token} {failure : Failure}
    (holds : Holds word state)
    (refused : state.step (token, position) = .error failure) :
    Refuses state position token failure.error := by
  cases token with
  | literal character =>
      rcases holds.exists_pushOperand (.literal character) position with
        ⟨next, pushed, -⟩
      cases pushed.symm.trans refused
  | oneOf members =>
      rcases holds.exists_pushOperand (.oneOf members) position with
        ⟨next, pushed, -⟩
      cases pushed.symm.trans refused
  | openGroup =>
      rcases holds.exists_beforeOperand position with ⟨ready, before⟩
      change state.openGroup position = _ at refused
      rw [State.openGroup, before] at refused
      cases refused
  | closeGroup =>
      change state.closeGroup position = _ at refused
      cases after : state.afterOperand with
      | true =>
          rcases holds.complete_cases after with
            ⟨-, ⟨tree, finished⟩, unmatched⟩ | ⟨-, -, -, -, closes⟩
          · rcases unmatched position with ⟨operands, same⟩
            cases same.symm.trans refused
            exact .unmatched after finished
          · rcases closes position with ⟨next, closed, -⟩
            cases closed.symm.trans refused
      | false =>
          rw [State.closeGroup, after, if_neg Bool.false_ne_true] at refused
          split at refused
          · next top =>
              cases refused
              exact .first after top
          · next top =>
              cases refused
              exact .empty after top
          · next top =>
              cases refused
              exact .operator after top
  | binary operator =>
      change state.pushOperator operator position = _ at refused
      cases after : state.afterOperand with
      | true =>
          rcases holds.exists_pushOperator after operator position with
            ⟨next, pushed, -⟩
          cases pushed.symm.trans refused
      | false =>
          rw [State.pushOperator, after, if_neg Bool.false_ne_true] at refused
          cases refused
          exact .binary operator after
  | repetition repetition =>
      cases holds with
      | awaiting =>
          cases refused
          exact .repetition repetition rfl
      | complete => cases refused

/-- After an operand only a closing parenthesis may be refused. -/
theorem Refuses.cases_afterOperand {token : Token} {error : SyntaxError}
    (refuses : Refuses state position token error) :
    state.afterOperand = true ∧ error = .unmatchedClosing position ∨
      state.afterOperand = false ∧ error.IsTokenFault := by
  cases refuses with
  | unmatched after => exact .inl ⟨after, rfl⟩
  | first waiting => exact .inr ⟨waiting, trivial⟩
  | empty waiting => exact .inr ⟨waiting, trivial⟩
  | operator waiting => exact .inr ⟨waiting, trivial⟩
  | binary _ waiting => exact .inr ⟨waiting, trivial⟩
  | repetition _ waiting => exact .inr ⟨waiting, trivial⟩

/-- While an operand is expected, no closing parentheses make a pattern. -/
theorem readOn_closing_ne_ok (waiting : state.afterOperand = false)
    (position count : Nat) (tree : Regex) :
    readOn position (List.replicate count ')') state ≠ .ok tree := by
  intro read
  cases count with
  | zero =>
      rw [afterOperand_of_finish read] at waiting
      cases waiting
  | succ count =>
      rw [List.replicate_succ, readOn_cons _ _ _ (by decide)] at read
      rcases exists_of_bind_eq_ok read with ⟨next, closed, -⟩
      cases startsOperand_of_step closed waiting

theorem Reads.isRead_withGroupsClosed_iff (reads : Reads word state) :
    IsRead (withGroupsClosed word) ↔ state.afterOperand = true := by
  rw [isRead_iff, withGroupsClosed, reads.parse_append, reads.openGroups_eq]
  constructor
  · rintro ⟨tree, read⟩
    by_contra waiting
    exact readOn_closing_ne_ok (Bool.eq_false_of_not_eq_true waiting) _ _ _
      read
  · intro after
    exact reads.holds.exists_readOn_closing after _

/-! ## Patterns that reading gets stuck in -/

theorem GetsStuck.isRefused (stuck : GetsStuck pattern error) :
    IsRefused pattern error :=
  isRefused_iff.2 stuck.exists_parse_eq

theorem GetsStuck.isHopeless (stuck : GetsStuck pattern error) :
    IsHopeless pattern error :=
  fun rest => (stuck.append rest).isRefused

/-- Where no operand precedes the character that is refused, closing the groups
before the last character does not help. -/
theorem Reads.not_isRead_dropLast {front rest : List Char} {character : Char}
    {failure : Failure} (reads : Reads front state) (plain : character ≠ '[')
    (refused : state.step (Token.ofChar character, front.length) =
      .error failure) (waiting : state.afterOperand = false) :
    ¬IsRead (withGroupsClosed (front ++ character :: rest).dropLast) := by
  cases rest with
  | nil =>
      rw [List.dropLast_concat, reads.isRead_withGroupsClosed_iff, waiting]
      exact Bool.false_ne_true
  | cons head tail =>
      -- the character is refused before the last one is reached
      have earlier : (front ++ character :: head :: tail).dropLast =
          front ++ character :: (head :: tail).dropLast :=
        List.dropLast_append_cons
      have stuck : GetsStuck
          (front ++ character :: (head :: tail).dropLast) failure.error :=
        .character reads plain refused
      rw [earlier, withGroupsClosed]
      intro read
      exact read.not_isRefused (stuck.append _).isRefused

/-- What reading gets stuck for is not missing at the end. -/
theorem GetsStuck.not_isAtEnd (stuck : GetsStuck pattern error) :
    ¬error.IsAtEnd pattern := by
  cases stuck with
  | @bracket front rest state error reads fault refused =>
      cases error <;> first | exact fault.elim | exact id
  | @character front rest character state failure reads plain refused =>
      rcases (reads.holds.refuses refused).cases_afterOperand with
        ⟨-, same⟩ | ⟨waiting, fault⟩
      · rw [same]
        exact id
      · cases same : failure.error with
        | missingOperand operator place =>
            rintro ⟨-, -, read⟩
            exact reads.not_isRead_dropLast plain refused waiting read
        | _ =>
            rw [same] at fault
            first | exact fault.elim | exact id

/-! ## Patterns that are read to their ends -/

/-- A pattern that is read to its end is refused because it is empty, because a
group is open, or because its last character is an operator. -/
theorem Reads.finish_cases (reads : Reads word state) {failure : Failure}
    (refused : state.finish = .error failure) :
    failure.error = .emptyPattern ∧ word = [] ∨
      (∃ opening others, failure.error = .unmatchedOpening opening ∧
        openings state.operators = opening :: others) ∨
      ∃ (operator : BinaryOperator) (front : List Char) (before : State),
        failure.error = .missingOperand operator.sign front.length ∧
          word = front ++ [operator.sign] ∧ Reads front before ∧
          before.afterOperand = true := by
  cases after : state.afterOperand with
  | true =>
      rcases reads.holds.complete_cases after with
        ⟨-, ⟨tree, finished⟩, -⟩ |
          ⟨opening, others, groups, ⟨operands, unmatched⟩, -⟩
      · cases finished.symm.trans refused
      · cases unmatched.symm.trans refused
        exact .inr (.inl ⟨opening, others, rfl, groups⟩)
  | false =>
      rw [State.finish, after, if_neg Bool.false_ne_true] at refused
      split at refused
      · next empty =>
          cases refused
          exact .inl ⟨rfl, reads.eq_nil_of_waiting after empty⟩
      · next opening others top =>
          cases refused
          have groups : openings state.operators =
              opening :: openings others := by
            rw [top, openings_group]
          exact .inr (.inl ⟨opening, _, rfl, groups⟩)
      · next operator position others top =>
          cases refused
          rcases reads.exists_before_top after top with
            ⟨front, before, whole, rfl, frontReads, impossible | complete⟩
          · cases impossible
          · exact .inr (.inr ⟨operator, front, before, rfl, whole,
              frontReads, complete⟩)

/-- What a pattern is refused for that is read to its end is missing there. -/
theorem Reads.isAtEnd (reads : Reads pattern state) {failure : Failure}
    (refused : state.finish = .error failure) :
    failure.error.IsAtEnd pattern := by
  rcases reads.finish_cases refused with
    ⟨same, -⟩ | ⟨opening, others, same, -⟩ |
      ⟨operator, front, before, same, rfl, frontReads, complete⟩
  · rw [same]
    trivial
  · rw [same]
    trivial
  · have sign : operator.sign = '|' ∨ operator.sign = '&' := by
      cases operator
      · exact .inl rfl
      · exact .inr rfl
    rw [same]
    refine ⟨sign, by simp, ?_⟩
    rw [List.dropLast_concat]
    exact frontReads.isRead_withGroupsClosed_iff.2 complete

theorem Reads.isCompletable (reads : Reads word state) :
    IsCompletable word := by
  rcases reads.exists_completion with ⟨rest, tree, read⟩
  exact ⟨rest, isRead_iff.2 ⟨tree, read⟩⟩

/-- A pattern that ends within a bracket expression is completed by ending the
expression first. -/
theorem EndsInBracket.isCompletable (ends : EndsInBracket pattern) :
    IsCompletable pattern := by
  rcases ends with ⟨front, cut, state, rfl, reads, refused⟩
  rcases Bracket.exists_isBody refused with ⟨members, isBody, same⟩
  rcases reads.holds.exists_pushOperand (.oneOf members) front.length with
    ⟨next, pushed, -⟩
  rcases (reads.bracket isBody same pushed).isCompletable with ⟨rest, read⟩
  refine ⟨Bracket.lastCharacter :: ']' :: rest, ?_⟩
  simpa using read

end Parser

/-- A pattern that is refused either can be completed or is refused for the
same reason whatever follows, and the reason tells which. -/
theorem refused_completable_or_hopeless (pattern : List Char)
    (supply : IdSupply) (error : SyntaxError)
    (refused : (Nfa.ofPattern pattern supply).1 = .error error) :
    Xor (IsCompletable pattern) (IsHopeless pattern error) ∧
      (IsCompletable pattern ↔ error.IsAtEnd pattern) := by
  have exclusive : IsCompletable pattern → ¬IsHopeless pattern error :=
    IsCompletable.not_isHopeless
  have atEnd (completable : IsCompletable pattern)
      (isAtEnd : error.IsAtEnd pattern) :
      Xor (IsCompletable pattern) (IsHopeless pattern error) ∧
        (IsCompletable pattern ↔ error.IsAtEnd pattern) :=
    ⟨.inl ⟨completable, exclusive completable⟩,
      iff_of_true completable isAtEnd⟩
  rcases Parser.Reads.start.cases_append pattern with
    ⟨state, reads⟩ | ends | ⟨other, stuck⟩
  · apply atEnd reads.isCompletable
    rcases Nfa.ofPattern_eq_error_iff.1 refused with ⟨operands, same⟩
    exact reads.isAtEnd (reads.parse_eq.symm.trans same)
  · apply atEnd ends.isCompletable
    rcases ends.exists_parse_eq with ⟨opening, operands, same⟩
    cases (Nfa.ofPattern_eq_error_iff.2 ⟨operands, same⟩).symm.trans refused
    trivial
  · cases (stuck.isRefused supply).symm.trans refused
    have hopeless := stuck.isHopeless
    have unfinished : ¬IsCompletable pattern :=
      fun completable => exclusive completable hopeless
    exact ⟨.inr ⟨hopeless, unfinished⟩,
      iff_of_false unfinished stuck.not_isAtEnd⟩

/-- An operand can follow one operator, but not two of them. -/
theorem refused_completable_or_hopeless_operators :
    IsRefused ['(', 'a', '|'] (.missingOperand '|' 2) ∧
      IsCompletable ['(', 'a', '|'] ∧
      IsRefused ['(', 'a', '|', '|'] (.missingOperand '|' 3) ∧
      IsHopeless ['(', 'a', '|', '|'] (.missingOperand '|' 3) := by
  have once : IsRefused ['(', 'a', '|'] (.missingOperand '|' 2) :=
    isRefused_iff.2 ⟨[.literal 'a'], by decide⟩
  have twice : IsRefused ['(', 'a', '|', '|'] (.missingOperand '|' 3) :=
    isRefused_iff.2 ⟨[.literal 'a'], by decide⟩
  have front : IsRead (withGroupsClosed ['(', 'a']) :=
    isRead_iff.2 ⟨.literal 'a', by decide⟩
  have closed : IsRefused (withGroupsClosed ['(', 'a', '|'])
      (.missingOperand '|' 2) :=
    isRefused_iff.2 ⟨[.literal 'a'], by decide⟩
  rcases refused_completable_or_hopeless _ .fresh _ (once .fresh) with
    ⟨-, onceAtEnd⟩
  rcases refused_completable_or_hopeless _ .fresh _ (twice .fresh) with
    ⟨⟨completable, -⟩ | ⟨hopeless, -⟩, twiceAtEnd⟩
  · rcases twiceAtEnd.1 completable with ⟨-, -, read⟩
    exact absurd closed read.not_isRefused
  · exact ⟨once, onceAtEnd.2 ⟨.inl rfl, rfl, front⟩, twice, hopeless⟩

end PatternAutomata
