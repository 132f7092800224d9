import PatternAutomata.Proofs.Compile
import PatternAutomata.Proofs.Nfa.Constructor
import PatternAutomata.Proofs.Nfa.Parsed
import PatternAutomata.Proofs.Pattern.Spelling

/-!
# Patterns and the limit of numbers

The next number of a supply does not exceed a limit, such as the greatest
number of a machine word.  The automaton of a pattern needs two numbers for each
of its units.  If so many are left, the grammar alone decides whether there is
an automaton, and the automaton has its shape; if not, there is none.  Spellings
of one pattern need the same numbers, so whatever is left, they come to the
same.
-/

namespace PatternAutomata.Constructor

open Pattern

variable {limit : StateId} {pattern : List Char} {supply : IdSupply}
  {nfa : Nfa}

/-! ## Patterns that are constructed -/

/-- The numbers of a pattern that the grammar derives follow from its units. -/
theorem next_ofPattern_of_derives {tree : Regex}
    (derived : Derives .expression pattern tree) :
    (Nfa.ofPattern pattern supply).2.next =
      supply.next + 2 * unitCount pattern := by
  rw [Nfa.ofPattern, Parser.parse_eq_ok_iff.2 derived,
    ← stateCount_of_derives derived]
  exact tree.assemble_next (.start supply)

theorem mapError_eq_ok_iff {ε φ α : Type} {first : Except ε α}
    {wrap : ε → φ} {value : α} :
    first.mapError wrap = .ok value ↔ first = .ok value := by
  cases first <;> simp [Except.mapError]

/-- The construction succeeds if reading does and the numbers suffice. -/
theorem build_eq_ok_iff (within : supply.next ≤ limit) :
    (build limit pattern supply).1 = .ok nfa ↔
      (Nfa.ofPattern pattern supply).1 = .ok nfa ∧
        supply.next + 2 * unitCount pattern ≤ limit := by
  have next (read : (Nfa.ofPattern pattern supply).1 = .ok nfa) :
      (Nfa.ofPattern pattern supply).2.next =
        supply.next + 2 * unitCount pattern := by
    rcases Nfa.ofPattern_eq_ok_iff.1 read with ⟨tree, derived, -⟩
    exact next_ofPattern_of_derives derived
  rw [build_eq_ofPattern pattern within]
  constructor
  · intro built
    by_cases room : (Nfa.ofPattern pattern supply).2.next ≤ limit
    · rw [if_pos room] at built
      have read := mapError_eq_ok_iff.1 built
      exact ⟨read, (next read).ge.trans room⟩
    · rw [if_neg room] at built
      cases built
  · rintro ⟨read, room⟩
    rw [if_pos ((next read).trans_le room)]
    exact mapError_eq_ok_iff.2 read

/-- The construction succeeds on the patterns that are derived from the grammar
and have no more units than there are numbers for. -/
theorem build_succeeds_iff_derives (limit : StateId) (pattern : List Char)
    (supply : IdSupply) (within : supply.next ≤ limit) :
    (∃ nfa, (build limit pattern supply).1 = .ok nfa) ↔
      (∃ tree, Derives .expression pattern tree) ∧
        supply.next + 2 * unitCount pattern ≤ limit := by
  simp only [build_eq_ok_iff within, exists_and_right]
  rw [Nfa.ofPattern_succeeds_iff_derives]

theorem derives_star : Derives .expression ['a', '*']
    (.repeated .zeroOrMore (.literal 'a')) :=
  Parser.parse_eq_ok_iff.1 (by decide)

/-- The pattern `a*` takes the last four numbers below the limit. -/
theorem build_succeeds_iff_derives_last :
    (IdSupply.startingAt (IdSupply.wordLimit - 4)).next ≤
        IdSupply.wordLimit ∧
      ∃ nfa, (build IdSupply.wordLimit ['a', '*']
        (.startingAt (IdSupply.wordLimit - 4))).1 = .ok nfa := by
  have within : (IdSupply.startingAt (IdSupply.wordLimit - 4)).next ≤
      IdSupply.wordLimit := by
    decide
  have enough : IdSupply.wordLimit - 4 + 2 * unitCount ['a', '*'] ≤
      IdSupply.wordLimit := by
    decide
  exact ⟨within, (build_succeeds_iff_derives _ _ _ within).2
    ⟨⟨_, derives_star⟩, enough⟩⟩

/-- When the next number is the greatest one of a word, the grammar does not
decide. -/
theorem not_build_succeeds_iff_derives_at_wordLimit :
    ¬((∃ nfa, (build IdSupply.wordLimit ['a', '*']
          (.startingAt IdSupply.wordLimit)).1 = .ok nfa) ↔
        ∃ tree, Derives .expression ['a', '*'] tree) := by
  intro decides
  have stopped : (build IdSupply.wordLimit ['a', '*']
      (.startingAt IdSupply.wordLimit)).1 = .error .exhausted := by
    decide
  rcases decides.2 ⟨_, derives_star⟩ with ⟨nfa, built⟩
  cases stopped.symm.trans built

/-! ## Their automata -/

/-- The automaton that is constructed has two states for everything in the
pattern that is no group and no concatenation, all of them on paths through it,
and their numbers are below the limit. -/
theorem hasThompsonShape_build (within : supply.next ≤ limit)
    (built : (build limit pattern supply).1 = .ok nfa) :
    nfa.HasThompsonShape supply.next (2 * unitCount pattern) ∧
      supply.next + 2 * unitCount pattern ≤ limit := by
  rcases (build_eq_ok_iff within).1 built with ⟨read, enough⟩
  exact ⟨Nfa.hasThompsonShape_ofPattern read, enough⟩

/-- Groups, ranges and special characters in brackets are not counted.  No
number below the limit is left. -/
theorem hasThompsonShape_build_mixed :
    ∃ nfa, (build IdSupply.wordLimit "(a|[x-z*]+)&b?c*".toList
        (.startingAt (IdSupply.wordLimit - 16))).1 = .ok nfa ∧
      nfa.HasThompsonShape (IdSupply.wordLimit - 16) 16 ∧
      IdSupply.wordLimit - 16 + 16 ≤ IdSupply.wordLimit := by
  have within : (IdSupply.startingAt (IdSupply.wordLimit - 16)).next ≤
      IdSupply.wordLimit := by
    decide
  have built : ∃ nfa, (build IdSupply.wordLimit "(a|[x-z*]+)&b?c*".toList
      (.startingAt (IdSupply.wordLimit - 16))).1 = .ok nfa :=
    ⟨_, rfl⟩
  rcases built with ⟨nfa, built⟩
  exact ⟨nfa, built, hasThompsonShape_build within built⟩

/-! ## Their spellings -/

/-- Nothing but the expression that a pattern writes matters for the
construction. -/
theorem build_eq_of_parse_eq {other : List Char} (within : supply.next ≤ limit)
    (same : Parser.parse other = Parser.parse pattern) :
    build limit other supply = build limit pattern supply := by
  rw [build_eq_ofPattern other within, build_eq_ofPattern pattern within,
    Nfa.ofPattern, Nfa.ofPattern, same]

/-- Parentheses around a pattern that the grammar derives do not change what
the construction comes to: the automaton with the numbers of its states, or the
end of the numbers, and the number that comes next.  Neither does a
concatenation that is written where operands meet; nowhere else outside bracket
expressions can one be written. -/
theorem build_eq_of_spelling (limit : StateId) (pattern : List Char)
    (supply : IdSupply) (within : supply.next ≤ limit)
    (derived : ∃ tree, Derives .expression pattern tree) :
    build limit ('(' :: (pattern ++ [')'])) supply =
        build limit pattern supply ∧
      ∀ left right, pattern = left ++ right → EndsOutside left →
        ((∃ tree, Derives .expression (left ++ '&' :: right) tree) ↔
          OperandsMeet left right) ∧
        (OperandsMeet left right →
          build limit (left ++ '&' :: right) supply =
            build limit pattern supply) := by
  rcases derived with ⟨tree, derived⟩
  have parsed := Parser.parse_eq_ok_iff.2 derived
  constructor
  · apply build_eq_of_parse_eq within
    rw [Parser.parse_group parsed, parsed]
  · rintro left right rfl outside
    simp only [← Parser.parse_eq_ok_iff]
    refine ⟨Parser.exists_parse_insert_iff parsed outside, fun meet => ?_⟩
    apply build_eq_of_parse_eq within
    rw [Parser.parse_insert_concatenation meet parsed, parsed]

/-- A repetition ends an operand, and a bracket expression starts one. -/
theorem build_eq_of_spelling_repeated :
    (∃ tree, Derives .expression ['a', '|', 'b', '*', '[', ')', ']', 'c']
        tree) ∧
      (IdSupply.startingAt 7).next ≤ IdSupply.wordLimit ∧
      build IdSupply.wordLimit
          ['(', 'a', '|', 'b', '*', '[', ')', ']', 'c', ')']
          (.startingAt 7) =
        build IdSupply.wordLimit ['a', '|', 'b', '*', '[', ')', ']', 'c']
          (.startingAt 7) ∧
      build IdSupply.wordLimit ['a', '|', 'b', '*', '&', '[', ')', ']', 'c']
          (.startingAt 7) =
        build IdSupply.wordLimit ['a', '|', 'b', '*', '[', ')', ']', 'c']
          (.startingAt 7) := by
  have derived : ∃ tree, Derives .expression
      ['a', '|', 'b', '*', '[', ')', ']', 'c'] tree :=
    ⟨.alternation (.literal 'a') (.concatenation (.concatenation
      (.repeated .zeroOrMore (.literal 'b')) (.oneOf (.ofList [')'])))
      (.literal 'c')), Parser.parse_eq_ok_iff.1 (by decide +kernel)⟩
  have within : (IdSupply.startingAt 7).next ≤ IdSupply.wordLimit := by
    decide
  have outside : EndsOutside ['a', '|', 'b', '*'] := fun _ => rfl
  have meet : OperandsMeet ['a', '|', 'b', '*'] ['[', ')', ']', 'c'] :=
    ⟨outside, ⟨'*', rfl, by decide⟩, '[', rfl, by decide⟩
  rcases build_eq_of_spelling _ _ _ within derived with ⟨grouped, inserted⟩
  exact ⟨derived, within, grouped, (inserted _ _ rfl outside).2 meet⟩

end PatternAutomata.Constructor
