import PatternAutomata.Proofs.Pattern.Grammar

/-!
# What is written outside bracket expressions

A bracket expression ends at the first closing bracket, so its body can be
crossed out without reading it.  What remains of a pattern are the characters
that are tokens by themselves, and an opening bracket for every bracket
expression.  Phrases end outside bracket expressions, so what remains of a
phrase does not depend on what follows it.
-/

namespace PatternAutomata.Pattern

/-- The characters outside bracket expressions, and the opening brackets.  It
is given whether the pattern goes on inside a bracket expression. -/
def outlineFrom : Bool → List Char → List Char
  | _, [] => []
  | false, character :: rest =>
      character :: outlineFrom (decide (character = '[')) rest
  | true, character :: rest =>
      outlineFrom (decide (character ≠ ']')) rest

/-- A pattern without the bodies and the ends of its bracket expressions. -/
def outline (pattern : List Char) : List Char := outlineFrom false pattern

/-- How many literals, bracket expressions, alternations and repetitions a
pattern has. -/
def unitCount (pattern : List Char) : Nat :=
  (outline pattern).countP (fun character => character ∉ special) +
    (outline pattern).count '[' + (outline pattern).count '|' +
      (outline pattern).countP (fun character => character ∈ ['*', '+', '?'])

/-! ## Where bracket expressions end -/

theorem outlineFrom_body {body : List Char} (unclosed : ']' ∉ body)
    (rest : List Char) :
    outlineFrom true (body ++ ']' :: rest) = outline rest := by
  induction body with
  | nil => rfl
  | cons character body passes =>
      rw [List.mem_cons, not_or] at unclosed
      rw [List.cons_append, outlineFrom, decide_eq_true (Ne.symm unclosed.1)]
      exact passes unclosed.2

/-- What follows the characters is not in a bracket expression of theirs. -/
def EndsOutside (word : List Char) : Prop :=
  ∀ rest, outline (word ++ rest) = outline word ++ outline rest

namespace EndsOutside

theorem singleton {character : Char} (plain : character ≠ '[') :
    EndsOutside [character] := by
  intro rest
  rw [List.singleton_append, outline, outline, outlineFrom, outlineFrom,
    decide_eq_false plain]
  rfl

theorem append {left right : List Char} (leftEnds : EndsOutside left)
    (rightEnds : EndsOutside right) : EndsOutside (left ++ right) := by
  intro rest
  rw [List.append_assoc, leftEnds, rightEnds, leftEnds, List.append_assoc]

theorem bracket {body : List Char} (unclosed : ']' ∉ body) :
    EndsOutside ('[' :: (body ++ [']'])) := by
  have closes := outlineFrom_body unclosed
  intro rest
  change '[' :: outlineFrom true (body ++ [']'] ++ rest) =
    '[' :: (outlineFrom true (body ++ [']']) ++ outline rest)
  rw [List.append_assoc, List.singleton_append, closes, closes]
  rfl

theorem sign (repetition : Repetition) : EndsOutside [repetition.sign] :=
  singleton (by cases repetition <;> decide)

theorem of_derives {phrase : Phrase} {word : List Char} {tree : Regex}
    (derived : Derives phrase word tree) : EndsOutside word := by
  have alternates : EndsOutside ['|'] := singleton (by decide)
  have joins : EndsOutside ['&'] := singleton (by decide)
  have opens : EndsOutside ['('] := singleton (by decide)
  have closes : EndsOutside [')'] := singleton (by decide)
  induction derived with
  | term _ ends => exact ends
  | alternation _ _ leftEnds rightEnds =>
      exact leftEnds.append (alternates.append rightEnds)
  | factor _ ends => exact ends
  | juxtaposition _ _ leftEnds rightEnds => exact leftEnds.append rightEnds
  | concatenation _ _ leftEnds rightEnds =>
      exact leftEnds.append (joins.append rightEnds)
  | atom _ ends => exact ends
  | repeated repetition _ ends => exact ends.append (sign repetition)
  | literal ordinary =>
      refine singleton ?_
      rintro rfl
      exact ordinary (by decide)
  | oneOf isBody _ => exact bracket isBody.unclosed
  | group _ ends => exact opens.append (ends.append closes)

theorem unitCount_append {word : List Char} (ends : EndsOutside word)
    (rest : List Char) :
    unitCount (word ++ rest) = unitCount word + unitCount rest := by
  simp only [unitCount, ends rest, List.countP_append, List.count_append]
  omega

theorem unitCount_append_cons {word : List Char} (ends : EndsOutside word)
    {character : Char} (plain : character ≠ '[') (rest : List Char) :
    unitCount (word ++ character :: rest) =
      unitCount word + unitCount [character] + unitCount rest := by
  rw [ends.unitCount_append, ← List.singleton_append,
    (singleton plain).unitCount_append, Nat.add_assoc]

end EndsOutside

/-! ## Counting units -/

theorem unitCount_literal {character : Char}
    (ordinary : character ∉ special) : unitCount [character] = 1 := by
  simp only [special, List.mem_cons, List.not_mem_nil, or_false, not_or]
    at ordinary
  simp [unitCount, outline, outlineFrom, special, ordinary]

theorem unitCount_bracket {body : List Char} (unclosed : ']' ∉ body) :
    unitCount ('[' :: (body ++ [']'])) = 1 := by
  have whole : outline ('[' :: (body ++ [']'])) = ['['] :=
    congrArg _ (outlineFrom_body unclosed [])
  rw [unitCount, whole]
  rfl

theorem unitCount_sign (repetition : Repetition) :
    unitCount [repetition.sign] = 1 := by
  cases repetition <;> rfl

/-- The states of the automaton of an expression are counted on its pattern. -/
theorem stateCount_of_derives {phrase : Phrase} {word : List Char}
    {tree : Regex} (derived : Derives phrase word tree) :
    tree.stateCount = 2 * unitCount word := by
  induction derived with
  | term _ counted => exact counted
  | alternation leftDerived _ leftCounted rightCounted =>
      have sign : unitCount ['|'] = 1 := rfl
      rw [Regex.stateCount, leftCounted, rightCounted,
        (EndsOutside.of_derives leftDerived).unitCount_append_cons
          (by decide), sign]
      omega
  | factor _ counted => exact counted
  | juxtaposition leftDerived _ leftCounted rightCounted =>
      rw [Regex.stateCount, leftCounted, rightCounted,
        (EndsOutside.of_derives leftDerived).unitCount_append, Nat.mul_add]
  | concatenation leftDerived _ leftCounted rightCounted =>
      have sign : unitCount ['&'] = 0 := rfl
      rw [Regex.stateCount, leftCounted, rightCounted,
        (EndsOutside.of_derives leftDerived).unitCount_append_cons
          (by decide), sign, Nat.add_zero, Nat.mul_add]
  | atom _ counted => exact counted
  | repeated repetition bodyDerived counted =>
      rw [Regex.stateCount, counted,
        (EndsOutside.of_derives bodyDerived).unitCount_append,
        unitCount_sign, Nat.mul_add]
  | literal ordinary => rw [unitCount_literal ordinary, Regex.stateCount]
  | oneOf isBody _ =>
      rw [unitCount_bracket isBody.unclosed, Regex.stateCount]
  | group bodyDerived counted =>
      have opening : unitCount ['('] = 0 := rfl
      have closing : unitCount [')'] = 0 := rfl
      have opens : EndsOutside ['('] := .singleton (by decide)
      rw [← List.singleton_append, opens.unitCount_append,
        (EndsOutside.of_derives bodyDerived).unitCount_append, opening,
        closing, Nat.zero_add, Nat.add_zero, counted]

end PatternAutomata.Pattern
