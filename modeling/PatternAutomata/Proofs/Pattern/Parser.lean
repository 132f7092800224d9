import Mathlib.Tactic.Tauto
import PatternAutomata.Proofs.Pattern.Bracket
import PatternAutomata.Proofs.Pattern.Denotation
import PatternAutomata.Proofs.Pattern.Reduction

/-!
# Patterns that can be read

The reader accepts the patterns that the grammar derives, and it gives their
syntax trees.  In one direction, every token that is read extends the beginning
of a pattern that the stacks hold.  In the other direction, reading a phrase
leaves its tree on top of what the stacks held before, with operators that the
end of the phrase reduces.
-/

namespace PatternAutomata.Parser

open Pattern

theorem exists_of_bind_eq_ok {α β : Type} {first : Except Failure α}
    {next : α → Except Failure β} {result : β}
    (bound : first.bind next = .ok result) :
    ∃ value, first = .ok value ∧ next value = .ok result := by
  cases first with
  | error failure => exact nomatch bound
  | ok value => exact ⟨value, rfl, bound⟩

/-! ## What succeeds only after an operand -/

section AfterOperand

variable {state next : State} {position : Nat}

/-- An operator reduces the stacks and then waits on top of them. -/
theorem exists_of_pushOperator {operator : BinaryOperator}
    (pushed : state.pushOperator operator position = .ok next) :
    state.afterOperand = true ∧ ∃ reduced,
      reduceTighter operator.precedence state.operators state.operands =
        .ok reduced ∧
      next =
        ⟨(.operator operator, position) :: reduced.1, reduced.2, false⟩ := by
  rw [State.pushOperator] at pushed
  split at pushed
  · next after =>
      rcases exists_of_bind_eq_ok pushed with ⟨reduced, reduces, same⟩
      cases same
      exact ⟨after, reduced, reduces, rfl⟩
  · cases pushed

/-- The end of a group reduces the stacks and takes the group off. -/
theorem exists_of_closeGroup
    (closed : state.closeGroup position = .ok next) :
    state.afterOperand = true ∧ ∃ reduced,
      reduceGroup position state.operators state.operands = .ok reduced ∧
      next = ⟨reduced.1, reduced.2, true⟩ := by
  rw [State.closeGroup] at closed
  split at closed
  · next after =>
      rcases exists_of_bind_eq_ok closed with ⟨reduced, reduces, same⟩
      cases same
      exact ⟨after, reduced, reduces, rfl⟩
  · split at closed
    · cases closed
    · cases closed
    · cases closed

/-- A repetition replaces the topmost operand. -/
theorem exists_of_repeatOperand {repetition : Repetition}
    (repeated : state.repeatOperand repetition position = .ok next) :
    state.afterOperand = true ∧ ∃ body rest, state.operands = body :: rest ∧
      next =
        ⟨state.operators, .repeated repetition body :: rest, true⟩ := by
  rw [State.repeatOperand] at repeated
  split at repeated
  · next body rest after top =>
      cases repeated
      exact ⟨after, body, rest, top, by rw [after]⟩
  · cases repeated

theorem afterOperand_of_finish {tree : Regex}
    (finished : state.finish = .ok tree) : state.afterOperand = true := by
  by_contra waiting
  rw [State.finish, if_neg waiting] at finished
  split at finished
  · cases finished
  · cases finished
  · cases finished

end AfterOperand

/-! ## Tokens that extend a beginning -/

/-- The characters have been read, and the state holds a beginning of a
pattern that they write, with the operand completed last, if any, on top. -/
inductive Holds : List Char → State → Prop
  | awaiting {operators : Operators} {operands : Operands}
      {word : List Char} :
      Awaits operators operands word →
      Holds word ⟨operators, operands, false⟩
  | complete {operators : Operators} {operands : Operands}
      {word phrase : List Char} {tree : Regex} :
      Awaits operators operands word → Derives .factor phrase tree →
      Holds (word ++ phrase) ⟨operators, tree :: operands, true⟩

namespace Holds

variable {word : List Char} {state next : State} {position : Nat}

theorem pushOperator {operator : BinaryOperator} {sign : List Char}
    (holds : Holds word state) (written : operator.WrittenAs sign)
    (pushed : state.pushOperator operator position = .ok next) :
    next.afterOperand = false ∧
      Awaits next.operators next.operands (word ++ sign) := by
  cases holds with
  | awaiting awaits => exact nomatch pushed
  | complete awaits derived =>
      rcases awaits.reduces operator derived with
        ⟨reduced, rest, before, phrase, tree, reduces, remaining, loose,
          whole, split⟩
      simp only [State.pushOperator, reduces, if_true] at pushed
      cases pushed
      refine ⟨rfl, ?_⟩
      rw [split, List.append_assoc]
      exact .operator position remaining loose whole written

theorem beforeOperand (holds : Holds word state)
    (ready : state.beforeOperand position = .ok next) :
    next.afterOperand = false ∧
      Awaits next.operators next.operands word := by
  rw [State.beforeOperand] at ready
  split at ready
  · have pushed := holds.pushOperator (.inr ⟨rfl, rfl⟩) ready
    rw [List.append_nil] at pushed
    exact pushed
  · next waiting =>
      cases holds with
      | awaiting awaits =>
          cases ready
          exact ⟨rfl, awaits⟩
      | complete => exact absurd rfl waiting

theorem pushOperand {phrase : List Char} {tree : Regex}
    (holds : Holds word state) (derived : Derives .atom phrase tree)
    (pushed : state.pushOperand tree position = .ok next) :
    Holds (word ++ phrase) next := by
  rcases exists_of_bind_eq_ok pushed with ⟨before, ready, same⟩
  cases same
  exact .complete (holds.beforeOperand ready).2 (.atom derived)

theorem openGroup (holds : Holds word state)
    (opened : state.openGroup position = .ok next) :
    Holds (word ++ ['(']) next := by
  rcases exists_of_bind_eq_ok opened with ⟨before, ready, same⟩
  cases same
  exact .awaiting (.group position (holds.beforeOperand ready).2)

theorem closeGroup (holds : Holds word state)
    (closed : state.closeGroup position = .ok next) :
    Holds (word ++ [')']) next := by
  cases holds with
  | awaiting awaits => cases (exists_of_closeGroup closed).1
  | complete awaits derived =>
      rcases awaits.reduces .alternation derived with
        ⟨reduced, rest, before, phrase, tree, reduces, remaining, loose,
          whole, split⟩
      simp only [State.closeGroup, if_true,
        reduceGroup_eq position reduces] at closed
      cases remaining with
      | start => exact nomatch closed
      | @group operators operands word opening awaits =>
          cases closed
          have regrouped : word ++ ['('] ++ phrase ++ [')'] =
              word ++ ('(' :: (phrase ++ [')'])) := by simp
          rw [split, regrouped]
          exact .complete awaits (.atom (.group whole))
      | operator => exact absurd loose (not_isLoose_alternation _ _)

theorem repeatOperand {repetition : Repetition} (holds : Holds word state)
    (repeated : state.repeatOperand repetition position = .ok next) :
    Holds (word ++ [repetition.sign]) next := by
  cases holds with
  | awaiting awaits => exact nomatch repeated
  | complete awaits derived =>
      cases repeated
      rw [List.append_assoc]
      exact .complete awaits (.repeated repetition derived)

theorem binary {operator : BinaryOperator} (holds : Holds word state)
    (pushed : state.pushOperator operator position = .ok next) :
    Holds (word ++ [operator.sign]) next := by
  rcases holds.pushOperator (.inl rfl) pushed with ⟨waiting, awaits⟩
  rcases next with ⟨operators, operands, afterOperand⟩
  cases waiting
  exact .awaiting awaits

/-- One character outside bracket expressions extends what has been read. -/
theorem step {character : Char} (holds : Holds word state)
    (plain : character ≠ '[')
    (stepped : state.step (Token.ofChar character, position) = .ok next) :
    Holds (word ++ [character]) next := by
  unfold Token.ofChar at stepped
  split at stepped
  · exact holds.openGroup stepped
  · exact holds.closeGroup stepped
  · exact holds.binary stepped
  · exact holds.binary stepped
  · exact holds.repeatOperand stepped
  · exact holds.repeatOperand stepped
  · exact holds.repeatOperand stepped
  · apply holds.pushOperand (.literal _) stepped
    simp only [special, List.mem_cons, List.not_mem_nil]
    tauto

theorem finish {tree : Regex} (holds : Holds word state)
    (finished : state.finish = .ok tree) : Derives .expression word tree := by
  cases holds with
  | awaiting awaits => cases afterOperand_of_finish finished
  | complete awaits derived =>
      rcases awaits.reduces .alternation derived with
        ⟨reduced, rest, before, phrase, whole, reduces, remaining, loose,
          wholeDerived, split⟩
      simp only [State.finish, if_true, reduceAll_eq reduces] at finished
      cases remaining with
      | start =>
          cases finished
          rw [split]
          exact wholeDerived
      | group => exact nomatch finished
      | operator => exact absurd loose (not_isLoose_alternation _ _)

end Holds

/-! ## Reading the rest of a pattern -/

/-- Read the rest of a pattern from a position on. -/
def readOn (position : Nat) (rest : List Char) (state : State) :
    Except Failure Regex := do
  let tokens := Tokens.readFrom position 0 rest
  let reached ← tokens.placed.foldlM State.step state
  match tokens.fault with
  | some error => reached.fail error
  | none => reached.finish

theorem parse_eq (pattern : List Char) :
    parse pattern = readOn 0 pattern .initial :=
  rfl

section ReadOn

variable (position : Nat) (rest : List Char) (state : State)

theorem readOn_nil : readOn position [] state = state.finish := rfl

theorem readOn_cons {character : Char} (plain : character ≠ '[') :
    readOn position (character :: rest) state =
      (state.step (Token.ofChar character, position)).bind
        (readOn (position + 1) rest) := by
  rw [readOn, Tokens.readFrom, if_neg plain]
  simp only [Tokens.cons, List.foldlM_cons, bind_assoc]
  rfl

theorem readFrom_passing (passed : List Char) :
    Tokens.readFrom position passed.length (passed ++ rest) =
      Tokens.readFrom (position + passed.length) 0 rest := by
  induction passed generalizing position with
  | nil => rfl
  | cons character passed skips =>
      rw [List.length_cons, List.cons_append, Tokens.readFrom, skips,
        Nat.add_right_comm, Nat.add_assoc]

/-- A bracket expression is one token. -/
theorem readFrom_body {body : List Char} {members : CharacterClass}
    (isBody : Bracket.IsBody body)
    (same : ∀ character, character ∈ members ↔
      Bracket.Lists body character) :
    Tokens.readFrom position 0 ('[' :: (body ++ ']' :: rest)) =
      (Tokens.readFrom (position + 1 + (body.length + 1)) 0 rest).cons
        (.oneOf members) position := by
  have read : Bracket.read position (body ++ ']' :: rest) =
      .ok (members, position + 1 + body.length) :=
    Bracket.read_eq_ok_iff.2 ⟨body, rest, rfl, isBody, same, rfl⟩
  have passed : position + 1 + body.length - position =
      (body ++ [']']).length := by
    rw [List.length_append, List.length_singleton]
    omega
  have whole : body ++ ']' :: rest = (body ++ [']']) ++ rest := by simp
  rw [Tokens.readFrom, if_pos rfl, read]
  dsimp only
  rw [passed, whole, readFrom_passing, List.length_append,
    List.length_singleton]

theorem readOn_body {body : List Char} {members : CharacterClass}
    (isBody : Bracket.IsBody body)
    (same : ∀ character, character ∈ members ↔
      Bracket.Lists body character) :
    readOn position ('[' :: (body ++ ']' :: rest)) state =
      (state.step (.oneOf members, position)).bind
        (readOn (position + 1 + (body.length + 1)) rest) := by
  rw [readOn, readFrom_body position rest isBody same]
  simp only [Tokens.cons, List.foldlM_cons, bind_assoc]
  rfl

/-- What follows an opening bracket is a body and its closing bracket, if
anything can be read. -/
theorem exists_body_of_readOn {tree : Regex}
    (read : readOn position ('[' :: rest) state = .ok tree) :
    ∃ (body others : List Char) (members : CharacterClass),
      rest = body ++ ']' :: others ∧ Bracket.IsBody body ∧
      ∀ character, character ∈ members ↔ Bracket.Lists body character := by
  cases found : Bracket.read position rest with
  | error fault =>
      rw [readOn, Tokens.readFrom, if_pos rfl, found] at read
      exact nomatch read
  | ok result =>
      rcases result with ⟨members, closing⟩
      rcases Bracket.read_eq_ok_iff.1 found with
        ⟨body, others, split, isBody, same, -⟩
      exact ⟨body, others, members, split, isBody, same⟩

end ReadOn

/-- What is read to the end is derived from the grammar. -/
theorem derives_of_readOn {word rest : List Char} {state : State}
    {tree : Regex} {position : Nat} (holds : Holds word state)
    (read : readOn position rest state = .ok tree) :
    Derives .expression (word ++ rest) tree := by
  match rest with
  | [] =>
      rw [List.append_nil]
      exact holds.finish read
  | character :: others =>
      by_cases bracket : character = '['
      · subst bracket
        rcases exists_body_of_readOn _ _ _ read with
          ⟨body, others, members, rfl, isBody, same⟩
        rw [readOn_body _ _ _ isBody same] at read
        rcases exists_of_bind_eq_ok read with ⟨next, stepped, read⟩
        have extended :=
          derives_of_readOn (holds.pushOperand (.oneOf isBody same) stepped)
            read
        simpa using extended
      · rw [readOn_cons _ _ _ bracket] at read
        rcases exists_of_bind_eq_ok read with ⟨next, stepped, read⟩
        have extended := derives_of_readOn (holds.step bracket stepped) read
        simpa using extended
termination_by rest.length

/-! ## Reading phrases -/

/-- Reading the characters where an operand is expected puts the tree on the
operand stack. -/
def ReadsOperand (word : List Char) (tree : Regex) : Prop :=
  ∀ position operators operands rest,
    readOn position (word ++ rest) ⟨operators, operands, false⟩ =
      readOn (position + word.length) rest
        ⟨operators, tree :: operands, true⟩

/-- Reading the characters where an operand is expected comes to a state which
a new operator reduces to the stacks as they were, with the tree on top. -/
def ReadsBefore (operator : BinaryOperator) (word : List Char)
    (tree : Regex) : Prop :=
  ∀ position operators operands, IsLoose operator.precedence operators →
    ∃ reached : State, reached.afterOperand = true ∧
      reduceTighter operator.precedence reached.operators reached.operands =
        .ok (operators, tree :: operands) ∧
      ∀ rest, readOn position (word ++ rest) ⟨operators, operands, false⟩ =
        readOn (position + word.length) rest reached

/-- Reading the characters after an operator comes to a state which the same
operator reduces to the stacks as they were before, with the joined tree on
top. -/
def ReadsAfter (operator : BinaryOperator) (word : List Char)
    (tree : Regex) : Prop :=
  ∀ position sign operators operands left,
    IsLoose operator.precedence operators →
    ∃ reached : State, reached.afterOperand = true ∧
      reduceTighter operator.precedence reached.operators reached.operands =
        .ok (operators, Regex.join operator left tree :: operands) ∧
      ∀ rest,
        readOn position (word ++ rest)
            ⟨(.operator operator, sign) :: operators, left :: operands,
              false⟩ =
          readOn (position + word.length) rest reached

/-- The characters start an operand, before which a concatenation need not be
written. -/
def StartsOperand (word : List Char) : Prop :=
  ∀ position rest, ∃ next, ∀ state : State,
    readOn position (word ++ rest) state =
      (state.beforeOperand position).bind next

/-- After an operand, the sign and what follows it are read as an operator. -/
def Joins (operator : BinaryOperator) (sign right : List Char) : Prop :=
  ∀ position rest, ∀ state : State, state.afterOperand = true →
    readOn position (sign ++ (right ++ rest)) state =
      (state.pushOperator operator position).bind
        (readOn (position + sign.length) (right ++ rest))

variable {word left right : List Char} {tree leftTree rightTree : Regex}

theorem ReadsOperand.before (reads : ReadsOperand word tree) :
    ReadsBefore .concatenation word tree := by
  intro position operators operands loose
  exact ⟨⟨operators, tree :: operands, true⟩, rfl,
    reduceTighter_of_isLoose loose _, reads position operators operands⟩

theorem ReadsOperand.after (reads : ReadsOperand word tree) :
    ReadsAfter .concatenation word tree := by
  intro position sign operators operands left loose
  refine ⟨_, rfl, ?_, reads position _ _⟩
  rw [reduceTighter_operator (Nat.le_refl _), reduceTighter_of_isLoose loose]

theorem ReadsBefore.alternation
    (reads : ReadsBefore .concatenation word tree) :
    ReadsBefore .alternation word tree := by
  intro position operators operands loose
  have looser : IsLoose BinaryOperator.concatenation.precedence operators := by
    match operators with
    | [] => trivial
    | (.group, _) :: _ => trivial
    | (.operator operator, _) :: _ =>
        exact absurd loose (not_isLoose_alternation _ _)
  rcases reads position operators operands looser with
    ⟨reached, after, reduces, read⟩
  refine ⟨reached, after, ?_, read⟩
  rw [reduceTighter_eq (by decide) reduces]
  exact reduceTighter_of_isLoose loose _

theorem ReadsBefore.after (reads : ReadsBefore .concatenation word tree) :
    ReadsAfter .alternation word tree := by
  intro position sign operators operands left loose
  have tighter : IsLoose BinaryOperator.concatenation.precedence
      ((.operator .alternation, sign) :: operators) := show 1 < 2 by decide
  rcases reads position _ (left :: operands) tighter with
    ⟨reached, after, reduces, read⟩
  refine ⟨reached, after, ?_, read⟩
  rw [reduceTighter_eq (by decide) reduces,
    reduceTighter_operator (Nat.le_refl _), reduceTighter_of_isLoose loose]

theorem pushOperator_of_reduces {operator : BinaryOperator} {state : State}
    {operators : Operators} {operands : Operands} (position : Nat)
    (after : state.afterOperand = true)
    (reduces : reduceTighter operator.precedence state.operators
      state.operands = .ok (operators, operands)) :
    state.pushOperator operator position =
      .ok ⟨(.operator operator, position) :: operators, operands, false⟩ := by
  rw [State.pushOperator, if_pos after, reduces]
  rfl

theorem ofChar_sign (operator : BinaryOperator) :
    Token.ofChar operator.sign = .binary operator := by
  cases operator <;> rfl

theorem ofChar_repetition (repetition : Repetition) :
    Token.ofChar repetition.sign = .repetition repetition := by
  cases repetition <;> rfl

theorem joins_sign (operator : BinaryOperator) (right : List Char) :
    Joins operator [operator.sign] right := by
  intro position rest state after
  have plain : operator.sign ≠ '[' := by cases operator <;> decide
  rw [List.singleton_append, readOn_cons _ _ _ plain, ofChar_sign]
  rfl

theorem StartsOperand.append (starts : StartsOperand left)
    (right : List Char) : StartsOperand (left ++ right) := by
  intro position rest
  rw [List.append_assoc]
  exact starts position (right ++ rest)

/-- Where an operand starts after another one, a concatenation is read. -/
theorem StartsOperand.joins (starts : StartsOperand right) :
    Joins .concatenation [] right := by
  intro position rest state after
  rcases starts position rest with ⟨next, reads⟩
  rw [List.nil_append, reads, State.beforeOperand, if_pos after]
  cases pushed : state.pushOperator .concatenation position with
  | error failure => rfl
  | ok ready =>
      rcases exists_of_pushOperator pushed with ⟨-, reduced, -, rfl⟩
      exact (reads ⟨_, _, false⟩).symm

/-- An operator between two phrases joins their trees. -/
theorem ReadsBefore.join {operator : BinaryOperator} {sign : List Char}
    (leftReads : ReadsBefore operator left leftTree)
    (joins : Joins operator sign right)
    (rightReads : ReadsAfter operator right rightTree) :
    ReadsBefore operator (left ++ (sign ++ right))
      (Regex.join operator leftTree rightTree) := by
  intro position operators operands loose
  rcases leftReads position operators operands loose with
    ⟨middle, after, reduces, read⟩
  rcases rightReads (position + left.length + sign.length)
    (position + left.length) operators operands leftTree loose with
    ⟨reached, reachedAfter, reachedReduces, reachedRead⟩
  refine ⟨reached, reachedAfter, reachedReduces, ?_⟩
  intro rest
  have length : position + (left ++ (sign ++ right)).length =
      position + left.length + sign.length + right.length := by
    rw [List.length_append, List.length_append]
    omega
  rw [List.append_assoc, read, List.append_assoc, joins _ _ _ after,
    pushOperator_of_reduces _ after reduces, length]
  exact reachedRead rest

/-! ## Operands -/

theorem ofChar_literal {character : Char} (plain : character ∉ special) :
    Token.ofChar character = .literal character := by
  simp only [special, List.mem_cons, List.not_mem_nil, not_or] at plain
  unfold Token.ofChar
  split <;> first | rfl | tauto

/-- A token that is an operand starts one and puts it on the stack. -/
theorem reads_token (token : Token) {operand : Regex}
    (pushes : ∀ position state, State.step state (token, position) =
      state.pushOperand operand position)
    (reads : ∀ position rest state, readOn position (word ++ rest) state =
      (state.step (token, position)).bind
        (readOn (position + word.length) rest)) :
    ReadsOperand word operand ∧ StartsOperand word := by
  constructor
  · intro position operators operands rest
    rw [reads, pushes]
    rfl
  · intro position rest
    refine ⟨fun ready => readOn (position + word.length) rest
      ⟨ready.operators, operand :: ready.operands, true⟩, ?_⟩
    intro state
    rw [reads, pushes, State.pushOperand]
    cases state.beforeOperand position <;> rfl

theorem reads_literal {character : Char} (plain : character ∉ special) :
    ReadsOperand [character] (.literal character) ∧
      StartsOperand [character] := by
  have other : character ≠ '[' := by
    rintro rfl
    exact plain (by decide)
  apply reads_token (.literal character)
  · intro position state
    rfl
  · intro position rest state
    rw [List.singleton_append, readOn_cons _ _ _ other, ofChar_literal plain]
    rfl

theorem reads_oneOf {body : List Char} {members : CharacterClass}
    (isBody : Bracket.IsBody body)
    (same : ∀ character, character ∈ members ↔
      Bracket.Lists body character) :
    ReadsOperand ('[' :: (body ++ [']'])) (.oneOf members) ∧
      StartsOperand ('[' :: (body ++ [']'])) := by
  apply reads_token (.oneOf members)
  · intro position state
    rfl
  · intro position rest state
    have length : position + ('[' :: (body ++ [']'])).length =
        position + 1 + (body.length + 1) := by
      rw [List.length_cons, List.length_append, List.length_singleton]
      omega
    rw [List.cons_append, List.append_assoc, length]
    exact readOn_body _ _ _ isBody same

theorem startsOperand_group : StartsOperand ['('] := by
  intro position rest
  refine ⟨fun ready => readOn (position + 1) rest
    ⟨(.group, position) :: ready.operators, ready.operands, false⟩, ?_⟩
  intro state
  rw [List.singleton_append, readOn_cons _ _ _ (by decide)]
  change (state.openGroup position).bind _ = _
  rw [State.openGroup]
  cases state.beforeOperand position <;> rfl

/-- An expression in a group is an operand. -/
theorem ReadsBefore.group (reads : ReadsBefore .alternation word tree) :
    ReadsOperand ('(' :: (word ++ [')'])) tree := by
  intro position operators operands rest
  rcases reads (position + 1) ((.group, position) :: operators) operands
    trivial with ⟨reached, after, reduces, read⟩
  have closes : reached.step (.closeGroup, position + 1 + word.length) =
      .ok ⟨operators, tree :: operands, true⟩ := by
    change reached.closeGroup _ = _
    rw [State.closeGroup, if_pos after, reduceGroup_eq _ reduces]
    rfl
  have length : position + ('(' :: (word ++ [')'])).length =
      position + 1 + word.length + 1 := by
    rw [List.length_cons, List.length_append, List.length_singleton]
    omega
  rw [List.cons_append, readOn_cons _ _ _ (by decide), List.append_assoc,
    length]
  change readOn (position + 1) (word ++ (')' :: rest))
    ⟨(.group, position) :: operators, operands, false⟩ = _
  rw [read, readOn_cons _ _ _ (by decide)]
  change (reached.step (.closeGroup, position + 1 + word.length)).bind _ = _
  rw [closes]
  rfl

theorem ReadsOperand.repeated (repetition : Repetition)
    (reads : ReadsOperand word tree) :
    ReadsOperand (word ++ [repetition.sign]) (.repeated repetition tree) := by
  intro position operators operands rest
  have plain : repetition.sign ≠ '[' := by cases repetition <;> decide
  rw [List.append_assoc, reads, List.singleton_append,
    readOn_cons _ _ _ plain, ofChar_repetition, List.length_append]
  rfl

/-! ## The grammar of what can be read -/

/-- What reading does with the phrases of each kind. -/
def ReadsPhrase : Phrase → List Char → Regex → Prop
  | .expression, word, tree => ReadsBefore .alternation word tree
  | .term, word, tree => ReadsBefore .concatenation word tree
  | .factor, word, tree | .atom, word, tree =>
      ReadsOperand word tree ∧ StartsOperand word

theorem readsPhrase_of_derives {phrase : Phrase}
    (derived : Derives phrase word tree) : ReadsPhrase phrase word tree := by
  induction derived with
  | term _ reads => exact reads.alternation
  | alternation _ _ leftReads rightReads =>
      exact leftReads.join (joins_sign .alternation _) rightReads.after
  | factor _ reads => exact reads.1.before
  | juxtaposition _ _ leftReads rightReads =>
      exact leftReads.join rightReads.2.joins rightReads.1.after
  | concatenation _ _ leftReads rightReads =>
      exact leftReads.join (joins_sign .concatenation _) rightReads.1.after
  | atom _ reads => exact reads
  | repeated repetition _ reads =>
      exact ⟨reads.1.repeated repetition, reads.2.append _⟩
  | literal plain => exact reads_literal plain
  | oneOf isBody same => exact reads_oneOf isBody same
  | group _ reads => exact ⟨reads.group, startsOperand_group.append _⟩

theorem finish_of_reduces {state : State}
    (after : state.afterOperand = true)
    (reduces : reduceTighter BinaryOperator.alternation.precedence
      state.operators state.operands = .ok ([], [tree])) :
    state.finish = .ok tree := by
  rw [State.finish, if_pos after, reduceAll_eq reduces]
  rfl

/-- Reading accepts the patterns that are derived from the grammar, and gives
their syntax trees. -/
theorem parse_eq_ok_iff {pattern : List Char} :
    parse pattern = .ok tree ↔ Derives .expression pattern tree := by
  rw [parse_eq]
  constructor
  · intro read
    exact derives_of_readOn (.awaiting .start) read
  · intro derived
    have reads : ReadsBefore .alternation pattern tree :=
      readsPhrase_of_derives derived
    rcases reads 0 [] [] trivial with ⟨reached, after, reduces, read⟩
    have whole := read []
    rw [List.append_nil, readOn_nil, finish_of_reduces after reduces] at whole
    exact whole

/-! ## Trees of patterns -/

/-- A pattern has one syntax tree at most. -/
theorem tree_unique {pattern : List Char} {other : Regex}
    (derived : Derives .expression pattern tree)
    (otherDerived : Derives .expression pattern other) : other = tree := by
  have read := parse_eq_ok_iff.2 derived
  rw [parse_eq_ok_iff.2 otherDerived] at read
  exact Except.ok.inj read

/-- Bracket expressions have members. -/
theorem hasMembers_of_derives {phrase : Phrase}
    (derived : Derives phrase word tree) : tree.HasMembers := by
  induction derived with
  | term _ holds => exact holds
  | alternation _ _ left right => exact ⟨left, right⟩
  | factor _ holds => exact holds
  | juxtaposition _ _ left right => exact ⟨left, right⟩
  | concatenation _ _ left right => exact ⟨left, right⟩
  | atom _ holds => exact holds
  | repeated _ _ holds => exact holds
  | literal => trivial
  | oneOf isBody same => exact (Bracket.ne_empty_iff same).2 isBody.nonempty
  | group _ holds => exact holds

end PatternAutomata.Parser
