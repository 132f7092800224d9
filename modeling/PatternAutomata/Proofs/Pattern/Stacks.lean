import Mathlib.Logic.Relation
import PatternAutomata.Proofs.Pattern.OpenGroups

/-!
# The stacks keep in step

Whenever the reader has read a token, it holds as many operands as operators,
and one more if an operand is complete.  Within a group, operators bind more
tightly towards the top of the stack, and while an operand is awaited the top is
the token read last.

Hence an operator always finds the two operands that it joins, a repetition
finds the one that it repeats, and at the end of a pattern exactly one operand
is left.  The cases of the reader for operands that are absent or left over do
not arise.
-/

namespace PatternAutomata.Parser

variable {operators : Operators} {operands : Operands} {state : State}
  {pattern word : List Char} {front back : List (Token × Nat)}

/-- The number of operators on the stack. -/
def operatorCount (operators : Operators) : Nat :=
  operators.countP fun entry => entry.1 ≠ .group

/-- An operator binds more tightly than one below it in the same group. -/
def Tightens (operators : Operators) : Prop :=
  ∀ above between below upper lower place earlier,
    operators = above ++ (.operator upper, place) ::
      (between ++ (.operator lower, earlier) :: below) →
    (∀ entry ∈ between, entry.1 ≠ .group) →
    lower.precedence < upper.precedence

/-- The topmost operator is applied to the topmost operands. -/
def Applies (before after : Operators × Operands) : Prop :=
  ∃ operator position,
    before.1 = (.operator operator, position) :: after.1 ∧
      apply operator position before.2 = .ok after.2

/-- How the stacks are when the first tokens of a pattern have been read. -/
structure InStep (pattern : List Char) (front : List (Token × Nat))
    (state : State) : Prop where
  /-- There are as many operands as operators, and one more if an operand is
  complete. -/
  length_operands : state.operands.length =
    operatorCount state.operators + if state.afterOperand then 1 else 0
  /-- Within groups operators bind more tightly towards the top. -/
  tightens : Tightens state.operators
  /-- While an operand is awaited, nothing has been read, or the token read
  last is on top, which the pattern has there. -/
  top : state.afterOperand = false →
    front = [] ∧ state.operators = [] ∨
      ∃ earlier entry position below,
        front = earlier ++ [(entry.token, position)] ∧
          pattern[position]? = some entry.sign ∧
          state.operators = (entry, position) :: below

/-- What does not happen when the first tokens of a pattern have been read. -/
structure NeverFallsBack (front : List (Token × Nat)) (state : State) :
    Prop where
  /-- When operators are applied after an operand, each finds its operands. -/
  apply_eq_ok : state.afterOperand = true → ∀ reached,
    Relation.ReflTransGen Applies (state.operators, state.operands) reached →
      ∀ operator position below,
        reached.1 = (.operator operator, position) :: below →
          ∃ joined, apply operator position reached.2 = .ok joined
  /-- After an operand, only the end of a group can be refused. -/
  step_eq_error : state.afterOperand = true → ∀ token position failure,
    state.step (token, position) = .error failure →
      token = .closeGroup ∧ failure.error = .unmatchedClosing position
  /-- The end of the pattern after an operand is refused only for an open
  group.  Otherwise one operand is left, and it is the result. -/
  finish_eq : state.afterOperand = true →
    (∃ opening operands,
      state.finish = .error ⟨.unmatchedOpening opening, operands⟩) ∨
      ∃ tree, reduceAll state.operators state.operands = .ok [tree] ∧
        state.finish = .ok tree
  /-- A pattern is refused as empty only if nothing has been read. -/
  emptyPattern : ∀ failure, state.finish = .error failure →
    failure.error = .emptyPattern → front = []

/-! ## What waits on the stacks -/

@[simp]
theorem operatorCount_group (position : Nat) (operators : Operators) :
    operatorCount ((.group, position) :: operators) =
      operatorCount operators := by
  simp [operatorCount]

@[simp]
theorem operatorCount_operator (operator : BinaryOperator) (position : Nat)
    (operators : Operators) :
    operatorCount ((.operator operator, position) :: operators) =
      operatorCount operators + 1 := by
  simp [operatorCount]

/-- Every operator that waits has its left operand. -/
theorem Awaits.length_operands (awaits : Awaits operators operands word) :
    operands.length = operatorCount operators := by
  induction awaits with
  | start => rfl
  | group position _ same => rw [operatorCount_group, same]
  | operator position _ _ _ _ same =>
      rw [operatorCount_operator, List.length_cons, same]

/-- It is enough to look at what is below a new entry. -/
theorem Tightens.cons {entry : Waiting × Nat} (tightens : Tightens operators)
    (closest : ∀ between below upper lower place earlier,
      entry = (.operator upper, place) →
      operators = between ++ (.operator lower, earlier) :: below →
      (∀ other ∈ between, other.1 ≠ .group) →
      lower.precedence < upper.precedence) :
    Tightens (entry :: operators) := by
  intro above between below upper lower place earlier split ungrouped
  cases above with
  | nil =>
      rw [List.nil_append, List.cons.injEq] at split
      exact closest between below upper lower place earlier split.1 split.2
        ungrouped
  | cons head above =>
      rw [List.cons_append, List.cons.injEq] at split
      exact tightens above between below upper lower place earlier split.2
        ungrouped

theorem Awaits.tightens (awaits : Awaits operators operands word) :
    Tightens operators := by
  induction awaits with
  | start =>
      intro above between below upper lower place earlier split
      simp at split
  | group position _ tightens =>
      refine tightens.cons ?_
      intro between below upper lower place earlier impossible
      cases impossible
  | @operator operators operands word left sign tree operator position awaits
      loose _ _ tightens =>
      refine tightens.cons ?_
      rintro between below upper lower place earlier ⟨⟩ rfl ungrouped
      cases between with
      | nil => exact loose
      | cons next between =>
          rcases next with ⟨_ | middle, middlePlace⟩
          · exact absurd rfl (ungrouped _ List.mem_cons_self)
          · have closer : middle.precedence < operator.precedence := loose
            have further := tightens [] between below middle lower middlePlace
              earlier rfl fun entry member =>
                ungrouped entry (List.mem_cons_of_mem _ member)
            exact Nat.lt_trans further closer

theorem Holds.length_operands (holds : Holds word state) :
    state.operands.length =
      operatorCount state.operators +
        if state.afterOperand then 1 else 0 := by
  cases holds with
  | awaiting awaits => exact awaits.length_operands
  | complete awaits =>
      rw [List.length_cons, awaits.length_operands]
      rfl

theorem Holds.tightens (holds : Holds word state) :
    Tightens state.operators := by
  cases holds with
  | awaiting awaits => exact awaits.tightens
  | complete awaits => exact awaits.tightens

/-! ## Applying operators -/

/-- There is one operand more than operators. -/
def Balanced (operators : Operators) (operands : Operands) : Prop :=
  operands.length = operatorCount operators + 1

namespace Balanced

/-- An operator finds two operands and leaves one. -/
theorem apply {operator : BinaryOperator} {position : Nat}
    (balanced : Balanced ((.operator operator, position) :: operators)
      operands) :
    ∃ joined, Parser.apply operator position operands = .ok joined ∧
      Balanced operators joined := by
  rw [Balanced, operatorCount_operator] at balanced
  match operands with
  | [] => simp at balanced
  | [_] => simp at balanced
  | right :: left :: rest =>
      refine ⟨Regex.join operator left right :: rest, rfl, ?_⟩
      rw [List.length_cons, List.length_cons] at balanced
      rw [Balanced, List.length_cons]
      omega

theorem of_applies {before after : Operators × Operands}
    (balanced : Balanced before.1 before.2) (applies : Applies before after) :
    Balanced after.1 after.2 := by
  rcases applies with ⟨operator, position, top, applied⟩
  rw [top] at balanced
  rcases balanced.apply with ⟨joined, found, kept⟩
  cases applied.symm.trans found
  exact kept

theorem of_applied {before reached : Operators × Operands}
    (balanced : Balanced before.1 before.2)
    (applied : Relation.ReflTransGen Applies before reached) :
    Balanced reached.1 reached.2 := by
  induction applied with
  | refl => exact balanced
  | tail _ applies kept => exact kept.of_applies applies

/-- Applying all operators leaves one operand, unless a group is open. -/
theorem reduceAll_cases (balanced : Balanced operators operands) :
    (∃ opening remaining, reduceAll operators operands =
        .error ⟨.unmatchedOpening opening, remaining⟩) ∨
      ∃ tree, reduceAll operators operands = .ok [tree] := by
  induction operators generalizing operands with
  | nil =>
      rcases List.length_eq_one_iff.1 balanced with ⟨tree, rfl⟩
      exact .inr ⟨tree, rfl⟩
  | cons entry rest reduces =>
      rcases entry with ⟨_ | operator, position⟩
      · exact .inl ⟨position, operands, rfl⟩
      · rcases balanced.apply with ⟨joined, applied, kept⟩
        rw [reduceAll, applied]
        exact reduces kept

end Balanced

/-- After an operand, the end of a pattern finds an open group or one
operand. -/
theorem Balanced.finish_cases
    (balanced : Balanced state.operators state.operands)
    (after : state.afterOperand = true) :
    (∃ opening operands,
      state.finish = .error ⟨.unmatchedOpening opening, operands⟩) ∨
      ∃ tree, reduceAll state.operators state.operands = .ok [tree] ∧
        state.finish = .ok tree := by
  rw [State.finish, if_pos after]
  rcases balanced.reduceAll_cases with
    ⟨opening, operands, refused⟩ | ⟨tree, reduced⟩
  · rw [refused]
    exact .inl ⟨opening, operands, rfl⟩
  · rw [reduced]
    exact .inr ⟨tree, rfl, rfl⟩

/-! ## Refusals -/

/-- After an operand, any token but the end of a group can be read. -/
theorem Holds.eq_closeGroup_of_step (holds : Holds word state)
    (after : state.afterOperand = true) {token : Token} {position : Nat}
    {failure : Failure}
    (refused : state.step (token, position) = .error failure) :
    token = .closeGroup ∧ failure.error = .unmatchedClosing position := by
  have operand (tree : Regex) :
      state.pushOperand tree position ≠ .error failure := by
    rcases holds.exists_pushOperand tree position with ⟨next, pushed, -⟩
    simp [pushed]
  cases token with
  | literal character => exact absurd refused (operand _)
  | oneOf members => exact absurd refused (operand _)
  | openGroup =>
      rcases holds.exists_beforeOperand position with ⟨ready, before⟩
      rw [State.step, State.openGroup, before] at refused
      cases refused
  | binary operator =>
      rcases holds.exists_pushOperator after operator position with
        ⟨next, pushed, -⟩
      rw [State.step, pushed] at refused
      cases refused
  | repetition repetition =>
      cases holds with
      | awaiting => cases after
      | complete => cases refused
  | closeGroup =>
      rcases holds.complete_cases after with
        ⟨-, -, refuses⟩ | ⟨-, -, -, -, closes⟩
      · rcases refuses position with ⟨operands, closed⟩
        cases refused.symm.trans closed
        exact ⟨rfl, rfl⟩
      · rcases closes position with ⟨next, closed, -⟩
        cases refused.symm.trans closed

/-! ## Whatever has been read -/

/-- The first tokens of the rest of a pattern are those of characters that are
read. -/
theorem Reads.exists_of_foldlM {next : State} {rest : List Char}
    (reads : Reads word state)
    (split : (Tokens.readFrom word.length 0 rest).placed = front ++ back)
    (read : front.foldlM State.step state = .ok next) :
    ∃ passed others, rest = passed ++ others ∧
      Reads (word ++ passed) next := by
  induction front generalizing word state rest with
  | nil =>
      cases read
      exact ⟨[], rest, rfl, by simpa using reads⟩
  | cons entry front goesOn =>
      rw [List.foldlM_cons] at read
      rcases exists_of_bind_eq_ok read with ⟨middle, stepped, readRest⟩
      cases rest with
      | nil => simp [Tokens.readFrom] at split
      | cons character rest =>
          by_cases opens : character = '['
          · subst opens
            cases found : Bracket.read word.length rest with
            | error fault => simp [Tokens.readFrom, found] at split
            | ok result =>
                rcases result with ⟨members, closing⟩
                rcases Bracket.read_eq_ok_iff.1 found with
                  ⟨body, others, rfl, isBody, same, -⟩
                rw [readFrom_body _ _ isBody same, ← length_append_bracket,
                  Tokens.cons, List.cons_append, List.cons.injEq] at split
                rcases split with ⟨rfl, split⟩
                rcases goesOn (reads.bracket isBody same stepped) split readRest
                  with ⟨passed, others, rfl, reached⟩
                exact ⟨'[' :: (body ++ [']']) ++ passed, others, by simp,
                  by simpa using reached⟩
          · have length : word.length + 1 = (word ++ [character]).length := by
              simp
            rw [Tokens.readFrom, if_neg opens, length, Tokens.cons,
              List.cons_append, List.cons.injEq] at split
            rcases split with ⟨rfl, split⟩
            rcases goesOn (reads.character opens stepped) split readRest with
              ⟨passed, others, rfl, reached⟩
            exact ⟨character :: passed, others, rfl, by simpa using reached⟩

/-- The first tokens of a pattern are those of a beginning that is read. -/
theorem exists_reads_of_readTokens
    (split : (Tokens.ofPattern pattern).placed = front ++ back)
    (read : readTokens front = .ok state) :
    ∃ beginning rest, pattern = beginning ++ rest ∧ Reads beginning state :=
  Reads.start.exists_of_foldlM split read

/-- While an operand is awaited, the token read last is on top. -/
theorem top_of_readTokens (read : readTokens front = .ok state)
    (waiting : state.afterOperand = false) :
    front = [] ∧ state.operators = [] ∨
      ∃ earlier entry position below,
        front = earlier ++ [(entry.token, position)] ∧
          state.operators = (entry, position) :: below := by
  rcases List.eq_nil_or_concat front with rfl | ⟨earlier, last, rfl⟩
  · cases read
    exact .inl ⟨rfl, rfl⟩
  · rcases last with ⟨token, position⟩
    rw [List.concat_eq_append, readTokens, List.foldlM_append] at read
    rcases exists_of_bind_eq_ok read with ⟨before, -, stepped⟩
    rw [List.foldlM_cons] at stepped
    rcases exists_of_bind_eq_ok stepped with ⟨after, stepped, same⟩
    cases same
    rcases top_of_step stepped waiting with ⟨entry, below, top, rfl, -⟩
    exact .inr ⟨earlier, entry, position, below, by simp, top⟩

theorem inStep_of_readTokens
    (split : (Tokens.ofPattern pattern).placed = front ++ back)
    (read : readTokens front = .ok state) : InStep pattern front state := by
  rcases exists_reads_of_readTokens split read with
    ⟨beginning, rest, rfl, reads⟩
  refine ⟨reads.holds.length_operands, reads.holds.tightens, ?_⟩
  intro waiting
  rcases top_of_readTokens read waiting with
    nothing | ⟨earlier, entry, position, below, last, top⟩
  · exact .inl nothing
  · rcases reads.exists_before_top waiting top with
      ⟨passed, before, rfl, rfl, -⟩
    exact .inr ⟨earlier, entry, passed.length, below, last, by simp, top⟩

theorem InStep.balanced (inStep : InStep pattern front state)
    (after : state.afterOperand = true) :
    Balanced state.operators state.operands := by
  rw [Balanced, inStep.length_operands, if_pos after]

theorem InStep.neverFallsBack (inStep : InStep pattern front state)
    (holds : Holds word state) : NeverFallsBack front state := by
  constructor
  case apply_eq_ok =>
    intro after reached applied operator position below top
    have balanced := (inStep.balanced after).of_applied applied
    rw [top] at balanced
    rcases balanced.apply with ⟨joined, found, -⟩
    exact ⟨joined, found⟩
  case step_eq_error =>
    intro after token position failure refused
    exact holds.eq_closeGroup_of_step after refused
  case finish_eq =>
    intro after
    exact (inStep.balanced after).finish_cases after
  case emptyPattern =>
    intro failure refused isEmpty
    cases after : state.afterOperand with
    | true =>
        rcases (inStep.balanced after).finish_cases after with
          ⟨opening, operands, finished⟩ | ⟨tree, -, finished⟩
        · cases refused.symm.trans finished
          cases isEmpty
        · cases refused.symm.trans finished
    | false =>
        rcases inStep.top after with
          ⟨nothing, -⟩ | ⟨_, entry, position, below, -, -, top⟩
        · exact nothing
        · rw [State.finish, after, top] at refused
          cases entry with
          | group =>
              cases refused
              cases isEmpty
          | operator operator =>
              cases refused
              cases isEmpty

/-- Whenever the first tokens of a pattern have been read, the stacks are in
step, and what is for operands that are absent or left over does not happen. -/
theorem stacks_inStep_and_neverFallBack (pattern : List Char)
    (front back : List (Token × Nat)) (state : State)
    (split : (Tokens.ofPattern pattern).placed = front ++ back)
    (read : readTokens front = .ok state) :
    InStep pattern front state ∧ NeverFallsBack front state := by
  rcases exists_reads_of_readTokens split read with
    ⟨beginning, rest, -, reads⟩
  have inStep := inStep_of_readTokens split read
  exact ⟨inStep, inStep.neverFallsBack reads.holds⟩

/-- The tokens before the closing parenthesis of `a|(b[cd]&e)`. -/
def nestedFront : List (Token × Nat) :=
  [(.literal 'a', 0), (.binary .alternation, 1), (.openGroup, 2),
    (.literal 'b', 3), (.oneOf (.ofList ['c', 'd']), 4),
    (.binary .concatenation, 8), (.literal 'e', 9)]

/-- Three operands are complete, and the topmost two wait to be joined. -/
def nestedState : State :=
  ⟨[(.operator .concatenation, 8), (.group, 2), (.operator .alternation, 1)],
    [.literal 'e', .concatenation (.literal 'b') (.oneOf (.ofList ['c', 'd'])),
      .literal 'a'], true⟩

theorem stacks_inStep_and_neverFallBack_nested :
    (Tokens.ofPattern "a|(b[cd]&e)".toList).placed =
        nestedFront ++ [(.closeGroup, 10)] ∧
      readTokens nestedFront = .ok nestedState ∧
      InStep "a|(b[cd]&e)".toList nestedFront nestedState ∧
      NeverFallsBack nestedFront nestedState := by
  have split : (Tokens.ofPattern "a|(b[cd]&e)".toList).placed =
      nestedFront ++ [(.closeGroup, 10)] := by decide +kernel
  have read : readTokens nestedFront = .ok nestedState := by decide +kernel
  exact ⟨split, read, stacks_inStep_and_neverFallBack _ nestedFront _ _ split
    read⟩

end PatternAutomata.Parser
