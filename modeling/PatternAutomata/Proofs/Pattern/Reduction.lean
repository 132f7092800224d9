import PatternAutomata.Pattern.Parser
import PatternAutomata.Proofs.Pattern.Grammar

/-!
# The two stacks of the reader

The operators that wait, with the operands to their left, are the beginnings
of phrases: an open group, an expression before `|`, or a term that another
factor joins.  Reducing completes such phrases up to an operator that binds
less tightly, so the topmost operand becomes a longer phrase of a weaker kind.
-/

namespace PatternAutomata

namespace BinaryOperator

/-- The kind of phrase to the left of an operator, which is also the kind of
the whole. -/
def leftPhrase : BinaryOperator → Pattern.Phrase
  | alternation => .expression
  | concatenation => .term

/-- The kind of phrase to the right of an operator. -/
def rightPhrase : BinaryOperator → Pattern.Phrase
  | alternation => .term
  | concatenation => .factor

/-- The characters write the operator; a concatenation may be left out. -/
def WrittenAs (operator : BinaryOperator) (word : List Char) : Prop :=
  word = [operator.sign] ∨ operator = concatenation ∧ word = []

end BinaryOperator

namespace Pattern.Derives

/-- An operator joins phrases to a phrase of the kind on its left. -/
theorem join {operator : BinaryOperator} {left right sign : List Char}
    {leftTree rightTree : Regex}
    (leftDerived : Derives operator.leftPhrase left leftTree)
    (rightDerived : Derives operator.rightPhrase right rightTree)
    (written : operator.WrittenAs sign) :
    Derives operator.leftPhrase (left ++ sign ++ right)
      (Regex.join operator leftTree rightTree) := by
  rw [List.append_assoc]
  cases operator with
  | alternation =>
      rcases written with rfl | ⟨impossible, -⟩
      · exact .alternation leftDerived rightDerived
      · exact nomatch impossible
  | concatenation =>
      rcases written with rfl | ⟨-, rfl⟩
      · exact .concatenation leftDerived rightDerived
      · exact .juxtaposition leftDerived rightDerived

/-- What may stand to the right of an operator may stand to its left. -/
theorem ofRight (operator : BinaryOperator) {word : List Char} {tree : Regex}
    (derived : Derives operator.rightPhrase word tree) :
    Derives operator.leftPhrase word tree := by
  cases operator with
  | alternation => exact .term derived
  | concatenation => exact .factor derived

end Pattern.Derives

namespace Parser

open Pattern

/-- The topmost entry is no operator that binds at least as tightly. -/
def IsLoose (precedence : Nat) : Operators → Prop
  | (.operator operator, _) :: _ => operator.precedence < precedence
  | _ => True

variable {operators : Operators} {operands : Operands} {precedence : Nat}

/-- No operator binds less tightly than alternation. -/
theorem not_isLoose_alternation (operator : BinaryOperator)
    (position : Nat) :
    ¬IsLoose BinaryOperator.alternation.precedence
      ((.operator operator, position) :: operators) := by
  cases operator with
  | alternation => exact Nat.lt_irrefl 1
  | concatenation => exact show ¬2 < 1 by decide

/-! ## Reducing -/

theorem reduceTighter_of_isLoose (loose : IsLoose precedence operators)
    (operands : Operands) :
    reduceTighter precedence operators operands =
      .ok (operators, operands) := by
  match operators with
  | [] => rfl
  | (.group, position) :: rest => rfl
  | (.operator operator, position) :: rest =>
      have less : operator.precedence < precedence := loose
      rw [reduceTighter, if_pos less]

theorem reduceTighter_operator {operator : BinaryOperator}
    (tight : precedence ≤ operator.precedence) (position : Nat)
    (left right : Regex) :
    reduceTighter precedence ((.operator operator, position) :: operators)
        (right :: left :: operands) =
      reduceTighter precedence operators
        (Regex.join operator left right :: operands) := by
  rw [reduceTighter, if_neg (Nat.not_lt.2 tight)]
  rfl

/-- What applies the tight operators first starts where reducing stops. -/
theorem eq_of_reduceTighter {α : Type}
    {reduce : Operators → Operands → Except Failure α}
    (applies : ∀ (operator : BinaryOperator) (position : Nat)
      (rest : Operators) (operands : Operands),
      precedence ≤ operator.precedence →
      reduce ((.operator operator, position) :: rest) operands =
        (apply operator position operands).bind (reduce rest))
    {reduced : Operators × Operands}
    (result : reduceTighter precedence operators operands = .ok reduced) :
    reduce operators operands = reduce reduced.1 reduced.2 := by
  induction operators generalizing operands with
  | nil =>
      cases result
      rfl
  | cons entry rest further =>
      rcases entry with ⟨_ | operator, position⟩
      · cases result
        rfl
      · rw [reduceTighter] at result
        split at result
        · cases result
          rfl
        · next tight =>
            rw [applies operator position rest operands (Nat.not_lt.1 tight)]
            cases joined : apply operator position operands with
            | error failure =>
                rw [joined] at result
                exact nomatch result
            | ok operands =>
                rw [joined] at result
                exact further result

theorem reduceTighter_eq {weaker : Nat} (le : weaker ≤ precedence)
    {reduced : Operators × Operands}
    (result : reduceTighter precedence operators operands = .ok reduced) :
    reduceTighter weaker operators operands =
      reduceTighter weaker reduced.1 reduced.2 := by
  apply eq_of_reduceTighter _ result
  intro operator position rest operands tight
  rw [reduceTighter, if_neg (Nat.not_lt.2 (Nat.le_trans le tight))]
  rfl

theorem reduceGroup_eq {reduced : Operators × Operands} (closing : Nat)
    (result : reduceTighter precedence operators operands = .ok reduced) :
    reduceGroup closing operators operands =
      reduceGroup closing reduced.1 reduced.2 :=
  eq_of_reduceTighter (fun _ _ _ _ _ => rfl) result

theorem reduceAll_eq {reduced : Operators × Operands}
    (result : reduceTighter precedence operators operands = .ok reduced) :
    reduceAll operators operands = reduceAll reduced.1 reduced.2 :=
  eq_of_reduceTighter (fun _ _ _ _ _ => rfl) result

/-! ## Beginnings of phrases -/

/-- The stacks hold the beginning of a pattern that the characters write, up to
where an operand is expected. -/
inductive Awaits : Operators → Operands → List Char → Prop
  | start : Awaits [] [] []
  | group {operators : Operators} {operands : Operands} {word : List Char}
      (position : Nat) :
      Awaits operators operands word →
      Awaits ((.group, position) :: operators) operands (word ++ ['('])
  | operator {operators : Operators} {operands : Operands}
      {word left sign : List Char} {tree : Regex}
      {operator : BinaryOperator} (position : Nat) :
      Awaits operators operands word →
      IsLoose operator.precedence operators →
      Derives operator.leftPhrase left tree →
      operator.WrittenAs sign →
      Awaits ((.operator operator, position) :: operators)
        (tree :: operands) (word ++ (left ++ sign))

/-- Reducing leaves the left operand of a new operator after the beginning of
a pattern. -/
def Reduces (operator : BinaryOperator) (operators : Operators)
    (operands : Operands) (word : List Char) : Prop :=
  ∃ reduced rest before phrase tree,
    reduceTighter operator.precedence operators operands =
        .ok (reduced, tree :: rest) ∧
      Awaits reduced rest before ∧
      IsLoose operator.precedence reduced ∧
      Derives operator.leftPhrase phrase tree ∧
      word = before ++ phrase

namespace Awaits

variable {word phrase : List Char} {tree : Regex}

/-- At most one operator of each kind waits in a group, so a right operand is
complete after one application. -/
theorem reduces_of_right (operator : BinaryOperator)
    (awaits : Awaits operators operands word)
    (loose : IsLoose (operator.precedence + 1) operators)
    (derived : Derives operator.rightPhrase phrase tree) :
    Reduces operator operators (tree :: operands) (word ++ phrase) := by
  cases awaits with
  | start =>
      exact ⟨_, _, _, _, _, rfl, .start, trivial, derived.ofRight operator,
        rfl⟩
  | group position awaits =>
      exact ⟨_, _, _, _, _, rfl, .group position awaits, trivial,
        derived.ofRight operator, rfl⟩
  | @operator operators operands word left sign leftTree waiting position
      awaits waitingLoose leftDerived written =>
      have bound : waiting.precedence < operator.precedence + 1 := loose
      rcases Nat.lt_or_eq_of_le (Nat.le_of_lt_succ bound) with less | same
      · have looser : IsLoose operator.precedence
            ((.operator waiting, position) :: operators) := less
        exact ⟨_, _, _, _, _, reduceTighter_of_isLoose looser _,
          .operator position awaits waitingLoose leftDerived written, looser,
          derived.ofRight operator, rfl⟩
      · have equal : waiting = operator := by
          cases waiting <;> cases operator <;> first | rfl | cases same
        subst equal
        refine ⟨operators, operands, word, left ++ sign ++ phrase, _, ?_,
          awaits, waitingLoose, leftDerived.join derived written, ?_⟩
        · rw [reduceTighter_operator (Nat.le_refl _),
            reduceTighter_of_isLoose waitingLoose]
        · simp only [List.append_assoc]

theorem reduces_concatenation (awaits : Awaits operators operands word)
    (derived : Derives .factor phrase tree) :
    Reduces .concatenation operators (tree :: operands) (word ++ phrase) := by
  apply awaits.reduces_of_right .concatenation _ derived
  match operators with
  | [] => trivial
  | (.group, _) :: _ => trivial
  | (.operator .alternation, _) :: _ => exact show 1 < 3 by decide
  | (.operator .concatenation, _) :: _ => exact show 2 < 3 by decide

/-- A factor becomes part of a term, and the term part of an expression. -/
theorem reduces (operator : BinaryOperator)
    (awaits : Awaits operators operands word)
    (derived : Derives .factor phrase tree) :
    Reduces operator operators (tree :: operands) (word ++ phrase) := by
  cases operator with
  | concatenation => exact awaits.reduces_concatenation derived
  | alternation =>
      rcases awaits.reduces_concatenation derived with
        ⟨middle, others, before, term, termTree, first, awaits, loose,
          termDerived, split⟩
      rcases awaits.reduces_of_right .alternation loose termDerived with
        ⟨reduced, rest, front, expression, whole, second, remaining⟩
      refine ⟨reduced, rest, front, expression, whole, ?_, ?_⟩
      · rw [← second]
        exact reduceTighter_eq (by decide) first
      · rw [split]
        exact remaining

end Awaits

end Parser

end PatternAutomata
