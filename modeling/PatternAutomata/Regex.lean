import PatternAutomata.CharacterClass
import PatternAutomata.Pattern.Operator

/-!
# Regular expressions

The syntax trees of patterns.  Groups leave no trace in a tree, and written
and implied concatenation are the same.
-/

namespace PatternAutomata

/-- A regular expression. -/
inductive Regex where
  /-- One character. -/
  | literal (character : Char)
  /-- Any one character of a class. -/
  | oneOf (members : CharacterClass)
  /-- The left expression, then the right one. -/
  | concatenation (left right : Regex)
  /-- Either expression. -/
  | alternation (left right : Regex)
  /-- Repetitions of an expression. -/
  | repeated (repetition : Repetition) (body : Regex)
deriving DecidableEq

namespace Regex

/-- Join two expressions with an operator. -/
def join : BinaryOperator → Regex → Regex → Regex
  | .concatenation => concatenation
  | .alternation => alternation

/-- The number of states of the automaton of the expression: two for every
literal, class, alternation and repetition. -/
def stateCount : Regex → Nat
  | literal _ => 2
  | oneOf _ => 2
  | concatenation left right => left.stateCount + right.stateCount
  | alternation left right => left.stateCount + right.stateCount + 2
  | repeated _ body => body.stateCount + 2

end Regex

end PatternAutomata
