/-!
# Operators of patterns

Two operators join two operands, and three repeat the operand before them.
Repetitions bind tightest, then concatenation, then alternation.
-/

namespace PatternAutomata

/-- An operator between two operands. -/
inductive BinaryOperator where
  /-- Either operand. -/
  | alternation
  /-- The left operand, then the right one. -/
  | concatenation
deriving DecidableEq, Repr

namespace BinaryOperator

/-- The character that writes the operator. -/
def sign : BinaryOperator → Char
  | alternation => '|'
  | concatenation => '&'

/-- How tightly the operator binds. -/
def precedence : BinaryOperator → Nat
  | alternation => 1
  | concatenation => 2

end BinaryOperator

/-- An operator after its one operand. -/
inductive Repetition where
  /-- Any number of times. -/
  | zeroOrMore
  /-- At least once. -/
  | oneOrMore
  /-- At most once. -/
  | zeroOrOne
deriving DecidableEq, Repr

namespace Repetition

/-- The character that writes the operator. -/
def sign : Repetition → Char
  | zeroOrMore => '*'
  | oneOrMore => '+'
  | zeroOrOne => '?'

end Repetition

end PatternAutomata
