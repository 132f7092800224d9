/-!
# Syntax errors of patterns

A pattern is refused for one reason.  The reason names the place in the
pattern, counted in characters from zero, and has one text.
-/

namespace PatternAutomata

/-- Why a pattern is refused. -/
inductive SyntaxError where
  /-- The pattern has no characters. -/
  | emptyPattern
  /-- The bracket expression that opens here has no closing bracket. -/
  | unterminatedClass (opening : Nat)
  /-- The bracket expression that opens here has no members. -/
  | emptyClass (opening : Nat)
  /-- The range that is complete here ends below its start. -/
  | descendingRange (first last : Char) (position : Nat)
  /-- The parenthesis here closes no group. -/
  | unmatchedClosing (position : Nat)
  /-- The group that opens here is not closed. -/
  | unmatchedOpening (position : Nat)
  /-- The parenthesis here closes a group without content. -/
  | emptyGroup (position : Nat)
  /-- The operator here lacks an operand. -/
  | missingOperand (operator : Char) (position : Nat)
deriving DecidableEq, Repr

namespace SyntaxError

/-- The text of the reason. -/
def message : SyntaxError → String
  | emptyPattern => "empty pattern"
  | unterminatedClass opening =>
      s!"unterminated character class starting at position {opening}"
  | emptyClass opening => s!"empty character class at position {opening}"
  | descendingRange first last position =>
      s!"descending range '{first}-{last}' at position {position}"
  | unmatchedClosing position => s!"unmatched ')' at position {position}"
  | unmatchedOpening position => s!"unmatched '(' at position {position}"
  | emptyGroup position => s!"empty group at position {position}"
  | missingOperand operator position =>
      s!"operator '{operator}' at position {position} is missing an operand"

end SyntaxError

end PatternAutomata
