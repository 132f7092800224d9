import PatternAutomata.Pattern.Bracket
import PatternAutomata.Pattern.Operator

/-!
# Tokens of patterns

A pattern is a sequence of tokens, each one character long except bracket
expressions.  Only a bracket expression can fail to be a token; the tokens
before it are kept, so that a reader meets errors in the order of the pattern.
-/

namespace PatternAutomata

/-- A unit of a pattern. -/
inductive Token where
  /-- A character that stands for itself. -/
  | literal (character : Char)
  /-- A bracket expression. -/
  | oneOf (members : CharacterClass)
  /-- The start of a group. -/
  | openGroup
  /-- The end of a group. -/
  | closeGroup
  /-- An operator between operands. -/
  | binary (operator : BinaryOperator)
  /-- An operator after its operand. -/
  | repetition (repetition : Repetition)
deriving DecidableEq

namespace Token

/-- The token of a single character outside bracket expressions. -/
def ofChar : Char → Token
  | '(' => openGroup
  | ')' => closeGroup
  | '|' => binary .alternation
  | '&' => binary .concatenation
  | '*' => repetition .zeroOrMore
  | '+' => repetition .oneOrMore
  | '?' => repetition .zeroOrOne
  | character => literal character

end Token

/-- The tokens of a pattern, each with its position, as far as there are. -/
structure Tokens where
  /-- The tokens and their positions in order. -/
  placed : List (Token × Nat)
  /-- What is wrong with the bracket expression after the last token. -/
  fault : Option SyntaxError
deriving DecidableEq

namespace Tokens

/-- Put a token in front. -/
def cons (token : Token) (position : Nat) (tokens : Tokens) : Tokens :=
  { tokens with placed := (token, position) :: tokens.placed }

/-- The tokens from a position on, passing over the given number of
characters, which belong to a bracket expression already read. -/
def readFrom : Nat → Nat → List Char → Tokens
  | _, _, [] => ⟨[], none⟩
  | position, passed + 1, _ :: rest => readFrom (position + 1) passed rest
  | position, 0, character :: rest =>
      if character = '[' then
        match Bracket.read position rest with
        | .ok (members, closing) =>
            (readFrom (position + 1) (closing - position) rest).cons
              (.oneOf members) position
        | .error fault => ⟨[], some fault⟩
      else
        (readFrom (position + 1) 0 rest).cons (Token.ofChar character) position

/-- The tokens of a pattern. -/
def ofPattern (pattern : List Char) : Tokens := readFrom 0 0 pattern

end Tokens

end PatternAutomata
