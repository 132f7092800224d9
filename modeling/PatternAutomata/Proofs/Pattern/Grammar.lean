import PatternAutomata.Regex

/-!
# The grammar of patterns

Alternations consist of terms, terms of factors, and a factor is an atom with
repetitions after it.  Atoms are literals, bracket expressions and groups.
Both binary operators associate to the left, and a concatenation need not be
written.

A dash in a bracket expression makes a range unless it is the first or the last
character of the body or the end of the range before it.
-/

namespace PatternAutomata

namespace Bracket

/-- The character at a place of a body is a dash that makes a range. -/
def isRangeDash (body : List Char) : Nat → Bool
  | 0 => false
  | place + 1 =>
      body[place + 1]? = some '-' && decide (place + 2 < body.length) &&
        !isRangeDash body place

/-- The body has a range with the given ends. -/
def HasRange (body : List Char) (first last : Char) : Prop :=
  ∃ place, isRangeDash body (place + 1) = true ∧
    body[place]? = some first ∧ body[place + 2]? = some last

/-- A body is not empty, has no closing bracket, and no range in it ends below
its start. -/
structure IsBody (body : List Char) : Prop where
  nonempty : body ≠ []
  unclosed : ']' ∉ body
  ascending : ∀ first last, HasRange body first last → first ≤ last

/-- The body lists a character, by itself or in a range. -/
def Lists (body : List Char) (character : Char) : Prop :=
  (∃ place, isRangeDash body place = false ∧
    body[place]? = some character) ∨
  ∃ first last, HasRange body first last ∧
    first ≤ character ∧ character ≤ last

end Bracket

namespace Pattern

/-- The characters that do not stand for themselves outside bracket
expressions. -/
def special : List Char := ['(', ')', '[', '*', '+', '?', '|', '&']

/-- The kinds of phrases of patterns. -/
inductive Phrase where
  | expression
  | term
  | factor
  | atom
deriving DecidableEq, Repr

/-- A phrase of the given kind is written by the characters, and it has the
syntax tree. -/
inductive Derives : Phrase → List Char → Regex → Prop
  | term {word : List Char} {tree : Regex} :
      Derives .term word tree → Derives .expression word tree
  | alternation {left right : List Char} {leftTree rightTree : Regex} :
      Derives .expression left leftTree → Derives .term right rightTree →
      Derives .expression (left ++ '|' :: right)
        (.alternation leftTree rightTree)
  | factor {word : List Char} {tree : Regex} :
      Derives .factor word tree → Derives .term word tree
  | juxtaposition {left right : List Char} {leftTree rightTree : Regex} :
      Derives .term left leftTree → Derives .factor right rightTree →
      Derives .term (left ++ right) (.concatenation leftTree rightTree)
  | concatenation {left right : List Char} {leftTree rightTree : Regex} :
      Derives .term left leftTree → Derives .factor right rightTree →
      Derives .term (left ++ '&' :: right)
        (.concatenation leftTree rightTree)
  | atom {word : List Char} {tree : Regex} :
      Derives .atom word tree → Derives .factor word tree
  | repeated {word : List Char} {tree : Regex} (repetition : Repetition) :
      Derives .factor word tree →
      Derives .factor (word ++ [repetition.sign])
        (.repeated repetition tree)
  | literal {character : Char} :
      character ∉ special → Derives .atom [character] (.literal character)
  | oneOf {body : List Char} {members : CharacterClass} :
      Bracket.IsBody body →
      (∀ character, character ∈ members ↔ Bracket.Lists body character) →
      Derives .atom ('[' :: (body ++ [']'])) (.oneOf members)
  | group {word : List Char} {tree : Regex} :
      Derives .expression word tree →
      Derives .atom ('(' :: (word ++ [')'])) tree

end Pattern

end PatternAutomata
