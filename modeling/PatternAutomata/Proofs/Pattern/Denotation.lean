import Mathlib.Computability.Language
import PatternAutomata.Regex

/-!
# The words of a regular expression

A regular expression denotes a set of words: a literal its one-letter word, a
class the one-letter words of its members, and operators the operations on
languages with the same names.
-/

namespace PatternAutomata

open scoped Computability

/-- The words that a repetition makes of the words of its operand. -/
def Repetition.language :
    Repetition → Language Char → Language Char
  | zeroOrMore, once => once∗
  | oneOrMore, once => once * once∗
  | zeroOrOne, once => 1 + once

namespace Regex

/-- The words that a regular expression denotes. -/
def language : Regex → Language Char
  | literal character => {[character]}
  | oneOf members => {word | ∃ character ∈ members, word = [character]}
  | concatenation left right => left.language * right.language
  | alternation left right => left.language + right.language
  | repeated repetition body => repetition.language body.language

/-- No class in the expression is empty. -/
def HasMembers : Regex → Prop
  | literal _ => True
  | oneOf members => members ≠ ∅
  | concatenation left right => left.HasMembers ∧ right.HasMembers
  | alternation left right => left.HasMembers ∧ right.HasMembers
  | repeated _ body => body.HasMembers

end Regex

end PatternAutomata
