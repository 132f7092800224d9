import PatternAutomata.CharacterClass
import PatternAutomata.Pattern.SyntaxError

/-!
# Bracket expressions

A bracket expression lists the members of a character class between `[` and
`]`.  Every character stands for itself, with one exception: a dash that has a
member before it and does not stand directly before the closing bracket
joins that member and the character after it to a range.  The character that
ends a range is a member like any other, so it may start the next range, and
it may itself be a dash.
-/

namespace PatternAutomata.Bracket

/-- What the reader of a bracket expression looks for. -/
inductive Expectation where
  /-- A member or the closing bracket, after the given member if any. -/
  | member (previous : Option Char)
  /-- The end of the range that starts with the given character. -/
  | rangeEnd (first : Char)
deriving DecidableEq, Repr

/-- The member from which a dash starts a range: the previous one, unless the
dash stands directly before the closing bracket. -/
def rangeStart? (previous : Option Char) (character : Char)
    (rest : List Char) : Option Char :=
  if character = '-' ∧ rest.head? ≠ some ']' then previous else none

/-- Read on from the given position of a bracket expression.  The result is
the class together with the position of the closing bracket. -/
def readFrom (opening : Nat) :
    Nat → Expectation → CharacterClass → List Char →
      Except SyntaxError (CharacterClass × Nat)
  | _, _, _, [] => .error (.unterminatedClass opening)
  | position, .rangeEnd first, members, last :: rest =>
      if last < first then
        .error (.descendingRange first last position)
      else
        readFrom opening (position + 1) (.member (some last))
          (members.insertRange first last) rest
  | position, .member previous, members, character :: rest =>
      if character = ']' then
        if members.isEmpty then .error (.emptyClass opening)
        else .ok (members, position)
      else
        match rangeStart? previous character rest with
        | some first =>
            readFrom opening (position + 1) (.rangeEnd first) members rest
        | none =>
            readFrom opening (position + 1) (.member (some character))
              (members.insert character) rest

/-- Read the bracket expression that opens at the given position, from the
characters after its opening bracket. -/
def read (opening : Nat) (characters : List Char) :
    Except SyntaxError (CharacterClass × Nat) :=
  readFrom opening (opening + 1) (.member none) ∅ characters

end PatternAutomata.Bracket
