import PatternAutomata.Nfa.Assembly
import PatternAutomata.Pattern.Parser

/-!
# The automaton of a pattern

A regular expression becomes a fragment by composing the fragments of its
parts, the operands of every operator before the operator itself.  States are
numbered in this order.  A pattern that is refused leaves out the numbers that
its complete operands would have taken.
-/

namespace PatternAutomata

/-- The fragment of a regular expression. -/
def Regex.assemble : Regex → Assembly → Fragment × Assembly
  | .literal character, assembly => assembly.literal character
  | .oneOf members, assembly => assembly.oneOf members
  | .concatenation left right, assembly =>
      let (leftPart, withLeft) := left.assemble assembly
      let (rightPart, withBoth) := right.assemble withLeft
      withBoth.concatenate leftPart rightPart
  | .alternation left right, assembly =>
      let (leftPart, withLeft) := left.assemble assembly
      let (rightPart, withBoth) := right.assemble withLeft
      withBoth.alternate leftPart rightPart
  | .repeated repetition body, assembly =>
      let (bodyPart, withBody) := body.assemble assembly
      withBody.repeated repetition bodyPart

/-- The fragment of an expression takes as many numbers as it has states. -/
theorem Regex.assemble_next (regex : Regex) (assembly : Assembly) :
    (regex.assemble assembly).2.supply.next =
      assembly.supply.next + regex.stateCount := by
  induction regex generalizing assembly with
  | literal character => rfl
  | oneOf members => rfl
  | concatenation left right leftTakes rightTakes =>
      change (right.assemble (left.assemble assembly).2).2.supply.next = _
      rw [rightTakes, leftTakes, stateCount, Nat.add_assoc]
  | alternation left right leftTakes rightTakes =>
      change (right.assemble (left.assemble assembly).2).2.supply.next + 2 = _
      rw [rightTakes, leftTakes, stateCount, Nat.add_assoc, Nat.add_assoc,
        Nat.add_assoc]
  | repeated repetition body bodyTakes =>
      change (body.assemble assembly).2.supply.next + 2 = _
      rw [bodyTakes, stateCount, Nat.add_assoc]

namespace Nfa

/-- The automaton between the start and the final state of a fragment. -/
def ofFragment (fragment : Fragment) (nfa : Nfa) : Nfa :=
  { nfa with start := fragment.start, final := fragment.final }

/-- The automaton of a regular expression, with the supply afterwards. -/
def ofRegex (regex : Regex) (supply : IdSupply) : Nfa × IdSupply :=
  let (fragment, assembly) := regex.assemble (Assembly.start supply)
  (ofFragment fragment assembly.nfa, assembly.supply)

/-- The automaton of a pattern, with the supply afterwards. -/
def ofPattern (pattern : List Char) (supply : IdSupply) :
    Except SyntaxError Nfa × IdSupply :=
  match Parser.parse pattern with
  | .ok regex =>
      let (nfa, rest) := ofRegex regex supply
      (.ok nfa, rest)
  | .error failure => (.error failure.error, supply.skip failure.stateCount)

end Nfa

end PatternAutomata
