import PatternAutomata.StateSet

/-!
# Supplies of state numbers

States are numbered consecutively in the order of their creation.  A supply
remembers the next number; automata made from one supply have disjoint ranges
of numbers.

Numbers are unbounded here.  A machine keeps the next number in a word, so the
greatest number of a word is never handed out: there is no number after it.
-/

namespace PatternAutomata

/-- A supply of consecutive state numbers. -/
structure IdSupply where
  /-- The number that is handed out next. -/
  next : StateId
deriving DecidableEq, Repr

namespace IdSupply

/-- The supply whose first number is given. -/
def startingAt (first : StateId) : IdSupply := ⟨first⟩

/-- The supply that starts at zero. -/
def fresh : IdSupply := startingAt 0

/-- Hand out a number. -/
def take (supply : IdSupply) : StateId × IdSupply :=
  (supply.next, ⟨supply.next + 1⟩)

/-- The greatest number of a word of 64 bits. -/
def wordLimit : StateId := UInt64.size - 1

/-- Hand out a number, unless the number after it exceeds the limit. -/
def take? (limit : StateId) (supply : IdSupply) :
    Option (StateId × IdSupply) :=
  if supply.next < limit then some supply.take else none

/-- Leave out the given count of numbers. -/
def skip (count : Nat) (supply : IdSupply) : IdSupply :=
  ⟨supply.next + count⟩

/-- Start over at zero. -/
def reset (_ : IdSupply) : IdSupply := fresh

end IdSupply

end PatternAutomata
