import PatternAutomata.Text.Basic
import Std.Data.ExtTreeSet

/-!
# Sets of state numbers

States of an automaton are numbered.  A set of nondeterministic states is the
identity of a deterministic state, so sets with the same members are the same,
and a set has a place in an order and a text.
-/

namespace PatternAutomata

/-- The number of a state. -/
abbrev StateId := Nat

/-- A finite set of state numbers. -/
abbrev StateSet := Std.ExtTreeSet StateId

namespace StateSet

/-- Sets are ordered by their ascending lists, and these lexicographically. -/
instance : Ord StateSet := ⟨compareOn Std.ExtTreeSet.toList⟩

instance : Std.TransOrd StateSet :=
  inferInstanceAs (Std.TransCmp (compareOn Std.ExtTreeSet.toList))

instance : Std.LawfulEqOrd StateSet where
  eq_of_compare equal :=
    Std.ExtTreeSet.toList_inj.1 (Std.LawfulEqOrd.eq_of_compare equal)

theorem exists_mem {states : StateSet} (nonempty : states ≠ ∅) :
    ∃ id, id ∈ states := by
  rw [← Std.ExtTreeSet.isSome_min?_iff_ne_empty,
    Option.isSome_iff_exists] at nonempty
  rcases nonempty with ⟨least, found⟩
  exact ⟨least, Std.ExtTreeSet.min?_mem found⟩

theorem pairwise_toList (states : StateSet) :
    states.toList.Pairwise (· < ·) :=
  Std.ExtTreeSet.ordered_toList.imp Nat.compare_eq_lt.1

/-- The numbers in ascending order, separated by commas. -/
def text (states : StateSet) : String :=
  Text.numbers "," states.toList

end StateSet

end PatternAutomata
