import Std.Data.ExtTreeMap

/-!
# Edge labels

An edge of a nondeterministic automaton reads one character or nothing.
-/

namespace PatternAutomata

/-- The label of an edge. -/
inductive Label where
  /-- The edge reads nothing. -/
  | epsilon
  /-- The edge reads one character. -/
  | char (character : Char)
deriving DecidableEq, Repr

namespace Label

/-- The character that the label reads, if it reads one. -/
def char? : Label → Option Char
  | epsilon => none
  | char character => some character

/-- The label reads nothing. -/
def isEpsilon : Label → Bool
  | epsilon => true
  | char _ => false

/-- The written form of the label. -/
def text : Label → String
  | epsilon => "epsilon"
  | char character => String.singleton character

/-- The place of the label in the order of labels. -/
def rank : Label → Nat
  | epsilon => 0
  | char character => character.toNat + 1

theorem rank_injective {first second : Label}
    (same : first.rank = second.rank) : first = second := by
  cases first <;> cases second <;> simp_all [rank, Char.toNat_inj]

/-- The empty label comes first, characters follow by their codes. -/
instance : Ord Label := ⟨compareOn rank⟩

instance : Std.TransOrd Label :=
  inferInstanceAs (Std.TransCmp (compareOn rank))

instance : Std.LawfulEqOrd Label where
  eq_of_compare equal :=
    rank_injective (Std.LawfulEqOrd.eq_of_compare equal)

/-- Labels in their order, repetitions kept. -/
def sort (labels : List Label) : List Label :=
  labels.mergeSort fun first second => (compare first second).isLE

end Label

end PatternAutomata
