import Std.Data.ExtTreeSet

/-!
# Character classes

A character class is a set of characters, put together from single characters
and from ranges of character codes.  The codes U+D800 to U+DFFF belong to no
character, and a range that runs over them passes them by.  The main statement
is that a range adds exactly the characters between its ends.
-/

namespace PatternAutomata

/-- A set of characters. -/
abbrev CharacterClass := Std.ExtTreeSet Char

namespace CharacterClass

theorem exists_mem {members : CharacterClass} (nonempty : members ≠ ∅) :
    ∃ character, character ∈ members := by
  rw [← Std.ExtTreeSet.isSome_min?_iff_ne_empty,
    Option.isSome_iff_exists] at nonempty
  rcases nonempty with ⟨least, found⟩
  exact ⟨least, Std.ExtTreeSet.min?_mem found⟩

/-- The character with the given code, if the code belongs to one. -/
def ofCode? (code : Nat) : Option Char :=
  if code.isValidChar then some (Char.ofNat code) else none

theorem ofCode?_eq_some_iff {code : Nat} {character : Char} :
    ofCode? code = some character ↔ character.toNat = code := by
  unfold ofCode?
  constructor
  · split
    · rintro ⟨⟩
      rename_i valid
      rw [Char.ofNat, dif_pos valid]
      rfl
    · nofun
  · rintro rfl
    rw [if_pos (show character.toNat.isValidChar from character.valid),
      Char.ofNat_toNat]

/-- The characters from `first` to `last`, both included, in ascending order.
There are none if the range ends below its start. -/
def between (first last : Char) : List Char :=
  (List.range' first.toNat (last.toNat + 1 - first.toNat)).filterMap ofCode?

@[simp]
theorem mem_between {first last character : Char} :
    character ∈ between first last ↔
      first ≤ character ∧ character ≤ last := by
  simp only [between, List.mem_filterMap, ofCode?_eq_some_iff,
    exists_eq_right', List.mem_range'_1]
  change _ ↔ first.toNat ≤ character.toNat ∧ character.toNat ≤ last.toNat
  omega

theorem between_pairwise (first last : Char) :
    (between first last).Pairwise (· < ·) := by
  refine List.Pairwise.filterMap ofCode? ?_ (List.pairwise_lt_range' _)
  intro code later below character found laterCharacter laterFound
  rw [ofCode?_eq_some_iff] at found laterFound
  subst found laterFound
  exact below

/-- Add the characters from `first` to `last`, both included. -/
def insertRange (first last : Char) (members : CharacterClass) :
    CharacterClass :=
  members.insertMany (between first last)

/-- A range adds exactly the characters between its ends. -/
@[simp]
theorem mem_insertRange {first last character : Char}
    {members : CharacterClass} :
    character ∈ members.insertRange first last ↔
      character ∈ members ∨ first ≤ character ∧ character ≤ last := by
  rw [insertRange, Std.ExtTreeSet.mem_insertMany_list, List.contains_iff_mem,
    mem_between]

end CharacterClass

end PatternAutomata
