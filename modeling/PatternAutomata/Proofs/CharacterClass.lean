import Mathlib.Data.Char
import Mathlib.Data.Set.Card
import Mathlib.Order.Interval.Finset.Nat
import PatternAutomata.CharacterClass

/-!
# Character classes are unions

A class is put together by adding characters and ranges one after the other.
In whatever order this happens, and however the ranges overlap, the class
holds the characters that some addition covers, each of them once.

A range covers the characters with codes between those of its ends.  The codes
U+D800 to U+DFFF are a gap: a range that runs over them covers the characters
on both sides, 2048 fewer than it has codes.  A range that ends below its start
covers nothing.
-/

namespace PatternAutomata.CharacterClass

/-- What is added to a class at once. -/
inductive Addition where
  /-- A character. -/
  | one (character : Char)
  /-- The characters of a range, both ends included. -/
  | range (first last : Char)
deriving DecidableEq, Repr

variable {character first last : Char} {members : CharacterClass}
  {addition : Addition} {additions : List Addition}

namespace Addition

/-- The class with an addition. -/
def addTo (members : CharacterClass) : Addition → CharacterClass
  | one character => members.insert character
  | range first last => members.insertRange first last

/-- The addition covers a character. -/
def Covers : Addition → Char → Prop
  | one added, character => character = added
  | range first last, character =>
      first.toNat ≤ character.toNat ∧ character.toNat ≤ last.toNat

/-- An addition adds exactly what it covers. -/
theorem mem_addTo_iff :
    character ∈ addition.addTo members ↔
      character ∈ members ∨ addition.Covers character := by
  cases addition with
  | one added =>
      rw [addTo, Std.ExtTreeSet.mem_insert, Std.compare_eq_iff_eq, or_comm,
        eq_comm]
      rfl
  | range first last => exact mem_insertRange

end Addition

/-- The class that is put together by additions, made one after the other. -/
def ofAdditions (additions : List Addition) : CharacterClass :=
  additions.foldl Addition.addTo ∅

/-- One of the additions covers a character. -/
def CoveredBy (additions : List Addition) (character : Char) : Prop :=
  ∃ addition ∈ additions, addition.Covers character

/-- Additions to a class leave what it held. -/
theorem mem_foldl_addTo_iff (additions : List Addition) :
    character ∈ additions.foldl Addition.addTo members ↔
      character ∈ members ∨ CoveredBy additions character := by
  induction additions generalizing members with
  | nil => simp [CoveredBy]
  | cons addition additions others =>
      rw [List.foldl_cons, others, Addition.mem_addTo_iff, or_assoc]
      simp [CoveredBy]

theorem mem_ofAdditions_iff :
    character ∈ ofAdditions additions ↔ CoveredBy additions character := by
  simp [ofAdditions, mem_foldl_addTo_iff]

theorem pairwise_toList (members : CharacterClass) :
    members.toList.Pairwise (· < ·) := by
  have ordered : members.toList.Pairwise fun before after =>
      compare before after = .lt := Std.ExtTreeSet.ordered_toList
  exact ordered.imp compareOfLessAndEq_eq_lt.1

/-- A list that ascends has each of its characters once. -/
theorem ncard_of_pairwise {listed : List Char}
    (ascending : listed.Pairwise (· < ·)) :
    {character | character ∈ listed}.ncard = listed.length := by
  have distinct : listed.Nodup := ascending.imp ne_of_lt
  rw [← List.coe_toFinset, Set.ncard_coe_finset,
    List.toFinset_card_of_nodup distinct]

theorem ncard_members (members : CharacterClass) :
    {character | character ∈ members}.ncard = members.size := by
  rw [← Std.ExtTreeSet.length_toList,
    ← ncard_of_pairwise (pairwise_toList members)]
  simp only [Std.ExtTreeSet.mem_toList]

/-! ## Ranges -/

/-- What an addition contributes, wherever it is made among others. -/
def Contributes (addition : Addition) (characters : Set Char) : Prop :=
  ∀ before after : List Addition,
    {character | character ∈ ofAdditions (before ++ addition :: after)} =
      {character | character ∈ ofAdditions (before ++ after)} ∪ characters

theorem contributes_covers (addition : Addition) :
    Contributes addition {character | addition.Covers character} := by
  intro before after
  ext character
  simp only [mem_ofAdditions_iff, CoveredBy, Set.mem_ofPred_eq, Set.mem_union,
    List.mem_append, List.mem_cons]
  grind

/-- No character has a code in the gap. -/
theorem toNat_not_mem_gap (character : Char) :
    character.toNat < 0xD800 ∨ 0xDFFF < character.toNat := by
  rcases character.valid with below | ⟨above, -⟩
  · exact .inl below
  · exact .inr above

/-- The characters from one character up to the gap, and from the gap up to
another one. -/
def besideGap (first last : Char) : Set Char :=
  {character |
    first.toNat ≤ character.toNat ∧ character.toNat < 0xD800 ∨
      0xDFFF < character.toNat ∧ character.toNat ≤ last.toNat}

/-- The codes of the characters in a range. -/
theorem image_toNat_range (first last : Char) :
    Char.toNat '' {character | (Addition.range first last).Covers character} =
      (Finset.Icc first.toNat last.toNat \ Finset.Icc 0xD800 0xDFFF :
        Finset Nat) := by
  ext code
  simp only [Set.mem_image, Set.mem_ofPred_eq, Addition.Covers,
    Finset.coe_sdiff, Finset.coe_Icc, Set.mem_sdiff, Set.mem_Icc]
  constructor
  · rintro ⟨character, between, rfl⟩
    have outside := toNat_not_mem_gap character
    omega
  · rintro ⟨between, outside⟩
    have highest : last.toNat < 0x110000 := by
      rcases last.valid with below | ⟨-, below⟩
      · exact below.trans (by decide)
      · exact below
    have valid : code.isValidChar := by
      unfold Nat.isValidChar
      omega
    have same : (Char.ofNat code).toNat = code :=
      ofCode?_eq_some_iff.1 (if_pos valid)
    exact ⟨.ofNat code, by rwa [same], same⟩

/-- The range has ends on both sides of the gap. -/
def CrossesGap (first last : Char) : Prop :=
  first.toNat < 0xD800 ∧ 0xDFFF < last.toNat

instance : Decidable (CrossesGap first last) :=
  inferInstanceAs (Decidable (_ ∧ _))

/-- A range covers as many characters as it has codes, less the codes of the
gap if it runs over the gap. -/
theorem ncard_range (first last : Char) :
    {character | (Addition.range first last).Covers character}.ncard =
      last.toNat + 1 - first.toNat -
        if CrossesGap first last then 2048 else 0 := by
  have injective : Function.Injective Char.toNat :=
    fun _ _ => Char.toNat_inj.1
  rw [← Set.ncard_image_of_injective _ injective, image_toNat_range,
    Set.ncard_coe_finset, Finset.card_sdiff, Nat.card_Icc]
  congr 1
  split
  · next crossing =>
      have inside : Finset.Icc 0xD800 0xDFFF ⊆
          Finset.Icc first.toNat last.toNat :=
        Finset.Icc_subset_Icc crossing.1.le crossing.2.le
      rw [Finset.inter_eq_left.2 inside, Nat.card_Icc]
  · next beside =>
      -- No end of the range lies in the gap, so no code of the range does.
      have lower := toNat_not_mem_gap first
      have upper := toNat_not_mem_gap last
      rw [Finset.card_eq_zero, ← Finset.disjoint_iff_inter_eq_empty,
        Finset.disjoint_left]
      intro code gap between
      rw [Finset.mem_Icc] at gap between
      exact beside ⟨by omega, by omega⟩

/-- What is inserted for a range is covered, and nothing is inserted twice. -/
theorem length_between (first last : Char) :
    (between first last).length =
      last.toNat + 1 - first.toNat -
        if CrossesGap first last then 2048 else 0 := by
  rw [← ncard_range, ← ncard_of_pairwise (between_pairwise first last)]
  simp only [mem_between]
  rfl

theorem covers_eq_besideGap (crossing : CrossesGap first last) :
    {character | (Addition.range first last).Covers character} =
      besideGap first last := by
  ext character
  have outside := toNat_not_mem_gap character
  rcases crossing with ⟨below, above⟩
  simp only [Addition.Covers, besideGap, Set.mem_ofPred_eq]
  omega

/-- What a range contributes to a class. -/
structure RangeLaw (first last : Char) : Prop where
  /-- As many characters are inserted as there are codes in the range, less
  those of the gap. -/
  length_inserted : (between first last).length =
    last.toNat + 1 - first.toNat -
      if CrossesGap first last then 2048 else 0
  /-- A range that runs over the gap contributes the characters on both
  sides. -/
  acrossGap : CrossesGap first last →
    Contributes (.range first last) (besideGap first last)
  /-- They are 2048 fewer than the codes in the range. -/
  ncard_acrossGap : CrossesGap first last →
    (besideGap first last).ncard = last.toNat - first.toNat + 1 - 2048
  /-- A range that ends below its start contributes nothing. -/
  descending : last < first → Contributes (.range first last) ∅

theorem rangeLaw (first last : Char) : RangeLaw first last where
  length_inserted := length_between first last
  acrossGap crossing := by
    rw [← covers_eq_besideGap crossing]
    exact contributes_covers _
  ncard_acrossGap crossing := by
    have order : first.toNat ≤ last.toNat := by
      rcases crossing with ⟨below, above⟩
      omega
    rw [← covers_eq_besideGap crossing, ncard_range, if_pos crossing,
      Nat.sub_add_comm order]
  descending below := by
    have nothing : {character |
        (Addition.range first last).Covers character} = ∅ := by
      rw [Set.eq_empty_iff_forall_notMem]
      rintro character ⟨reached, inside⟩
      exact absurd (reached.trans inside) (Nat.not_le.2 below)
    rw [← nothing]
    exact contributes_covers _

/-! ## Unions -/

/-- The class is the union of what was added to it. -/
structure IsUnion (additions : List Addition) (members : CharacterClass) :
    Prop where
  /-- It contains the characters that some addition covers. -/
  contains_iff : ∀ character,
    members.contains character = true ↔ CoveredBy additions character
  /-- Its list consists of these characters. -/
  mem_toList_iff : ∀ character,
    character ∈ members.toList ↔ CoveredBy additions character
  /-- The list ascends. -/
  ascending : members.toList.Pairwise (· < ·)
  /-- The size of the class is their number. -/
  size_eq : members.size = {character | CoveredBy additions character}.ncard

theorem isUnion (additions : List Addition) :
    IsUnion additions (ofAdditions additions) where
  contains_iff character := by
    rw [Std.ExtTreeSet.contains_iff_mem, mem_ofAdditions_iff]
  mem_toList_iff character := by
    rw [Std.ExtTreeSet.mem_toList, mem_ofAdditions_iff]
  ascending := pairwise_toList _
  size_eq := by
    rw [← ncard_members]
    simp only [mem_ofAdditions_iff]

/-- A class that is put together by additions is their union, whatever they
are and in whatever order they are made; ranges contribute what they cover, and
classes with the same union are the same. -/
theorem ofAdditions_isUnion (additions others : List Addition)
    (first last : Char) :
    IsUnion additions (ofAdditions additions) ∧
    RangeLaw first last ∧
    (ofAdditions additions = ofAdditions others ↔
      ∀ character,
        CoveredBy additions character ↔ CoveredBy others character) := by
  refine ⟨isUnion additions, rangeLaw first last, ?_⟩
  rw [Std.ExtTreeSet.ext_mem_iff]
  simp only [mem_ofAdditions_iff]

/-- A range over the gap with two characters on either side, and a range that
ends below its start. -/
theorem ofAdditions_isUnion_acrossGap :
    CrossesGap (.ofNat 0xD7FE) (.ofNat 0xE001) ∧
    Contributes (.range (.ofNat 0xD7FE) (.ofNat 0xE001))
      (besideGap (.ofNat 0xD7FE) (.ofNat 0xE001)) ∧
    (besideGap (.ofNat 0xD7FE) (.ofNat 0xE001)).ncard = 4 ∧
    'a' < 'z' ∧ Contributes (.range 'z' 'a') ∅ := by
  have crossing : CrossesGap (.ofNat 0xD7FE) (.ofNat 0xE001) := by decide
  have below : 'a' < 'z' := by decide
  have upward : RangeLaw (.ofNat 0xD7FE) (.ofNat 0xE001) :=
    (ofAdditions_isUnion [] [] _ _).2.1
  have downward : RangeLaw 'z' 'a' := (ofAdditions_isUnion [] [] _ _).2.1
  exact ⟨crossing, upward.acrossGap crossing, upward.ncard_acrossGap crossing,
    below, downward.descending below⟩

example : (ofAdditions [.range 'b' 'd', .one 'x', .range 'c' 'e',
    .range 'z' 'a']).toList = ['b', 'c', 'd', 'e', 'x'] := by decide

end PatternAutomata.CharacterClass
