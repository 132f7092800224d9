import Mathlib.Data.List.Destutter
import Mathlib.Data.List.Sort
import Mathlib.Tactic.TFAE
import PatternAutomata.Proofs.Text.Reading
import PatternAutomata.StateSet
import Std.Data.TreeSet

/-!
# Sets of state numbers are normal forms

Lists of numbers that differ only in order and repetitions are collected into
the same set.  The set keeps the numbers as sorting a list and dropping
repeated neighbours leaves them, so that halving finds exactly the members.
The text of a set tells its members, so different sets have different texts.
-/

namespace PatternAutomata.StateSet

variable {ids : List StateId} {states other : StateSet} {id : StateId}

/-! ## Numbers in ascending order -/

/-- The numbers of a list, sorted, with repeated neighbours dropped. -/
def arranged (ids : List StateId) : List StateId :=
  ids.mergeSort.destutter (· ≠ ·)

theorem pairwise_mergeSort (ids : List StateId) :
    ids.mergeSort.Pairwise (· ≤ ·) :=
  ids.pairwise_mergeSort' (· ≤ ·)

/-- Sorting makes neighbours of equal numbers, so no repetition is left. -/
theorem arranged_eq_dedup (ids : List StateId) :
    arranged ids = ids.mergeSort.dedup :=
  (pairwise_mergeSort ids).destutter_eq_dedup

@[simp]
theorem mem_arranged : id ∈ arranged ids ↔ id ∈ ids := by
  rw [arranged_eq_dedup, List.mem_dedup, List.mem_mergeSort]

theorem pairwise_arranged (ids : List StateId) :
    (arranged ids).Pairwise (· < ·) := by
  have sorted : (arranged ids).Pairwise (· ≤ ·) :=
    (pairwise_mergeSort ids).sublist (List.destutter_sublist _ _)
  have distinct : (arranged ids).Nodup := by
    rw [arranged_eq_dedup]
    exact List.nodup_dedup _
  exact sorted.imp₂ (fun _ _ => lt_of_le_of_ne) distinct

/-- Ascending numbers with the members of a list are the arranged list. -/
theorem eq_arranged_iff {numbers : List StateId}
    (ascending : numbers.Pairwise (· < ·)) :
    numbers = arranged ids ↔ ∀ id, id ∈ numbers ↔ id ∈ ids := by
  constructor
  · rintro rfl id
    exact mem_arranged
  · intro same
    apply ascending.eq_of_mem_iff (pairwise_arranged ids)
    intro id
    rw [same, mem_arranged]

theorem toList_ofList (ids : List StateId) :
    (Std.ExtTreeSet.ofList ids).toList = arranged ids := by
  rw [eq_arranged_iff (pairwise_toList _)]
  intro id
  rw [Std.ExtTreeSet.mem_toList, Std.ExtTreeSet.mem_ofList,
    List.contains_iff_mem]

/-! ## Searching by halving -/

section Search

variable {numbers : Array StateId} {first middle bound : Nat}

theorem getElem_lt_getElem_iff
    (ascending : numbers.toList.Pairwise (· < ·)) {place later : Nat}
    (inside : place < numbers.size) (laterInside : later < numbers.size) :
    numbers[place] < numbers[later] ↔ place < later :=
  ascending.sortedLT.strictMono_get.lt_iff_lt
    (a := ⟨place, inside⟩) (b := ⟨later, laterInside⟩)

/-- The number stands at one of the places from the first one up to a bound,
which is not included. -/
def StandsIn (numbers : Array StateId) (first bound : Nat) (id : StateId) :
    Prop :=
  ∃ place, first ≤ place ∧ place < bound ∧ numbers[place]? = some id

theorem not_standsIn_of_le (empty : bound ≤ first) :
    ¬ StandsIn numbers first bound id := by
  rintro ⟨place, reached, before, -⟩
  omega

theorem standsIn_all_iff :
    StandsIn numbers 0 numbers.size id ↔ id ∈ numbers := by
  rw [Array.mem_iff_getElem?]
  constructor
  · rintro ⟨place, -, -, held⟩
    exact ⟨place, held⟩
  · rintro ⟨place, held⟩
    rcases Array.getElem?_eq_some_iff.1 held with ⟨inside, -⟩
    exact ⟨place, Nat.zero_le _, inside, held⟩

/-- A number above the one in the middle can only stand after it. -/
theorem standsIn_iff_after (ascending : numbers.toList.Pairwise (· < ·))
    (bound : Nat) (inside : middle < numbers.size) (reached : first ≤ middle)
    (below : numbers[middle] < id) :
    StandsIn numbers first bound id ↔
      StandsIn numbers (middle + 1) bound id := by
  constructor
  · rintro ⟨place, -, before, held⟩
    rcases Array.getElem?_eq_some_iff.1 held with ⟨placeInside, rfl⟩
    rw [getElem_lt_getElem_iff ascending] at below
    exact ⟨place, below, before, held⟩
  · rintro ⟨place, after, before, held⟩
    exact ⟨place, by omega, before, held⟩

/-- A number below the one in the middle can only stand before it. -/
theorem standsIn_iff_before (ascending : numbers.toList.Pairwise (· < ·))
    (first : Nat) (inside : middle < numbers.size) (reached : middle < bound)
    (above : id < numbers[middle]) :
    StandsIn numbers first bound id ↔ StandsIn numbers first middle id := by
  constructor
  · rintro ⟨place, after, -, held⟩
    rcases Array.getElem?_eq_some_iff.1 held with ⟨placeInside, rfl⟩
    rw [getElem_lt_getElem_iff ascending] at above
    exact ⟨place, after, above, held⟩
  · rintro ⟨place, after, before, held⟩
    exact ⟨place, after, by omega, held⟩

/-- No round of the search loses a place at which the number can stand. -/
theorem binSearchAux_iff (ascending : numbers.toList.Pairwise (· < ·))
    (first : Fin (numbers.size + 1)) (last : Fin numbers.size)
    (order : first.1 ≤ last.1) :
    Array.binSearchAux (· < ·) Option.isSome numbers id first last order ↔
      StandsIn numbers first (last + 1) id := by
  -- The induction follows the rounds.  The number in the middle tells which
  -- half is left; the search stops when that half has no places.
  fun_induction Array.binSearchAux (· < ·) Option.isSome numbers id first last
    order with
  | case1 first last order middle value below next _ found =>
      have after := standsIn_iff_after ascending (last + 1) (by omega)
        (show first.1 ≤ middle by omega) (of_decide_eq_true below)
      rw [found, after]
  | case2 first last order middle value below stop =>
      have after := standsIn_iff_after ascending (last + 1) (by omega)
        (show first.1 ≤ middle by omega) (of_decide_eq_true below)
      simpa [after] using not_standsIn_of_le (by omega)
  | case3 first last order middle value _ above stop =>
      have before := standsIn_iff_before ascending first (by omega)
        (show middle < last + 1 by omega) (of_decide_eq_true above)
      simpa [before] using not_standsIn_of_le (by omega)
  | case4 first last order middle value _ above next _ found =>
      have before := standsIn_iff_before ascending first (by omega)
        (show middle < last + 1 by omega) (of_decide_eq_true above)
      have whole : middle - 1 + 1 = middle := by omega
      rw [found, before, whole]
  | case5 first last order middle value notBelow notAbove =>
      have same : value = id := by
        simp only [decide_eq_true_eq, not_lt] at notBelow notAbove
        exact le_antisymm notAbove notBelow
      have stands : StandsIn numbers first (last + 1) id :=
        ⟨middle, by omega, by omega, by simp [← same, value]⟩
      simp [stands]

/-- Halving finds exactly the numbers of an ascending array. -/
theorem binSearchContains_iff
    (ascending : numbers.toList.Pairwise (· < ·)) :
    numbers.binSearchContains id (· < ·) ↔ id ∈ numbers := by
  unfold Array.binSearchContains
  split
  · have last : numbers.size - 1 < numbers.size := by omega
    have whole : numbers.size - 1 + 1 = numbers.size := by omega
    simp [last, whole, binSearchAux_iff ascending, standsIn_all_iff]
  · have empty : numbers = #[] := Array.eq_empty_of_size_eq_zero (by omega)
    simp [empty]

theorem binSearchContains_toArray (states : StateSet) (id : StateId) :
    states.toList.toArray.binSearchContains id (· < ·) =
      states.contains id := by
  have ascending : states.toList.toArray.toList.Pairwise (· < ·) :=
    pairwise_toList states
  rw [Bool.eq_iff_iff, binSearchContains_iff ascending]
  simp

end Search

/-! ## Texts -/

/-- The members are read back from the text. -/
theorem readNumbers_text (states : StateSet) :
    Text.readNumbers ',' states.text.toList = states.toList :=
  Text.readNumbers_numbers (by simp) (by decide) states.toList

theorem text_inj : states.text = other.text ↔ states = other := by
  constructor
  · intro same
    apply Std.ExtTreeSet.toList_inj.1
    rw [← readNumbers_text states, same, readNumbers_text]
  · exact congrArg text

/-! ## Normal forms -/

theorem eq_ofList_iff :
    states = .ofList ids ↔ ∀ id, id ∈ states ↔ id ∈ ids := by
  rw [Std.ExtTreeSet.ext_mem_iff]
  simp

/-- The set is the normal form of a list of numbers. -/
structure IsNormalForm (ids : List StateId) (states : StateSet) : Prop where
  /-- The kept numbers are those of the list, sorted, with repeated neighbours
  dropped. -/
  toList_eq : states.toList = arranged ids
  /-- The kept numbers ascend. -/
  ascending : states.toList.Pairwise (· < ·)
  /-- The set contains the numbers of the list, and no others. -/
  contains_iff : ∀ id, states.contains id = true ↔ id ∈ ids
  /-- Halving the kept numbers tells what the set contains. -/
  halving : ∀ id,
    states.toList.toArray.binSearchContains id (· < ·) = states.contains id
  /-- There is no other set with the same numbers. -/
  unique : ∀ other : StateSet,
    other = states ↔ ∀ id, id ∈ other ↔ id ∈ ids
  /-- A search tree that holds the same numbers, whatever its shape, gives
  them as the set keeps them. -/
  toList_tree : ∀ tree : Std.TreeSet StateId,
    tree.toList = states.toList ↔ ∀ id, id ∈ tree ↔ id ∈ ids

/-- Collecting the numbers of a list gives its normal form.  Two lists have the
same numbers exactly if they are collected into the same set, and exactly if the
texts of the two sets are the same. -/
theorem ofList_isNormalForm (first second : List StateId) :
    IsNormalForm first (.ofList first) ∧
    List.TFAE [(.ofList first : StateSet) = .ofList second,
      ∀ id, id ∈ first ↔ id ∈ second,
      text (.ofList first) = text (.ofList second)] := by
  constructor
  · constructor
    case toList_eq => exact toList_ofList first
    case ascending => exact pairwise_toList _
    case contains_iff => simp
    case halving => exact binSearchContains_toArray _
    case unique => exact fun _ => eq_ofList_iff
    case toList_tree =>
      intro tree
      have ascending : tree.toList.Pairwise (· < ·) :=
        Std.TreeSet.ordered_toList.imp Nat.compare_eq_lt.1
      rw [toList_ofList, eq_arranged_iff ascending]
      simp
  · tfae_have 1 ↔ 2 := by
      rw [eq_ofList_iff]
      simp
    tfae_have 1 ↔ 3 := text_inj.symm
    tfae_finish

example : text (.ofList [5, 1, 3, 1]) = "1,3,5" := by decide

end PatternAutomata.StateSet
