import Mathlib.Data.List.Sort
import Mathlib.Logic.Function.Basic
import PatternAutomata.StateSet
import Std.Data.ExtTreeMap

/-!
# Moving sets of state numbers

Moving every number of a set up by the same amount keeps the order of the
numbers, and different sets stay different.  A table is the image of another
one if its entries are those of the other, with keys and values translated.
-/

namespace PatternAutomata

namespace StateSet

variable {amount : Nat} {states other : StateSet} {id : StateId}

/-- The set with every number moved up by an amount. -/
def shift (amount : Nat) (states : StateSet) : StateSet :=
  Std.ExtTreeSet.ofList (states.toList.map (· + amount))

theorem mem_shift_iff :
    id ∈ states.shift amount ↔ ∃ member ∈ states, member + amount = id := by
  simp [shift]

@[simp]
theorem add_mem_shift_iff :
    id + amount ∈ states.shift amount ↔ id ∈ states := by
  simp [mem_shift_iff]

theorem shift_ofList (amount : Nat) (ids : List StateId) :
    shift amount (Std.ExtTreeSet.ofList ids) =
      Std.ExtTreeSet.ofList (ids.map (· + amount)) := by
  ext id
  simp [mem_shift_iff]

@[simp]
theorem shift_empty (amount : Nat) : shift amount ∅ = ∅ := by
  ext id
  simp [mem_shift_iff]

theorem shift_insert (amount : Nat) (states : StateSet) (id : StateId) :
    shift amount (states.insert id) =
      (states.shift amount).insert (id + amount) := by
  ext other
  simp [mem_shift_iff]

theorem shift_insertMany (amount : Nat) (states : StateSet)
    (ids : List StateId) :
    shift amount (states.insertMany ids) =
      (states.shift amount).insertMany (ids.map (· + amount)) := by
  ext other
  simp [mem_shift_iff, Std.ExtTreeSet.mem_insertMany_list]
  grind

/-- The numbers keep their order. -/
theorem toList_shift (amount : Nat) (states : StateSet) :
    (states.shift amount).toList = states.toList.map (· + amount) := by
  apply (pairwise_toList _).eq_of_mem_iff
  · rw [List.pairwise_map]
    exact (pairwise_toList states).imp (Nat.add_lt_add_right · amount)
  · intro id
    simp [mem_shift_iff]

theorem shift_injective (amount : Nat) :
    Function.Injective (shift amount) := by
  intro states other same
  ext id
  have member : id + amount ∈ states.shift amount ↔
      id + amount ∈ other.shift amount := by rw [same]
  rwa [add_mem_shift_iff, add_mem_shift_iff] at member

@[simp]
theorem isEmpty_shift : (states.shift amount).isEmpty = states.isEmpty := by
  rw [← Std.ExtTreeSet.isEmpty_toList, toList_shift, List.isEmpty_map,
    Std.ExtTreeSet.isEmpty_toList]

end StateSet

/-! ## Translated tables -/

/-- Changing an entry and translating go together. -/
theorem map_modify {α β : Type} (values : Array α) (place : Nat)
    {image : α → β} {change : α → α} {imageChange : β → β}
    (same : ∀ value, image (change value) = imageChange (image value)) :
    (values.modify place change).map image =
      (values.map image).modify place imageChange := by
  apply Array.ext_getElem?
  intro other
  simp only [Array.getElem?_map, Array.getElem?_modify]
  split
  · rw [Option.map_map, Option.map_map]
    congr 1
    funext value
    exact same value
  · rfl

theorem map_empty {κ τ : Type} [Ord κ] [Std.TransOrd κ] (image : τ → τ) :
    ((∅ : Std.ExtTreeMap κ τ).map fun _ => image) = ∅ := by
  rw [Std.ExtTreeMap.eq_empty_iff_forall_not_mem]
  simp

/-- Inserting an entry and translating go together. -/
theorem map_insert {κ τ : Type} [Ord κ] [Std.TransOrd κ] [Std.LawfulEqOrd κ]
    [DecidableEq κ] (row : Std.ExtTreeMap κ τ) (key : κ) (entry : τ)
    (image : τ → τ) :
    ((row.insert key entry).map fun _ => image) =
      (row.map fun _ => image).insert key (image entry) := by
  apply Std.ExtTreeMap.ext_getElem?
  intro other
  simp only [Std.ExtTreeMap.getElem?_map, Std.ExtTreeMap.getElem?_insert]
  split
  · rfl
  · rfl

/-- The entries of a table are those of another one, with keys and values
translated. -/
def IsImage {κ τ : Type} [Ord κ] [Std.TransOrd κ] (key : κ → κ)
    (value : τ → τ) (table image : Std.ExtTreeMap κ τ) : Prop :=
  ∀ (found : κ) (entry : τ), image[found]? = some entry ↔
    ∃ old oldEntry, table[old]? = some oldEntry ∧
      key old = found ∧ value oldEntry = entry

namespace IsImage

variable {κ τ : Type} [Ord κ] [Std.TransOrd κ] {key : κ → κ} {value : τ → τ}
  {table image : Std.ExtTreeMap κ τ}

theorem empty : IsImage key value (∅ : Std.ExtTreeMap κ τ) ∅ := by
  intro found entry
  simp

/-- Look-ups in the image are translated look-ups. -/
theorem getElem? (isImage : IsImage key value table image)
    (injective : Function.Injective key) (old : κ) :
    image[key old]? = table[old]?.map value := by
  apply Option.ext
  intro entry
  rw [isImage, Option.map_eq_some_iff]
  constructor
  · rintro ⟨other, oldEntry, known, same, translated⟩
    rw [injective same] at known
    exact ⟨oldEntry, known, translated⟩
  · rintro ⟨oldEntry, known, translated⟩
    exact ⟨old, oldEntry, known, rfl, translated⟩

/-- Changes of corresponding entries give corresponding tables. -/
theorem alter [Std.LawfulEqOrd κ] [DecidableEq κ]
    (isImage : IsImage key value table image)
    (injective : Function.Injective key) (old : κ)
    {change imageChange : Option τ → Option τ}
    (changes : ∀ held,
      imageChange (held.map value) = (change held).map value) :
    IsImage key value (table.alter old change)
      (image.alter (key old) imageChange) := by
  intro found entry
  simp only [Std.ExtTreeMap.getElem?_alter, Std.compare_eq_iff_eq]
  by_cases same : key old = found
  · rw [if_pos same, isImage.getElem? injective, changes,
      Option.map_eq_some_iff]
    constructor
    · rintro ⟨oldEntry, changed, translated⟩
      exact ⟨old, oldEntry, by rw [if_pos rfl]; exact changed, same,
        translated⟩
    · rintro ⟨other, oldEntry, known, otherSame, translated⟩
      rw [if_pos (injective (same.trans otherSame.symm))] at known
      exact ⟨oldEntry, known, translated⟩
  · rw [if_neg same, isImage]
    constructor
    · rintro ⟨other, oldEntry, known, rfl, translated⟩
      refine ⟨other, oldEntry, ?_, rfl, translated⟩
      rwa [if_neg fun equal => same (congrArg key equal)]
    · rintro ⟨other, oldEntry, known, rfl, translated⟩
      rw [if_neg fun equal => same (congrArg key equal)] at known
      exact ⟨other, oldEntry, known, rfl, translated⟩

theorem insert [Std.LawfulEqOrd κ] [DecidableEq κ]
    (isImage : IsImage key value table image)
    (injective : Function.Injective key) (old : κ) (entry : τ) :
    IsImage key value (table.insert old entry)
      (image.insert (key old) (value entry)) := by
  have replaced : IsImage key value (table.alter old fun _ => some entry)
      (image.alter (key old) fun _ => some (value entry)) :=
    isImage.alter injective old fun _ => rfl
  intro found other
  have both := replaced found other
  simp only [Std.ExtTreeMap.getElem?_alter, Std.ExtTreeMap.getElem?_insert]
    at both ⊢
  exact both

end IsImage

end PatternAutomata
