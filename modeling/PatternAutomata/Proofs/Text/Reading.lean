import Mathlib.Data.List.Basic
import PatternAutomata.Text.Basic

/-!
# Reading texts

A reader takes what it knows from the beginning of a text and gives what
follows.  Numbers are written with decimal digits, so a number ends where the
digits end.  A list of numbers can be read back if the separator is no digit,
because it then occurs between the numbers only.
-/

namespace PatternAutomata.Text

/-- What follows an expected text. -/
def readText (expected : String) (text : List Char) : Option (List Char) :=
  text.dropPrefix? expected.toList

@[simp]
theorem readText_append (expected : String) (rest : List Char) :
    readText expected (expected.toList ++ rest) = some rest :=
  List.dropPrefix?_append_of_beq rest (beq_self_eq_true _)

/-- As many items as there are at the beginning of a text, and what follows
them. -/
def readMany {α : Type} (read : List Char → Option (α × List Char))
    (text : List Char) : List α × List Char :=
  match read text with
  | none => ([], text)
  | some (item, rest) =>
      if rest.length < text.length then
        let (items, left) := readMany read rest
        (item :: items, left)
      else ([], text)
termination_by text.length

/-- What is written for an item is read back, whatever follows it. -/
def Reads {α β : Type} (read : List Char → Option (α × List Char))
    (write : β → List Char) (value : β → α) : Prop :=
  ∀ item rest, read (write item ++ rest) = some (value item, rest)

/-- What is written for an item is read back if something suitable follows
it. -/
def ReadsBefore {α β : Type} (follows : List Char → Prop)
    (read : List Char → Option (α × List Char)) (write : β → List Char)
    (value : β → α) : Prop :=
  ∀ item rest, follows rest →
    read (write item ++ rest) = some (value item, rest)

/-- Items that are read back one by one are read back one after the other, if
an item may follow another one. -/
theorem ReadsBefore.readMany {α β : Type} {follows : List Char → Prop}
    {read : List Char → Option (α × List Char)} {write : β → List Char}
    {value : β → α} {left : List Char}
    (reads : ReadsBefore follows read write value)
    (starts : ∀ item rest, follows (write item ++ rest))
    (finishes : follows left) (ended : read left = none) (items : List β) :
    Text.readMany read (items.flatMap write ++ left) =
      (items.map value, left) := by
  induction items with
  | nil => simp [Text.readMany, ended]
  | cons item items others =>
      -- An item without text would also be read from what is left.
      have visible : write item ≠ [] := by
        intro silent
        have again := reads item left finishes
        simp [silent, ended] at again
      have shorter : (items.flatMap write ++ left).length <
          (write item ++ (items.flatMap write ++ left)).length := by
        simp [List.length_pos_iff.2 visible]
      have next : follows (items.flatMap write ++ left) := by
        cases items with
        | nil => exact finishes
        | cons second items =>
            rw [List.flatMap_cons, List.append_assoc]
            exact starts second _
      rw [List.flatMap_cons, List.append_assoc, Text.readMany,
        reads item _ next]
      simp only [shorter, if_true, others, List.map_cons]

/-- Items that are read back one by one are read back one after the other. -/
theorem Reads.readMany {α β : Type}
    {read : List Char → Option (α × List Char)} {write : β → List Char}
    {value : β → α} {left : List Char} (reads : Reads read write value)
    (ended : read left = none) (items : List β) :
    Text.readMany read (items.flatMap write ++ left) =
      (items.map value, left) := by
  have before : ReadsBefore (fun _ => True) read write value :=
    fun item rest _ => reads item rest
  exact before.readMany (fun _ _ => trivial) trivial ended items

/-- The characters that belong to a text are taken and dropped up to its
end. -/
theorem takeWhile_dropWhile_append {belongs : Char → Bool}
    {front rest : List Char}
    (inside : ∀ character ∈ front, belongs character = true)
    (ended : ∀ character ∈ rest.head?, belongs character = false) :
    (front ++ rest).takeWhile belongs = front ∧
      (front ++ rest).dropWhile belongs = rest := by
  rw [List.takeWhile_append_of_pos inside, List.dropWhile_append_of_pos inside]
  cases rest with
  | nil => simp
  | cons head tail => simp [ended head rfl]

/-! ## Numbers -/

/-- The number at the beginning of a text, with what follows its digits. -/
def readNumber (text : List Char) : Nat × List Char :=
  (Nat.ofDigitChars 10 (text.takeWhile Char.isDigit) 0,
    text.dropWhile Char.isDigit)

/-- The numbers of a text that has a separator between them. -/
def readNumbers (separator : Char) (text : List Char) : List Nat :=
  if text.isEmpty then []
  else
    (text.splitOn separator).map fun digits => Nat.ofDigitChars 10 digits 0

/-- No digit comes next. -/
def EndsNumber (rest : List Char) : Prop :=
  ∀ character ∈ rest.head?, character.isDigit = false

theorem toList_toString (number : Nat) :
    (toString number).toList = Nat.toDigits 10 number := by
  simp

theorem isDigit_of_mem {number : Nat} {character : Char}
    (member : character ∈ (toString number).toList) :
    character.isDigit = true := by
  rw [toList_toString] at member
  exact Nat.isDigit_of_mem_toDigits (by decide) (by decide) member

theorem ofDigitChars_toList (number : Nat) :
    Nat.ofDigitChars 10 (toString number).toList 0 = number := by
  rw [toList_toString]
  exact Nat.ofDigitChars_toDigits (by decide) (by decide)

/-- A number is read back if no digit follows it. -/
theorem readNumber_append (number : Nat) {rest : List Char}
    (ended : EndsNumber rest) :
    readNumber ((toString number).toList ++ rest) = (number, rest) := by
  have digits : ∀ character ∈ (toString number).toList,
      character.isDigit = true := fun _ => isDigit_of_mem
  rcases takeWhile_dropWhile_append digits ended with ⟨taken, dropped⟩
  rw [readNumber, taken, dropped, ofDigitChars_toList]

section Separated

variable {separator : String} {sign : Char} {ids : List Nat}

theorem toList_numbers (single : separator.toList = [sign]) :
    (numbers separator ids).toList =
      [sign].intercalate (ids.map fun id => (toString id).toList) := by
  simp [numbers, single, Function.comp_def]

/-- A list of numbers is read back if the separator is no digit. -/
theorem readNumbers_numbers (single : separator.toList = [sign])
    (apart : sign.isDigit = false) (ids : List Nat) :
    readNumbers sign (numbers separator ids).toList = ids := by
  cases ids with
  | nil => simp [readNumbers, numbers]
  | cons first ids =>
      have nonempty :
          (numbers separator (first :: ids)).toList.isEmpty = false := by
        cases ids <;>
          simp [toList_numbers single, Nat.toDigits_ne_nil]
      have parts : ∀ digits ∈ (first :: ids).map fun id =>
          (toString id).toList, sign ∉ digits := by
        intro digits member inside
        rcases List.mem_map.1 member with ⟨id, -, rfl⟩
        simp [isDigit_of_mem inside] at apart
      rw [readNumbers, nonempty, toList_numbers single,
        List.splitOn_intercalate sign parts (by simp)]
      simp [Function.comp_def]

theorem mem_toList_numbers (single : separator.toList = [sign])
    {character : Char}
    (member : character ∈ (numbers separator ids).toList) :
    character.isDigit = true ∨ character = sign := by
  rw [toList_numbers single] at member
  induction ids with
  | nil => simp at member
  | cons first ids read =>
      cases ids with
      | nil =>
          rw [List.map_singleton, List.intercalate_singleton] at member
          exact .inl (isDigit_of_mem member)
      | cons second ids =>
          simp only [List.map_cons, List.intercalate_cons_cons,
            List.mem_append, List.mem_singleton] at member
          rcases member with (digit | same) | later
          · exact .inl (isDigit_of_mem digit)
          · exact .inr same
          · exact read later

end Separated

end PatternAutomata.Text
