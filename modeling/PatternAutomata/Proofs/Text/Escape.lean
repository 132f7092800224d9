import PatternAutomata.Proofs.Text.Reading
import PatternAutomata.Text.Escape

/-!
# Escaped characters are read back

The escaped form of a character tells where it ends: a character that is not a
backslash stands for itself, and after a backslash a letter or a quote comes
alone, while hexadecimal digits stand between braces.
-/

namespace PatternAutomata.Text

/-! ## Hexadecimal digits -/

/-- The value of a hexadecimal digit. -/
def digitValue (digit : Char) : Nat :=
  if digit.isDigit then digit.toNat - '0'.toNat else digit.toNat - 'a'.toNat + 10

/-- The number that hexadecimal digits write. -/
def ofHexadecimal (digits : List Char) : Nat :=
  digits.foldl (fun number digit => 16 * number + digitValue digit) 0

theorem digitValue_digitChar : ∀ digit < 16,
    digitValue (Nat.digitChar digit) = digit := by
  decide

theorem ofHexadecimal_toDigits (number : Nat) :
    ofHexadecimal (Nat.toDigits 16 number) = number := by
  induction number using Nat.strongRecOn with
  | ind number read =>
      rw [Nat.toDigits_eq_if (by decide)]
      split
      · next small => simp [ofHexadecimal, digitValue_digitChar number small]
      · next large =>
          have front := read (number / 16) (by omega)
          have last := digitValue_digitChar (number % 16) (by omega)
          rw [ofHexadecimal] at front
          rw [ofHexadecimal, List.foldl_append, front, List.foldl_cons,
            List.foldl_nil, last]
          omega

/-- No hexadecimal digit is a brace. -/
theorem ne_brace_of_mem {number : Nat} {digit : Char}
    (member : digit ∈ Nat.toDigits 16 number) : digit ≠ '\x7d' := by
  induction number using Nat.strongRecOn with
  | ind number others =>
      rw [Nat.toDigits_eq_if (by decide)] at member
      split at member
      · rw [List.mem_singleton.1 member]
        exact Nat.digitChar_ne '\x7d' (by decide)
      · rcases List.mem_append.1 member with front | last
        · exact others (number / 16) (by omega) front
        · rw [List.mem_singleton.1 last]
          exact Nat.digitChar_ne '\x7d' (by decide)

/-! ## Characters -/

/-- The character whose code stands before a closing brace. -/
def readCode (text : List Char) : Char × List Char :=
  (Char.ofNat (ofHexadecimal (text.takeWhile (· ≠ '\x7d'))),
    (text.dropWhile (· ≠ '\x7d')).tail)

/-- The character whose escaped form begins a text. -/
def readEscaped : List Char → Option (Char × List Char)
  | [] => none
  | '\\' :: 't' :: rest => some ('\t', rest)
  | '\\' :: 'n' :: rest => some ('\n', rest)
  | '\\' :: 'r' :: rest => some ('\r', rest)
  | '\\' :: 'u' :: '\x7b' :: rest => some (readCode rest)
  | '\\' :: quoted :: rest => some (quoted, rest)
  | character :: rest => some (character, rest)

theorem readCode_append (character : Char) (rest : List Char) :
    readCode (Nat.toDigits 16 character.toNat ++ '\x7d' :: rest) =
      (character, rest) := by
  have inside : ∀ digit ∈ Nat.toDigits 16 character.toNat,
      decide (digit ≠ '\x7d') = true :=
    fun digit member => decide_eq_true (ne_brace_of_mem member)
  have ended : ∀ next ∈ ('\x7d' :: rest).head?,
      decide (next ≠ '\x7d') = false := by
    simp
  rcases takeWhile_dropWhile_append inside ended with ⟨taken, dropped⟩
  rw [readCode, taken, dropped, ofHexadecimal_toDigits, Char.ofNat_toNat,
    List.tail_cons]

/-- A character is read back from its escaped form. -/
theorem reads_escape :
    Reads readEscaped (fun character => (escape character).toList) id := by
  intro character rest
  change readEscaped ((escape character).toList ++ rest) =
    some (character, rest)
  unfold escape
  split
  case h_7 noBackslash =>
    split
    · -- every other way to read needs a backslash
      rw [String.toList_singleton, List.singleton_append, readEscaped] <;>
        grind
    · have text : ("\\u\x7b" ++
            String.ofList (Nat.toDigits 16 character.toNat) ++
            "\x7d").toList ++ rest =
          '\\' :: 'u' :: '\x7b' ::
            (Nat.toDigits 16 character.toNat ++ '\x7d' :: rest) := by
        simp
      rw [text, readEscaped, readCode_append]
  all_goals rfl

end PatternAutomata.Text
