/-!
# Escaped characters

The escaped form of a character consists of visible ASCII characters and
spaces.  Visible characters stand for themselves, except quotes and the
backslash, which follow a backslash; tab, line feed and carriage return are
named by a letter; every other character is given by its code in hexadecimal
digits.
-/

namespace PatternAutomata.Text

/-- The escaped form of a character. -/
def escape (character : Char) : String :=
  match character with
  | '\t' => "\\t"
  | '\n' => "\\n"
  | '\r' => "\\r"
  | '\'' => "\\'"
  | '"' => "\\\""
  | '\\' => "\\\\"
  | _ =>
      if ' ' ≤ character ∧ character ≤ '~' then String.singleton character
      else
        "\\u\x7b" ++ String.ofList (Nat.toDigits 16 character.toNat) ++ "\x7d"

end PatternAutomata.Text
