/-!
# Pieces of texts

Texts about automata consist of lines and of numbers with separators.
-/

namespace PatternAutomata.Text

/-- A text as a line of its own. -/
def line (content : String) : String := content ++ "\n"

/-- Numbers with a separator between them. -/
def numbers (separator : String) (ids : List Nat) : String :=
  separator.intercalate (ids.map toString)

end PatternAutomata.Text
