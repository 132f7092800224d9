import PatternAutomata.Proofs.Dfa.Tables
import PatternAutomata.Proofs.Text.Reading
import PatternAutomata.Scanner.Skeleton

/-!
# Skeletons as programs

The text of a skeleton can be read as a program: the number it starts with, the
number whose case handles the error, and for every other case its number and
the cases and the default of its inner switch.  Reading goes line by line, but
takes the character of an inner case as it is.  So it does not matter which
character it is, even if it ends a line or looks like a part of the structure.
-/

namespace PatternAutomata.Scanner

/-- A case of the switch over the state. -/
structure Branch where
  /-- The state that the case is for. -/
  number : Int
  /-- The cases of the switch over the input, with the states they enter. -/
  transitions : List (Char × Int)
  /-- The state that is entered on any other input. -/
  otherwise : Int
deriving DecidableEq, Repr

/-- A scanner as its text tells it. -/
structure Program where
  /-- The state that the scanner starts in. -/
  start : Int
  /-- The state whose case handles the error. -/
  error : Int
  /-- The cases of the other states, in their order. -/
  branches : List Branch
deriving DecidableEq, Repr

/-! ## Running -/

/-- The state that is entered on an input. -/
def Branch.next (branch : Branch) (character : Char) : Int :=
  (branch.transitions.lookup character).getD branch.otherwise

/-- The states that the scanner goes through from a state.  It takes no more
input when it is in the error, and in a state without case it goes nowhere. -/
def Program.passes (program : Program) : Int → List Char → List Int
  | number, [] => [number]
  | number, character :: rest =>
      if number = program.error then [number]
      else
        match program.branches.find? fun branch => branch.number = number with
        | none => [number]
        | some branch =>
            number :: program.passes (branch.next character) rest

/-- The states that the scanner goes through on an input. -/
def Program.execute (program : Program) (word : List Char) : List Int :=
  program.passes program.start word

/-! ## Reading -/

/-- The number at the beginning of a text, with what follows it. -/
def readInteger (text : List Char) : Int × List Char :=
  if text.head? = some '-' then
    let (number, rest) := Text.readNumber text.tail
    (-number, rest)
  else
    let (number, rest) := Text.readNumber text
    (number, rest)

/-- The number in a line, which stands between two texts. -/
def readNumbered (before after : String) (text : List Char) :
    Option (Int × List Char) := do
  let text ← Text.readText before text
  let (number, text) := readInteger text
  let text ← Text.readText (Text.line after) text
  return (number, text)

/-- What follows expected lines. -/
def readLines (expected : List String) (text : List Char) :
    Option (List Char) :=
  expected.foldlM (fun text content =>
    Text.readText (Text.line content) text) text

/-- A case of the switch over the input. -/
def readTransition (text : List Char) :
    Option ((Char × Int) × List Char) := do
  let text ← Text.readText "\t\t\tcase " text
  let character ← text.head?
  let text ← readLines [":"] text.tail
  let (target, text) ← readNumbered "\t\t\t\tstate = " ";" text
  let text ← readLines ["\t\t\t\tbreak;"] text
  return ((character, target), text)

/-- A case of the switch over the state. -/
def readBranch (text : List Char) : Option (Branch × List Char) := do
  let (number, text) ← readNumbered "\tcase " ":" text
  let text ← readLines ["\t\tinput = next();", "\t\tswitch(input)\x7b"] text
  let (transitions, text) := Text.readMany readTransition text
  let text ← readLines ["\t\t\tdefault:"] text
  let (otherwise, text) ← readNumbered "\t\t\t\tstate = " ";" text
  let text ← readLines ["\t\t\t\tbreak;", "\t\t\x7d", "\t\tbreak;"] text
  return (⟨number, transitions, otherwise⟩, text)

/-- The program that a text tells. -/
def Program.read? (text : String) : Option Program := do
  let (start, text) ← readNumbered "int state = " ";" text.toList
  let text ← readLines ["char input;", "switch(state)\x7b"] text
  let (error, text) ← readNumbered "\tcase " ":" text
  let text ← readLines ["\t\thandleError();", "\t\tbreak;"] text
  let (branches, text) := Text.readMany readBranch text
  let text ← readLines ["\x7d"] text
  if text.isEmpty then return ⟨start, error, branches⟩ else none

/-! ## Lines that are read back -/

/-- The number that is written for a state. -/
def numberOf (id : Nat) : Int := id + 1

/-- A text stands for a number. -/
def Writes (digits : String) (number : Int) : Prop :=
  ∀ rest, Text.EndsNumber rest →
    readInteger (digits.toList ++ rest) = (number, rest)

theorem writes_stateNumber (id : Nat) :
    Writes (stateNumber id) (numberOf id) := by
  intro rest ended
  have digits := Text.readNumber_append (id + 1) ended
  have unsigned :
      ((toString (id + 1)).toList ++ rest).head? ≠ some '-' := by
    intro signed
    have sign : '-' ∈ (toString (id + 1)).toList := by
      cases written : (toString (id + 1)).toList with
      | nil => simp [Nat.toDigits_ne_nil] at written
      | cons digit digits => simp_all
    exact absurd (Text.isDigit_of_mem sign) (by decide)
  simp only [readInteger, stateNumber, unsigned, if_false, digits]
  rfl

theorem writes_errorNumber : Writes errorNumber (-1) := by
  intro rest ended
  have digits := Text.readNumber_append 1 ended
  have text : errorNumber.toList = '-' :: (toString 1).toList := by decide
  simp only [text, List.cons_append, readInteger, List.head?_cons,
    List.tail_cons, digits, if_true]
  rfl

/-- Lines as one text. -/
def linesText (lines : List String) : List Char :=
  lines.flatMap fun content => (Text.line content).toList

theorem linesText_flatMap {α : Type} (items : List α)
    (lines : α → List String) :
    linesText (items.flatMap lines) =
      items.flatMap fun item => linesText (lines item) :=
  List.flatMap_assoc

theorem readLines_append (lines : List String) (rest : List Char) :
    readLines lines (linesText lines ++ rest) = some rest := by
  induction lines with
  | nil => rfl
  | cons content lines others =>
      rw [linesText, List.flatMap_cons, List.append_assoc, readLines,
        List.foldlM_cons, Text.readText_append]
      exact others

/-- A line with a number is read back if no digit follows the number. -/
theorem readNumbered_append (before : String) {after digits : String}
    {number : Int} (writes : Writes digits number)
    (ended : ∀ rest, Text.EndsNumber ((Text.line after).toList ++ rest))
    (rest : List Char) :
    readNumbered before after
        (linesText [before ++ digits ++ after] ++ rest) =
      some (number, rest) := by
  have text : linesText [before ++ digits ++ after] ++ rest =
      before.toList ++
        (digits.toList ++ ((Text.line after).toList ++ rest)) := by
    simp [linesText, Text.line]
  rw [text, readNumbered, Text.readText_append, Option.bind_eq_bind,
    Option.bind_some, writes _ (ended rest)]
  simp only [Text.readText_append]
  rfl

theorem endsNumber_colon (rest : List Char) :
    Text.EndsNumber ((Text.line ":").toList ++ rest) := by
  simp [Text.EndsNumber, Text.line]

theorem endsNumber_semicolon (rest : List Char) :
    Text.EndsNumber ((Text.line ";").toList ++ rest) := by
  simp [Text.EndsNumber, Text.line]

/-- The line that enters a state is read back. -/
theorem readNumbered_entry {digits : String} {number : Int}
    (writes : Writes digits number) (rest : List Char) :
    readNumbered "\t\t\t\tstate = " ";"
        (linesText ["\t\t\t\tstate = " ++ digits ++ ";"] ++ rest) =
      some (number, rest) :=
  readNumbered_append _ writes endsNumber_semicolon rest

/-- The line that begins the case of a state is read back. -/
theorem readNumbered_case {digits : String} {number : Int}
    (writes : Writes digits number) (rest : List Char) :
    readNumbered "\tcase " ":"
        (linesText ["\tcase " ++ digits ++ ":"] ++ rest) =
      some (number, rest) :=
  readNumbered_append _ writes endsNumber_colon rest

/-! ## Cases that are read back -/

theorem reads_transition :
    Text.Reads readTransition
      (fun entry : Char × Nat =>
        linesText (transitionLines entry.1 entry.2))
      fun entry => (entry.1, numberOf entry.2) := by
  intro entry rest
  have text : linesText (transitionLines entry.1 entry.2) ++ rest =
      "\t\t\tcase ".toList ++ entry.1 :: (linesText [":"] ++
        (linesText ["\t\t\t\tstate = " ++ stateNumber entry.2 ++ ";"] ++
          (linesText ["\t\t\t\tbreak;"] ++ rest))) := by
    simp [linesText, Text.line, transitionLines]
  -- The character itself is not looked at, only what follows it.
  rw [text, readTransition]
  simp only [Text.readText_append, Option.bind_eq_bind, Option.bind_some,
    List.head?_cons, List.tail_cons, readLines_append,
    readNumbered_entry (writes_stateNumber entry.2)]
  rfl

theorem readTransition_default (rest : List Char) :
    readTransition (linesText ["\t\t\tdefault:"] ++ rest) = none := by
  simp [readTransition, linesText, Text.line, Text.readText,
    List.dropPrefix?]

/-- The cases of a switch over the input are read up to its default. -/
theorem readMany_transitions (row : List (Char × Nat)) (rest : List Char) :
    Text.readMany readTransition
        (linesText (row.flatMap fun entry =>
            transitionLines entry.1 entry.2) ++
          (linesText ["\t\t\tdefault:"] ++ rest)) =
      (row.map fun entry => (entry.1, numberOf entry.2),
        linesText ["\t\t\tdefault:"] ++ rest) := by
  rw [linesText_flatMap]
  exact reads_transition.readMany (readTransition_default rest) row

/-- The case that is written for a state. -/
def branchOf (dfa : Dfa) (id : Nat) : Branch where
  number := numberOf id
  transitions := (dfa.row id).map fun entry => (entry.1, numberOf entry.2)
  otherwise := -1

theorem reads_branch (dfa : Dfa) :
    Text.Reads readBranch (fun id => linesText (stateLines dfa id))
      (branchOf dfa) := by
  intro id rest
  have text : linesText (stateLines dfa id) ++ rest =
      linesText ["\tcase " ++ stateNumber id ++ ":"] ++
        (linesText ["\t\tinput = next();", "\t\tswitch(input)\x7b"] ++
          (linesText ((dfa.row id).flatMap fun entry =>
              transitionLines entry.1 entry.2) ++
            (linesText ["\t\t\tdefault:"] ++
              (linesText ["\t\t\t\tstate = " ++ errorNumber ++ ";"] ++
                (linesText ["\t\t\t\tbreak;", "\t\t\x7d",
                  "\t\tbreak;"] ++ rest))))) := by
    simp only [stateLines, linesText, Dfa.row, List.flatMap_append,
      List.flatMap_cons, List.flatMap_nil, List.append_assoc,
      List.append_nil, List.cons_append, List.nil_append]
  rw [text, readBranch]
  simp only [readNumbered_case (writes_stateNumber id),
    readNumbered_entry writes_errorNumber, Option.bind_eq_bind,
    Option.bind_some, readLines_append, readMany_transitions]
  rfl

theorem readBranch_closing : readBranch (linesText ["\x7d"]) = none := by
  simp [readBranch, readNumbered, linesText, Text.line, Text.readText,
    List.dropPrefix?]

/-! ## Skeletons that are read back -/

/-- The program that the skeleton of an automaton is. -/
def programOf (dfa : Dfa) : Program where
  start := if dfa.states.isEmpty then -1 else numberOf dfa.start
  error := -1
  branches := dfa.states.toList.map fun state => branchOf dfa state.id

theorem read?_skeleton (dfa : Dfa) :
    Program.read? (skeleton dfa) = some (programOf dfa) := by
  have start : Writes
      (if dfa.states.isEmpty then errorNumber else stateNumber dfa.start)
      (programOf dfa).start := by
    rw [programOf]
    split
    · exact writes_errorNumber
    · exact writes_stateNumber dfa.start
  have text : (skeleton dfa).toList =
      linesText ["int state = " ++ (if dfa.states.isEmpty then errorNumber
          else stateNumber dfa.start) ++ ";"] ++
        (linesText ["char input;", "switch(state)\x7b"] ++
          (linesText ["\tcase " ++ errorNumber ++ ":"] ++
            (linesText ["\t\thandleError();", "\t\tbreak;"] ++
              (linesText (dfa.states.toList.flatMap fun state =>
                  stateLines dfa state.id) ++
                linesText ["\x7d"])))) := by
    simp only [skeleton, skeletonLines, openingLines, String.toList_join,
      List.flatMap_map, linesText, List.flatMap_append, List.flatMap_cons,
      List.flatMap_nil, List.append_assoc, List.append_nil, List.cons_append,
      List.nil_append]
  have branches : Text.readMany readBranch
      (linesText (dfa.states.toList.flatMap fun state =>
          stateLines dfa state.id) ++ linesText ["\x7d"]) =
      ((programOf dfa).branches, linesText ["\x7d"]) := by
    have read := (reads_branch dfa).readMany readBranch_closing
      (dfa.states.toList.map Dfa.State.id)
    rw [List.flatMap_map, List.map_map] at read
    rw [linesText_flatMap]
    exact read
  have closing := readLines_append ["\x7d"] []
  rw [List.append_nil] at closing
  rw [Program.read?, text]
  simp only [readNumbered_append _ start endsNumber_semicolon,
    readNumbered_case writes_errorNumber, Option.bind_eq_bind,
    Option.bind_some, readLines_append, branches, closing]
  rfl

end PatternAutomata.Scanner
