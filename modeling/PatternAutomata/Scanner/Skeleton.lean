import PatternAutomata.Dfa.Basic

/-!
# Scanner skeletons

The skeleton of a scanner is a piece of program text: a switch over the state
with a case for every state of an automaton, and in each case a switch over
the next character.  States are numbered from one there; the number minus one
stands for the error, which an automaton without states starts in.
-/

namespace PatternAutomata.Scanner

/-- The number of a state in the text. -/
def stateNumber (id : Nat) : String := toString (id + 1)

/-- The number of the error in the text. -/
def errorNumber : String := "-1"

/-- The lines before the cases of the states. -/
def openingLines (dfa : Dfa) : List String :=
  let start :=
    if dfa.states.isEmpty then errorNumber else stateNumber dfa.start
  ["int state = " ++ start ++ ";", "char input;", "switch(state)\x7b",
    "\tcase " ++ errorNumber ++ ":", "\t\thandleError();", "\t\tbreak;"]

/-- The case of one character. -/
def transitionLines (character : Char) (target : Nat) : List String :=
  ["\t\t\tcase " ++ String.singleton character ++ ":",
    "\t\t\t\tstate = " ++ stateNumber target ++ ";", "\t\t\t\tbreak;"]

/-- The case of one state. -/
def stateLines (dfa : Dfa) (id : Nat) : List String :=
  ["\tcase " ++ stateNumber id ++ ":", "\t\tinput = next();",
    "\t\tswitch(input)\x7b"] ++
    ((dfa.transitions[id]?.getD ∅).toList.flatMap fun entry =>
      transitionLines entry.1 entry.2) ++
    ["\t\t\tdefault:", "\t\t\t\tstate = " ++ errorNumber ++ ";",
      "\t\t\t\tbreak;", "\t\t\x7d", "\t\tbreak;"]

/-- The pieces of the skeleton, one for each line. -/
def skeletonLines (dfa : Dfa) : List String :=
  (openingLines dfa ++
    (dfa.states.toList.flatMap fun state => stateLines dfa state.id) ++
    ["\x7d"]).map Text.line

/-- The skeleton as one text. -/
def skeleton (dfa : Dfa) : String := String.join (skeletonLines dfa)

end PatternAutomata.Scanner
