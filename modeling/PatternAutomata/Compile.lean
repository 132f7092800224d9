import PatternAutomata.Dfa.Minimize
import PatternAutomata.Dfa.Subsets
import PatternAutomata.Nfa.Thompson
import PatternAutomata.Scanner.Sink
import PatternAutomata.Scanner.Skeleton

/-!
# Compiling patterns

A pattern is compiled to a nondeterministic automaton, to the deterministic
automaton of its subsets, or to the minimal one.  Each compilation numbers
states from zero.
-/

namespace PatternAutomata

/-- The nondeterministic automaton of a pattern, with its terminals
flagged. -/
def compileNfa (pattern : String) : Except SyntaxError Nfa :=
  (Nfa.ofPattern pattern.toList .fresh).1.map Nfa.markTerminals

/-- The deterministic automaton of a pattern. -/
def compileDfa (pattern : String) : Except SyntaxError Dfa :=
  (compileNfa pattern).map Dfa.ofNfa

/-- The minimal deterministic automaton of a pattern. -/
def compile (pattern : String) : Except SyntaxError Dfa :=
  (compileDfa pattern).map Dfa.minimize

namespace Scanner

/-- Why no complete skeleton is written. -/
inductive GenerationError where
  /-- The pattern is refused. -/
  | pattern (error : SyntaxError)
  /-- The skeleton does not fit. -/
  | sink (error : SinkError)
deriving DecidableEq, Repr

/-- The text of the failure. -/
def GenerationError.message : GenerationError → String
  | pattern error => error.message
  | sink error => error.message

/-- Write the skeleton for a pattern into a sink.  For a pattern that is
refused nothing is written. -/
def generate (pattern : String) (sink : Sink) :
    Sink × Option GenerationError :=
  match compile pattern with
  | .error error => (sink, some (.pattern error))
  | .ok dfa =>
      let (filled, error?) := sink.writeAll (skeletonLines dfa)
      (filled, error?.map .sink)

end Scanner

end PatternAutomata
