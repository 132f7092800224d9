import PatternAutomata.Checked
import PatternAutomata.Compile
import PatternAutomata.Proofs.Compile
import PatternAutomata.Proofs.Dfa.Representation
import PatternAutomata.Proofs.Dfa.SharedUnions
import PatternAutomata.Text.Listing
import PatternAutomata.Proofs.Dfa.Rebuilding
import PatternAutomata.Proofs.Dfa.Idempotence
import PatternAutomata.Proofs.Shift.Nfa
import PatternAutomata.Proofs.Shift.Assembly
import PatternAutomata.Proofs.Shift.Dfa
import PatternAutomata.Proofs.Shift.Minimize
import PatternAutomata.Proofs.Shift.History
import PatternAutomata.Proofs.Pattern.Reading
import PatternAutomata.Proofs.Pattern.OpenGroups
import PatternAutomata.Proofs.Pattern.Refusal
import PatternAutomata.Proofs.Dfa.Groups
import PatternAutomata.Proofs.Nfa.Parsed
import PatternAutomata.Proofs.StartState
import PatternAutomata.Proofs.Pattern.Parentheses
import PatternAutomata.Proofs.Pattern.Positions
import PatternAutomata.Proofs.Pattern.Spelling
import PatternAutomata.Proofs.Pattern.BracketOutcome
import PatternAutomata.Proofs.Dfa.Appearances
import PatternAutomata.Proofs.Dfa.Rounds
import PatternAutomata.Proofs.MissingState
import PatternAutomata.Proofs.Nfa.Alphabet
import PatternAutomata.Proofs.Text.Projection
import PatternAutomata.Proofs.Scanner.Skeleton
import PatternAutomata.Proofs.Scanner.Sink
import PatternAutomata.Proofs.Nfa.Closure
import PatternAutomata.Proofs.Pattern.Stacks
import PatternAutomata.Proofs.Dfa.Splits
import PatternAutomata.Proofs.Text.Escape
import PatternAutomata.Proofs.Text.Listing
import PatternAutomata.Proofs.StateSet
import PatternAutomata.Proofs.CharacterClass
import PatternAutomata.Proofs.Limits
