import PatternAutomata.Pattern.Token
import PatternAutomata.Regex

/-!
# Reading patterns

Patterns are read from left to right with two stacks.  Operands that are
complete wait on one of them; open groups and binary operators whose right
operand is still being read wait on the other.  An operator waits until an
operator that binds no tighter, the end of its group or the end of the pattern
follows, and then joins the two topmost operands.  A repetition applies to the
topmost operand at once.  Two operands in a row are concatenated.

A failure keeps the operands that were complete when it arose, because the
states of their automata have been numbered by then.
-/

namespace PatternAutomata.Parser

/-- What waits on the operator stack. -/
inductive Waiting where
  /-- A group that is open. -/
  | group
  /-- An operator whose right operand is not complete. -/
  | operator (operator : BinaryOperator)
deriving DecidableEq, Repr

/-- The operator stack, topmost entry first, with positions in the pattern. -/
abbrev Operators := List (Waiting × Nat)

/-- The operand stack, topmost entry first. -/
abbrev Operands := List Regex

/-- How far a pattern has been read. -/
structure State where
  /-- Open groups and operators that wait for their right operand. -/
  operators : Operators
  /-- The complete operands. -/
  operands : Operands
  /-- The last token completed an operand. -/
  afterOperand : Bool
deriving DecidableEq

namespace State

/-- Nothing has been read. -/
def initial : State := ⟨[], [], false⟩

end State

/-- The end of reading a pattern that is refused. -/
structure Failure where
  /-- Why the pattern is refused. -/
  error : SyntaxError
  /-- The operands that were complete. -/
  operands : Operands
deriving DecidableEq

namespace Failure

/-- The number of states that the complete operands take. -/
def stateCount (failure : Failure) : Nat :=
  failure.operands.foldr (fun operand count => operand.stateCount + count) 0

end Failure

/-- Join the two topmost operands. -/
def apply (operator : BinaryOperator) (position : Nat) :
    Operands → Except Failure Operands
  | right :: left :: rest => .ok (Regex.join operator left right :: rest)
  | operands => .error ⟨.missingOperand operator.sign position, operands⟩

/-- Apply the topmost operators of the innermost group that bind at least as
tightly as a new one. -/
def reduceTighter (precedence : Nat) :
    Operators → Operands → Except Failure (Operators × Operands)
  | [], operands => .ok ([], operands)
  | (.group, position) :: rest, operands =>
      .ok ((.group, position) :: rest, operands)
  | (.operator operator, position) :: rest, operands =>
      if operator.precedence < precedence then
        .ok ((.operator operator, position) :: rest, operands)
      else do
        let joined ← apply operator position operands
        reduceTighter precedence rest joined

/-- Apply the operators of the innermost group and take the group off. -/
def reduceGroup (closing : Nat) :
    Operators → Operands → Except Failure (Operators × Operands)
  | [], operands => .error ⟨.unmatchedClosing closing, operands⟩
  | (.group, _) :: rest, operands => .ok (rest, operands)
  | (.operator operator, position) :: rest, operands => do
      let joined ← apply operator position operands
      reduceGroup closing rest joined

/-- Apply all operators. -/
def reduceAll : Operators → Operands → Except Failure Operands
  | [], operands => .ok operands
  | (.group, position) :: _, operands =>
      .error ⟨.unmatchedOpening position, operands⟩
  | (.operator operator, position) :: rest, operands => do
      let joined ← apply operator position operands
      reduceAll rest joined

namespace State

/-- Refuse the pattern here. -/
def fail {α : Type} (state : State) (error : SyntaxError) :
    Except Failure α :=
  .error ⟨error, state.operands⟩

/-- Read an operator between operands. -/
def pushOperator (operator : BinaryOperator) (position : Nat)
    (state : State) : Except Failure State :=
  if state.afterOperand then do
    let (operators, operands) ←
      reduceTighter operator.precedence state.operators state.operands
    return ⟨(.operator operator, position) :: operators, operands, false⟩
  else
    state.fail (.missingOperand operator.sign position)

/-- Before an operand that follows another one, read the concatenation that
nothing writes. -/
def beforeOperand (position : Nat) (state : State) : Except Failure State :=
  if state.afterOperand then state.pushOperator .concatenation position
  else .ok state

/-- Read an operand. -/
def pushOperand (operand : Regex) (position : Nat) (state : State) :
    Except Failure State := do
  let ready ← state.beforeOperand position
  return ⟨ready.operators, operand :: ready.operands, true⟩

/-- Read the start of a group. -/
def openGroup (position : Nat) (state : State) : Except Failure State := do
  let ready ← state.beforeOperand position
  return ⟨(.group, position) :: ready.operators, ready.operands, false⟩

/-- Read the end of a group. -/
def closeGroup (position : Nat) (state : State) : Except Failure State :=
  if state.afterOperand then do
    let (operators, operands) ←
      reduceGroup position state.operators state.operands
    return ⟨operators, operands, true⟩
  else
    match state.operators with
    | [] => state.fail (.unmatchedClosing position)
    | (.group, _) :: _ => state.fail (.emptyGroup position)
    | (.operator operator, earlier) :: _ =>
        state.fail (.missingOperand operator.sign earlier)

/-- Read a repetition. -/
def repeatOperand (repetition : Repetition) (position : Nat)
    (state : State) : Except Failure State :=
  match state.afterOperand, state.operands with
  | true, body :: rest =>
      .ok { state with operands := .repeated repetition body :: rest }
  | _, _ => state.fail (.missingOperand repetition.sign position)

/-- Read a token. -/
def step (state : State) : Token × Nat → Except Failure State
  | (.literal character, position) =>
      state.pushOperand (.literal character) position
  | (.oneOf members, position) => state.pushOperand (.oneOf members) position
  | (.openGroup, position) => state.openGroup position
  | (.closeGroup, position) => state.closeGroup position
  | (.binary operator, position) => state.pushOperator operator position
  | (.repetition repetition, position) =>
      state.repeatOperand repetition position

/-- Come to the end of the pattern.  Operands that no operator joins are
concatenated from left to right. -/
def finish (state : State) : Except Failure Regex :=
  if state.afterOperand then do
    let operands ← reduceAll state.operators state.operands
    match operands.reverse with
    | [] => .error ⟨.emptyPattern, []⟩
    | first :: others => return others.foldl .concatenation first
  else
    match state.operators with
    | [] => state.fail .emptyPattern
    | (.group, position) :: _ => state.fail (.unmatchedOpening position)
    | (.operator operator, position) :: _ =>
        state.fail (.missingOperand operator.sign position)

end State

/-- Read the tokens of a pattern. -/
def readTokens (tokens : List (Token × Nat)) : Except Failure State :=
  tokens.foldlM State.step State.initial

/-- The regular expression that a pattern writes. -/
def parse (pattern : List Char) : Except Failure Regex := do
  let tokens := Tokens.ofPattern pattern
  let state ← readTokens tokens.placed
  match tokens.fault with
  | some error => state.fail error
  | none => state.finish

end PatternAutomata.Parser
