import PatternAutomata.Checked
import PatternAutomata.Nfa.Thompson

/-!
# Constructing automata while reading

The automaton of a pattern is put together while the pattern is read.  The
operand stack holds fragments in place of expressions: an operand becomes a
fragment as soon as it has been read, and an operator is applied to the topmost
fragments when its time has come.  Numbers are taken at these moments.

Three things end a construction early.  The pattern is refused, the next number
would exceed the limit, or an edge starts at a number that is no state.  The
supply is left as it is then.
-/

namespace PatternAutomata.Constructor

/-- Why an automaton does not come about. -/
inductive Obstacle where
  /-- The pattern is refused. -/
  | refused (error : SyntaxError)
  /-- The numbers have run out. -/
  | exhausted
  /-- An edge starts at a number that is no state. -/
  | missingState (missing : MissingState)
deriving DecidableEq, Repr

/-- The text of the obstacle. -/
def Obstacle.message : Obstacle → String
  | refused error => error.message
  | exhausted => "attempt to add with overflow"
  | missingState missing => missing.message

/-- The end of a construction that an obstacle stops. -/
structure Failure where
  /-- What stops the construction. -/
  obstacle : Obstacle
  /-- The supply as it is left. -/
  supply : IdSupply
deriving DecidableEq

/-! ## Operations on an automaton -/

/-- Add a state, if there is a number for it. -/
def newState (limit : StateId) (assembly : Assembly) :
    Except Failure (StateId × Assembly) :=
  match assembly.supply.take? limit with
  | some (id, rest) => .ok (id, ⟨assembly.nfa.addState id, rest⟩)
  | none => .error ⟨.exhausted, assembly.supply⟩

/-- Add a start and a final state, if there are numbers for both. -/
def newFragment (limit : StateId) (assembly : Assembly) :
    Except Failure (Fragment × Assembly) := do
  let (start, withStart) ← newState limit assembly
  let (final, withBoth) ← newState limit withStart
  return (⟨start, final⟩, withBoth)

/-- Add edges, the source of each being a state. -/
def addEdges (edges : List Edge) (assembly : Assembly) :
    Except Failure Assembly :=
  (Assembly.Checked.addEdges edges assembly).mapError fun missing =>
    ⟨.missingState missing, assembly.supply⟩

/-- Add a new fragment together with edges that depend on it. -/
def compose (limit : StateId) (edges : Fragment → List Edge)
    (assembly : Assembly) : Except Failure (Fragment × Assembly) := do
  let (whole, grown) ← newFragment limit assembly
  let connected ← addEdges (edges whole) grown
  return (whole, connected)

/-- A fragment that passes through one fragment and then another. -/
def concatenate (left right : Fragment) (assembly : Assembly) :
    Except Failure (Fragment × Assembly) := do
  let connected ←
    addEdges (Fragment.concatenationEdges left right) assembly
  return (⟨left.start, right.final⟩, connected)

/-! ## Reading with fragments -/

/-- The fragments that no operator has taken yet, topmost first, with their
automaton. -/
structure Parts where
  /-- The fragments. -/
  fragments : List Fragment
  /-- The automaton of all of them, with its supply. -/
  assembly : Assembly
deriving DecidableEq

namespace Parts

/-- A new fragment on top of others. -/
def push (below : List Fragment) (made : Fragment × Assembly) : Parts :=
  ⟨made.1 :: below, made.2⟩

/-- Add a new fragment on top of those that are given. -/
def compose (limit : StateId) (edges : Fragment → List Edge)
    (below : List Fragment) (parts : Parts) : Except Failure Parts :=
  (Constructor.compose limit edges parts.assembly).map (push below)

/-- Put two fragments in sequence, on top of those that are given. -/
def concatenate (left right : Fragment) (below : List Fragment)
    (parts : Parts) : Except Failure Parts :=
  (Constructor.concatenate left right parts.assembly).map (push below)

/-- Refuse the pattern here. -/
def refuse {α : Type} (parts : Parts) (error : SyntaxError) :
    Except Failure α :=
  .error ⟨.refused error, parts.assembly.supply⟩

end Parts

/-- Join the two topmost fragments. -/
def apply (limit : StateId) (operator : BinaryOperator) (position : Nat)
    (parts : Parts) : Except Failure Parts :=
  match operator, parts.fragments with
  | .concatenation, right :: left :: rest =>
      parts.concatenate left right rest
  | .alternation, right :: left :: rest =>
      parts.compose limit (Fragment.alternationEdges left right) rest
  | _, _ => parts.refuse (.missingOperand operator.sign position)

/-- Apply the topmost operators of the innermost group that bind at least as
tightly as a new one. -/
def reduceTighter (limit : StateId) (precedence : Nat) :
    Parser.Operators → Parts → Except Failure (Parser.Operators × Parts)
  | [], parts => .ok ([], parts)
  | (.group, position) :: rest, parts =>
      .ok ((.group, position) :: rest, parts)
  | (.operator operator, position) :: rest, parts =>
      if operator.precedence < precedence then
        .ok ((.operator operator, position) :: rest, parts)
      else do
        let joined ← apply limit operator position parts
        reduceTighter limit precedence rest joined

/-- Apply the operators of the innermost group and take the group off. -/
def reduceGroup (limit : StateId) (closing : Nat) :
    Parser.Operators → Parts → Except Failure (Parser.Operators × Parts)
  | [], parts => parts.refuse (.unmatchedClosing closing)
  | (.group, _) :: rest, parts => .ok (rest, parts)
  | (.operator operator, position) :: rest, parts => do
      let joined ← apply limit operator position parts
      reduceGroup limit closing rest joined

/-- Apply all operators. -/
def reduceAll (limit : StateId) :
    Parser.Operators → Parts → Except Failure Parts
  | [], parts => .ok parts
  | (.group, position) :: _, parts =>
      parts.refuse (.unmatchedOpening position)
  | (.operator operator, position) :: rest, parts => do
      let joined ← apply limit operator position parts
      reduceAll limit rest joined

/-- How far an automaton has been constructed. -/
structure State where
  /-- Open groups and operators that wait for their right operand. -/
  operators : Parser.Operators
  /-- The fragments of the complete operands. -/
  parts : Parts
  /-- The last token completed an operand. -/
  afterOperand : Bool
deriving DecidableEq

namespace State

/-- Nothing has been read. -/
def initial (supply : IdSupply) : State := ⟨[], ⟨[], .start supply⟩, false⟩

/-- Read an operator between operands. -/
def pushOperator (limit : StateId) (operator : BinaryOperator)
    (position : Nat) (state : State) : Except Failure State :=
  if state.afterOperand then do
    let (operators, parts) ←
      reduceTighter limit operator.precedence state.operators state.parts
    return ⟨(.operator operator, position) :: operators, parts, false⟩
  else
    state.parts.refuse (.missingOperand operator.sign position)

/-- Before an operand that follows another one, read the concatenation that
nothing writes. -/
def beforeOperand (limit : StateId) (position : Nat) (state : State) :
    Except Failure State :=
  if state.afterOperand then
    state.pushOperator limit .concatenation position
  else .ok state

/-- Read an operand, which is one character of a class. -/
def pushOperand (limit : StateId) (members : CharacterClass)
    (position : Nat) (state : State) : Except Failure State := do
  let ready ← state.beforeOperand limit position
  let parts ← ready.parts.compose limit (Fragment.characterEdges members)
    ready.parts.fragments
  return ⟨ready.operators, parts, true⟩

/-- Read the start of a group. -/
def openGroup (limit : StateId) (position : Nat) (state : State) :
    Except Failure State := do
  let ready ← state.beforeOperand limit position
  return ⟨(.group, position) :: ready.operators, ready.parts, false⟩

/-- Read the end of a group. -/
def closeGroup (limit : StateId) (position : Nat) (state : State) :
    Except Failure State :=
  if state.afterOperand then do
    let (operators, parts) ←
      reduceGroup limit position state.operators state.parts
    return ⟨operators, parts, true⟩
  else
    match state.operators with
    | [] => state.parts.refuse (.unmatchedClosing position)
    | (.group, _) :: _ => state.parts.refuse (.emptyGroup position)
    | (.operator operator, earlier) :: _ =>
        state.parts.refuse (.missingOperand operator.sign earlier)

/-- Read a repetition. -/
def repeatOperand (limit : StateId) (repetition : Repetition)
    (position : Nat) (state : State) : Except Failure State :=
  match state.afterOperand, state.parts.fragments with
  | true, body :: rest => do
      let parts ← state.parts.compose limit
        (fun whole => Fragment.repetitionEdges body whole repetition) rest
      return { state with parts }
  | _, _ => state.parts.refuse (.missingOperand repetition.sign position)

/-- Read a token. -/
def step (limit : StateId) (state : State) :
    Token × Nat → Except Failure State
  | (.literal character, position) =>
      state.pushOperand limit {character} position
  | (.oneOf members, position) => state.pushOperand limit members position
  | (.openGroup, position) => state.openGroup limit position
  | (.closeGroup, position) => state.closeGroup limit position
  | (.binary operator, position) =>
      state.pushOperator limit operator position
  | (.repetition repetition, position) =>
      state.repeatOperand limit repetition position

/-- Come to the end of the pattern.  Fragments that no operator joins are
concatenated from left to right. -/
def finish (limit : StateId) (state : State) :
    Except Failure (Nfa × IdSupply) :=
  if state.afterOperand then do
    let parts ← reduceAll limit state.operators state.parts
    match parts.fragments.reverse with
    | [] => parts.refuse .emptyPattern
    | first :: others =>
        let (whole, assembly) ← others.foldlM
          (fun (joined, assembly) part => concatenate joined part assembly)
          (first, parts.assembly)
        return (Nfa.ofFragment whole assembly.nfa, assembly.supply)
  else
    match state.operators with
    | [] => state.parts.refuse .emptyPattern
    | (.group, position) :: _ =>
        state.parts.refuse (.unmatchedOpening position)
    | (.operator operator, position) :: _ =>
        state.parts.refuse (.missingOperand operator.sign position)

end State

/-- Read the tokens of a pattern. -/
def readTokens (limit : StateId) (supply : IdSupply)
    (tokens : List (Token × Nat)) : Except Failure State :=
  tokens.foldlM (State.step limit) (State.initial supply)

/-- Read a pattern. -/
def read (limit : StateId) (supply : IdSupply) (pattern : List Char) :
    Except Failure (Nfa × IdSupply) := do
  let tokens := Tokens.ofPattern pattern
  let state ← readTokens limit supply tokens.placed
  match tokens.fault with
  | some error => state.parts.refuse error
  | none => state.finish limit

/-- The automaton that reading a pattern constructs, or what stops the
construction, with the supply afterwards. -/
def build (limit : StateId) (pattern : List Char) (supply : IdSupply) :
    Except Obstacle Nfa × IdSupply :=
  match read limit supply pattern with
  | .ok (nfa, rest) => (.ok nfa, rest)
  | .error failure => (.error failure.obstacle, failure.supply)

end PatternAutomata.Constructor
