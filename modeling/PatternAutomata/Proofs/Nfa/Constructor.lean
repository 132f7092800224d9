import PatternAutomata.Nfa.Constructor
import PatternAutomata.Proofs.Nfa.Thompson
import PatternAutomata.Proofs.Pattern.Stacks

/-!
# Construction and assembly agree

Reading with fragments goes through the same steps as reading with expressions.
At every step the fragments are those of the expressions, put together one
after the other from the bottom of the stack: an expression is assembled after
its parts and next to what has been assembled before, so an operator that is
applied to the topmost fragments makes the fragment of the joined expression,
with the same numbers.

Numbers are only ever taken.  Hence the construction comes to the end of the
assembly if the numbers of the assembly suffice, and otherwise stops when the
last number has been taken.  No edge ever starts at a number that is no state.
-/

namespace PatternAutomata.Constructor

open PatternAutomata.Parser (Operands Operators)

/-! ## Operations below the limit -/

section Operations

variable {limit : StateId} {assembly : Assembly}

theorem newState_eq_ok (room : assembly.supply.next < limit) :
    newState limit assembly = .ok assembly.newState := by
  rw [newState, IdSupply.take?, if_pos room]
  rfl

theorem newState_eq_exhausted (full : ¬assembly.supply.next < limit) :
    newState limit assembly = .error ⟨.exhausted, assembly.supply⟩ := by
  rw [newState, IdSupply.take?, if_neg full]

/-- Two numbers are enough for a fragment. -/
theorem newFragment_eq_ok (room : assembly.supply.next + 2 ≤ limit) :
    newFragment limit assembly = .ok assembly.newFragment := by
  have first : newState limit assembly = .ok assembly.newState :=
    newState_eq_ok (Nat.lt_of_succ_lt room)
  have second : newState limit assembly.newState.2 =
      .ok assembly.newState.2.newState :=
    newState_eq_ok room
  rw [newFragment, first]
  change (newState limit assembly.newState.2).bind _ = _
  rw [second]
  rfl

/-- Without two numbers, what is left is taken all the same. -/
theorem newFragment_eq_exhausted (within : assembly.supply.next ≤ limit)
    (full : limit < assembly.supply.next + 2) :
    newFragment limit assembly = .error ⟨.exhausted, ⟨limit⟩⟩ := by
  rcases Nat.lt_or_eq_of_le within with room | last
  · have last : assembly.newState.2.supply.next = limit :=
      Nat.le_antisymm room (Nat.le_of_lt_succ full)
    rw [newFragment, newState_eq_ok room]
    change (newState limit assembly.newState.2).bind _ = _
    rw [newState_eq_exhausted last.not_lt, ← last]
    rfl
  · rw [newFragment, newState_eq_exhausted last.not_lt, ← last]
    rfl

/-- As long as there are numbers, a composition is the checked one. -/
theorem compose_eq (edges : Fragment → List Edge)
    (room : assembly.supply.next + 2 ≤ limit) :
    compose limit edges assembly =
      (Assembly.Checked.compose edges assembly).mapError fun missing =>
        ⟨.missingState missing, assembly.newFragment.2.supply⟩ := by
  rw [compose, newFragment_eq_ok room]
  change ((Assembly.Checked.addEdges (edges assembly.newFragment.1)
      assembly.newFragment.2).mapError _).bind _ =
    ((Assembly.Checked.addEdges (edges assembly.newFragment.1)
      assembly.newFragment.2).bind _).mapError _
  cases Assembly.Checked.addEdges (edges assembly.newFragment.1)
      assembly.newFragment.2 <;> rfl

/-- Fragments in sequence need no number. -/
theorem concatenate_eq (left right : Fragment) (assembly : Assembly) :
    concatenate left right assembly =
      (Assembly.Checked.concatenate left right assembly).mapError
        fun missing => ⟨.missingState missing, assembly.supply⟩ := by
  rw [concatenate, addEdges, Assembly.Checked.concatenate]
  cases Assembly.Checked.addEdges
      (Fragment.concatenationEdges left right) assembly <;> rfl

theorem compose_eq_exhausted (edges : Fragment → List Edge)
    (within : assembly.supply.next ≤ limit)
    (full : limit < assembly.supply.next + 2) :
    compose limit edges assembly = .error ⟨.exhausted, ⟨limit⟩⟩ := by
  rw [compose, newFragment_eq_exhausted within full]
  rfl

end Operations

/-! ## Fragments of operands -/

/-- The number of states that operands take. -/
def stateCount (operands : Operands) : Nat :=
  operands.foldr (fun operand count => operand.stateCount + count) 0

theorem stateCount_cons (operand : Regex) (operands : Operands) :
    stateCount (operand :: operands) =
      operand.stateCount + stateCount operands :=
  rfl

/-- The fragments of operands, put together from the lowest operand on. -/
def Parts.ofOperands (supply : IdSupply) : Operands → Parts
  | [] => ⟨[], .start supply⟩
  | operand :: below =>
      let parts := ofOperands supply below
      .push parts.fragments (operand.assemble parts.assembly)

/-- The numbers of the states follow each other. -/
theorem supply_ofOperands (supply : IdSupply) (operands : Operands) :
    (Parts.ofOperands supply operands).assembly.supply =
      supply.skip (stateCount operands) := by
  induction operands with
  | nil => rfl
  | cons operand below same =>
      have next := operand.assemble_next
        (Parts.ofOperands supply below).assembly
      rw [same] at next
      change (operand.assemble _).2.supply = _
      apply congrArg IdSupply.mk
      rw [stateCount_cons, Nat.add_comm operand.stateCount]
      exact next.trans (Nat.add_assoc ..)

/-- The state of the construction that has read the same. -/
def State.ofReader (supply : IdSupply) (state : Parser.State) : State :=
  ⟨state.operators, .ofOperands supply state.operands, state.afterOperand⟩

/-- Operations put the fragments of operands together, and all of them are
pending. -/
theorem exists_steps_ofOperands (supply : IdSupply) (operands : Operands) :
    ∃ pending : List Piece,
      pending.map Piece.fragment =
          (Parts.ofOperands supply operands).fragments ∧
        Relation.ReflTransGen Bench.Step (.start supply)
          ⟨(Parts.ofOperands supply operands).assembly, pending⟩ := by
  induction operands with
  | nil => exact ⟨[], rfl, .refl⟩
  | cons operand below reached =>
      rcases reached with ⟨pending, same, steps⟩
      rcases operand.exists_steps_assemble _ pending with ⟨states, more⟩
      exact ⟨_, (List.map_cons ..).trans (congrArg _ same),
        steps.trans more⟩

/-- The fragments are pending, so they can be composed. -/
def Parts.Holds (parts : Parts) : Prop :=
  ∃ pending : List Piece, pending.map Piece.fragment = parts.fragments ∧
    Bench.Holds ⟨parts.assembly, pending⟩

namespace Parts.Holds

variable {parts : Parts}

theorem ofOperands (supply : IdSupply) (operands : Operands) :
    (Parts.ofOperands supply operands).Holds := by
  rcases exists_steps_ofOperands supply operands with ⟨pending, same, steps⟩
  exact ⟨pending, same, .of_steps steps⟩

theorem characters (holds : parts.Holds) (members : CharacterClass) :
    Assembly.Checked.compose (Fragment.characterEdges members)
        parts.assembly =
      .ok (parts.assembly.oneOf members) := by
  rcases holds with ⟨pending, -, holds⟩
  exact holds.checked_characters members

theorem exists_piece (holds : parts.Holds) :
    ∃ pending, Bench.Holds ⟨parts.assembly, pending⟩ ∧
      ∀ fragment ∈ parts.fragments,
        ∃ piece ∈ pending, piece.fragment = fragment := by
  rcases holds with ⟨pending, same, holds⟩
  refine ⟨pending, holds, ?_⟩
  intro fragment member
  rw [← same] at member
  exact List.mem_map.1 member

theorem concatenate (holds : parts.Holds) {left right : Fragment}
    (leftMember : left ∈ parts.fragments)
    (rightMember : right ∈ parts.fragments) :
    Assembly.Checked.concatenate left right parts.assembly =
      .ok (parts.assembly.concatenate left right) := by
  rcases holds.exists_piece with ⟨pending, holds, pieces⟩
  rcases pieces left leftMember with ⟨leftPiece, inside, rfl⟩
  rcases pieces right rightMember with ⟨rightPiece, -, rfl⟩
  exact holds.checked_concatenate inside

theorem alternate (holds : parts.Holds) {left right : Fragment}
    (leftMember : left ∈ parts.fragments)
    (rightMember : right ∈ parts.fragments) :
    Assembly.Checked.alternate left right parts.assembly =
      .ok (parts.assembly.alternate left right) := by
  rcases holds.exists_piece with ⟨pending, holds, pieces⟩
  rcases pieces left leftMember with ⟨leftPiece, leftInside, rfl⟩
  rcases pieces right rightMember with ⟨rightPiece, rightInside, rfl⟩
  exact holds.checked_alternate leftInside rightInside

theorem repeated (holds : parts.Holds) {body : Fragment}
    (member : body ∈ parts.fragments) (repetition : Repetition) :
    Assembly.Checked.repeated repetition body parts.assembly =
      .ok (parts.assembly.repeated repetition body) := by
  rcases holds.exists_piece with ⟨pending, holds, pieces⟩
  rcases pieces body member with ⟨piece, inside, rfl⟩
  exact holds.checked_repeated inside repetition

end Parts.Holds

/-! ## Two ways of reading -/

/-- How a result of reading with expressions looks when they have been put
together. -/
structure View (α β : Type) where
  /-- The operands in a result. -/
  operands : α → Operands
  /-- The result with the fragments of its operands. -/
  image : α → β

namespace View

variable {α β : Type}

/-- The number of states of the operands that are left in the end. -/
def taken (view : View α β) : Except Parser.Failure α → Nat
  | .ok result => stateCount (view.operands result)
  | .error failure => failure.stateCount

/-- What the construction comes to, if it takes the same numbers. -/
def outcome (view : View α β) (limit : StateId) (supply : IdSupply)
    (read : Except Parser.Failure α) : Except Failure β :=
  if supply.next + view.taken read ≤ limit then
    match read with
    | .ok result => .ok (view.image result)
    | .error failure =>
        .error ⟨.refused failure.error, supply.skip failure.stateCount⟩
  else .error ⟨.exhausted, ⟨limit⟩⟩

section

variable {view : View α β} {limit : StateId} {supply : IdSupply}

theorem outcome_ok {result : α}
    (room : supply.next + stateCount (view.operands result) ≤ limit) :
    view.outcome limit supply (.ok result) = .ok (view.image result) :=
  if_pos room

theorem outcome_error {failure : Parser.Failure}
    (room : supply.next + failure.stateCount ≤ limit) :
    view.outcome limit supply (.error failure) =
      .error ⟨.refused failure.error, supply.skip failure.stateCount⟩ :=
  if_pos room

theorem outcome_exhausted {read : Except Parser.Failure α}
    (full : limit < supply.next + view.taken read) :
    view.outcome limit supply read = .error ⟨.exhausted, ⟨limit⟩⟩ :=
  if_neg full.not_ge

/-- What is refused is refused in whatever way it is looked at. -/
theorem outcome_error_bind {γ δ : Type} (next : View γ δ)
    (failure : Parser.Failure) (build : β → Except Failure δ) :
    view.outcome limit supply (.error failure) >>= build =
      next.outcome limit supply (.error failure) := by
  rcases Nat.lt_or_ge limit (supply.next + failure.stateCount) with
    full | room
  · rw [outcome_exhausted full, outcome_exhausted full]
    rfl
  · rw [outcome_error room, outcome_error room]
    rfl

end

/-- Fragments in place of operands. -/
def parts (supply : IdSupply) : View Operands Parts :=
  ⟨id, .ofOperands supply⟩

/-- Fragments in place of operands, below the same operators. -/
def twoStacks (supply : IdSupply) :
    View (Operators × Operands) (Operators × Parts) :=
  ⟨Prod.snd, Prod.map id (.ofOperands supply)⟩

/-- Fragments in place of operands, in the same state. -/
def state (supply : IdSupply) : View Parser.State State :=
  ⟨Parser.State.operands, .ofReader supply⟩

/-- The automaton of an expression. -/
def nfa (supply : IdSupply) : View Regex (Nfa × IdSupply) :=
  ⟨fun regex => [regex], fun regex => Nfa.ofRegex regex supply⟩

end View

/-- Reading goes on from operands with the given number of states and keeps
them, and the construction does the same if it is within the limit so far. -/
structure Follows {α β : Type} (limit : StateId) (supply : IdSupply)
    (view : View α β) (before : Nat) (read : Except Parser.Failure α)
    (built : Except Failure β) : Prop where
  /-- No number is given back. -/
  grows : before ≤ view.taken read
  /-- The construction comes to the same, or the numbers run out. -/
  built_eq : supply.next + before ≤ limit →
    built = view.outcome limit supply read

namespace Follows

variable {α β γ δ : Type} {limit : StateId} {supply : IdSupply}
  {view : View α β} {next : View γ δ} {before : Nat}
  {read : Except Parser.Failure α} {built : Except Failure β}

theorem pure (view : View α β) (result : α) :
    Follows limit supply view (stateCount (view.operands result))
      (.ok result) (.ok (view.image result)) where
  grows := Nat.le_refl _
  built_eq room := (View.outcome_ok room).symm

theorem refuse (view : View α β) (operands : Operands) (error : SyntaxError) :
    Follows limit supply view (stateCount operands)
      (.error ⟨error, operands⟩)
      ((Parts.ofOperands supply operands).refuse error) where
  grows := Nat.le_refl _
  built_eq room := by
    rw [Parts.refuse, supply_ofOperands]
    exact (if_pos room).symm

theorem bind {goOn : α → Except Parser.Failure γ}
    {build : β → Except Failure δ}
    (first : Follows limit supply view before read built)
    (goesOn : ∀ result, read = .ok result →
      Follows limit supply next (stateCount (view.operands result))
        (goOn result) (build (view.image result))) :
    Follows limit supply next before (read >>= goOn) (built >>= build) := by
  cases read with
  | error failure =>
      refine ⟨first.grows, fun room => ?_⟩
      rw [first.built_eq room]
      exact View.outcome_error_bind next failure build
  | ok result =>
      have follows := goesOn result rfl
      refine ⟨first.grows.trans follows.grows, fun room => ?_⟩
      rw [first.built_eq room]
      rcases Nat.lt_or_ge limit
        (supply.next + stateCount (view.operands result)) with full | enough
      · -- The numbers have run out, and nothing that is read on gives any back.
        have later : limit < supply.next + next.taken (goOn result) :=
          full.trans_le (Nat.add_le_add_left follows.grows _)
        rw [View.outcome_exhausted full]
        exact (View.outcome_exhausted later).symm
      · rw [View.outcome_ok enough]
        exact follows.built_eq enough

/-- A fragment that takes two numbers becomes the topmost one. -/
theorem compose {edges : Fragment → List Edge} {operands rest : Operands}
    {regex : Regex}
    (composed : Assembly.Checked.compose edges
        (Parts.ofOperands supply operands).assembly =
      .ok ((Parts.ofOperands supply operands).assembly.compose edges))
    (same : Parts.ofOperands supply (regex :: rest) =
      .push (Parts.ofOperands supply rest).fragments
        ((Parts.ofOperands supply operands).assembly.compose edges))
    (count : stateCount (regex :: rest) = stateCount operands + 2) :
    Follows limit supply (.parts supply) (stateCount operands)
      (.ok (regex :: rest))
      ((Parts.ofOperands supply operands).compose limit edges
        (Parts.ofOperands supply rest).fragments) where
  grows := (Nat.le_add_right _ 2).trans count.ge
  built_eq room := by
    have next : (Parts.ofOperands supply operands).assembly.supply.next =
        supply.next + stateCount operands :=
      congrArg IdSupply.next (supply_ofOperands supply operands)
    have after : supply.next + stateCount (regex :: rest) =
        (Parts.ofOperands supply operands).assembly.supply.next + 2 := by
      rw [next, count, Nat.add_assoc]
    rw [Parts.compose]
    rcases Nat.lt_or_ge limit
      ((Parts.ofOperands supply operands).assembly.supply.next + 2) with
      full | enough
    · rw [compose_eq_exhausted edges (next.trans_le room) full]
      exact (View.outcome_exhausted (full.trans_eq after.symm)).symm
    · rw [compose_eq edges enough, composed]
      exact ((View.outcome_ok (after.trans_le enough)).trans
        (congrArg Except.ok same)).symm

/-- A topmost fragment completes an operand. -/
theorem complete {operators : Operators} {operands : Operands}
    {built : Except Failure Parts}
    (made : Follows limit supply (.parts supply) before (.ok operands) built) :
    Follows limit supply (.state supply) before
      (.ok ⟨operators, operands, true⟩)
      (built >>= fun parts => .ok ⟨operators, parts, true⟩) := by
  change Follows limit supply (.state supply) before
    (.ok operands >>= fun operands => .ok ⟨operators, operands, true⟩) _
  exact made.bind fun operands _ =>
    .pure (.state supply) ⟨operators, operands, true⟩

end Follows

/-! ## Operators -/

variable {limit : StateId} {supply : IdSupply}

theorem follows_apply (operator : BinaryOperator) (position : Nat)
    (operands : Operands) :
    Follows limit supply (.parts supply) (stateCount operands)
      (Parser.apply operator position operands)
      (apply limit operator position (.ofOperands supply operands)) := by
  have holds := Parts.Holds.ofOperands supply operands
  match operator, operands with
  | .concatenation, [] => exact .refuse _ _ _
  | .alternation, [] => exact .refuse _ _ _
  | .concatenation, [_] => exact .refuse _ _ _
  | .alternation, [_] => exact .refuse _ _ _
  | .concatenation, right :: left :: rest =>
      have count : stateCount (.concatenation left right :: rest) =
          stateCount (right :: left :: rest) := by
        simp only [stateCount_cons, Regex.stateCount]
        omega
      have joined : apply limit .concatenation position
            (.ofOperands supply (right :: left :: rest)) =
          .ok (.ofOperands supply (.concatenation left right :: rest)) := by
        change (concatenate _ _ _).map _ = _
        rw [concatenate_eq, holds.concatenate (.tail _ (.head _)) (.head _)]
        rfl
      rw [joined, ← count]
      exact .pure (.parts supply) (.concatenation left right :: rest)
  | .alternation, right :: left :: rest =>
      have count : stateCount (.alternation left right :: rest) =
          stateCount (right :: left :: rest) + 2 := by
        simp only [stateCount_cons, Regex.stateCount]
        omega
      exact .compose (holds.alternate (.tail _ (.head _)) (.head _)) rfl count

theorem follows_reduceTighter (precedence : Nat) (operators : Operators)
    (operands : Operands) :
    Follows limit supply (.twoStacks supply) (stateCount operands)
      (Parser.reduceTighter precedence operators operands)
      (reduceTighter limit precedence operators
        (.ofOperands supply operands)) := by
  induction operators generalizing operands with
  | nil => exact .pure (.twoStacks supply) ([], operands)
  | cons entry rest follows =>
      rcases entry with ⟨_ | operator, position⟩
      · exact .pure (.twoStacks supply) ((.group, position) :: rest, operands)
      · rw [Parser.reduceTighter, reduceTighter]
        by_cases looser : operator.precedence < precedence
        · rw [if_pos looser, if_pos looser]
          exact .pure (.twoStacks supply)
            ((.operator operator, position) :: rest, operands)
        · rw [if_neg looser, if_neg looser]
          exact (follows_apply operator position operands).bind
            fun joined _ => follows joined

theorem follows_reduceGroup (closing : Nat) (operators : Operators)
    (operands : Operands) :
    Follows limit supply (.twoStacks supply) (stateCount operands)
      (Parser.reduceGroup closing operators operands)
      (reduceGroup limit closing operators (.ofOperands supply operands)) := by
  induction operators generalizing operands with
  | nil => exact .refuse (.twoStacks supply) operands _
  | cons entry rest follows =>
      rcases entry with ⟨_ | operator, position⟩
      · exact .pure (.twoStacks supply) (rest, operands)
      · exact (follows_apply operator position operands).bind
          fun joined _ => follows joined

theorem follows_reduceAll (operators : Operators) (operands : Operands) :
    Follows limit supply (.parts supply) (stateCount operands)
      (Parser.reduceAll operators operands)
      (reduceAll limit operators (.ofOperands supply operands)) := by
  induction operators generalizing operands with
  | nil => exact .pure (.parts supply) operands
  | cons entry rest follows =>
      rcases entry with ⟨_ | operator, position⟩
      · exact .refuse (.parts supply) operands _
      · exact (follows_apply operator position operands).bind
          fun joined _ => follows joined

/-! ## Tokens -/

theorem follows_pushOperator (operator : BinaryOperator) (position : Nat)
    (state : Parser.State) :
    Follows limit supply (.state supply) (stateCount state.operands)
      (state.pushOperator operator position)
      ((State.ofReader supply state).pushOperator limit operator position) := by
  rw [Parser.State.pushOperator, State.pushOperator]
  rcases state with ⟨operators, operands, _ | _⟩
  · exact .refuse (.state supply) operands _
  · exact (follows_reduceTighter _ operators operands).bind
      fun reduced _ => .pure (.state supply) ⟨_, reduced.2, false⟩

theorem follows_beforeOperand (position : Nat) (state : Parser.State) :
    Follows limit supply (.state supply) (stateCount state.operands)
      (state.beforeOperand position)
      ((State.ofReader supply state).beforeOperand limit position) := by
  rcases state with ⟨operators, operands, _ | _⟩
  · exact .pure (.state supply) ⟨operators, operands, false⟩
  · exact follows_pushOperator .concatenation position
      ⟨operators, operands, true⟩

theorem follows_pushOperand {operand : Regex} {members : CharacterClass}
    (reads : ∀ assembly, operand.assemble assembly = assembly.oneOf members)
    (count : operand.stateCount = 2) (position : Nat)
    (state : Parser.State) :
    Follows limit supply (.state supply) (stateCount state.operands)
      (state.pushOperand operand position)
      ((State.ofReader supply state).pushOperand limit members position) := by
  apply (follows_beforeOperand position state).bind
  intro ready _
  have holds := Parts.Holds.ofOperands supply ready.operands
  apply Follows.complete
  apply Follows.compose (holds.characters members)
  · exact congrArg (Parts.push _) (reads _)
  · rw [stateCount_cons, count, Nat.add_comm]

theorem follows_openGroup (position : Nat) (state : Parser.State) :
    Follows limit supply (.state supply) (stateCount state.operands)
      (state.openGroup position)
      ((State.ofReader supply state).openGroup limit position) :=
  (follows_beforeOperand position state).bind fun ready _ =>
    .pure (.state supply)
      ⟨(.group, position) :: ready.operators, ready.operands, false⟩

theorem follows_closeGroup (position : Nat) (state : Parser.State) :
    Follows limit supply (.state supply) (stateCount state.operands)
      (state.closeGroup position)
      ((State.ofReader supply state).closeGroup limit position) := by
  rcases state with ⟨operators, operands, _ | _⟩
  · match operators with
    | [] => exact .refuse (.state supply) operands _
    | (.group, _) :: _ => exact .refuse (.state supply) operands _
    | (.operator _, _) :: _ => exact .refuse (.state supply) operands _
  · exact (follows_reduceGroup position operators operands).bind
      fun reduced _ => .pure (.state supply) ⟨reduced.1, reduced.2, true⟩

theorem follows_repeatOperand (repetition : Repetition) (position : Nat)
    (state : Parser.State) :
    Follows limit supply (.state supply) (stateCount state.operands)
      (state.repeatOperand repetition position)
      ((State.ofReader supply state).repeatOperand limit repetition
        position) := by
  match state with
  | ⟨operators, operands, false⟩ => exact .refuse (.state supply) operands _
  | ⟨operators, [], true⟩ => exact .refuse (.state supply) [] _
  | ⟨operators, body :: rest, true⟩ =>
      have holds := Parts.Holds.ofOperands supply (body :: rest)
      have count : stateCount (.repeated repetition body :: rest) =
          stateCount (body :: rest) + 2 := by
        simp only [stateCount_cons, Regex.stateCount]
        omega
      apply Follows.complete
      exact .compose (holds.repeated (.head _) repetition) rfl count

/-- The construction reads every token as the reader does. -/
theorem follows_step (token : Token × Nat) (state : Parser.State) :
    Follows limit supply (.state supply) (stateCount state.operands)
      (state.step token) ((State.ofReader supply state).step limit token) := by
  rcases token with ⟨token, position⟩
  cases token with
  | literal character =>
      exact follows_pushOperand (fun _ => rfl) rfl position state
  | oneOf members =>
      exact follows_pushOperand (fun _ => rfl) rfl position state
  | openGroup => exact follows_openGroup position state
  | closeGroup => exact follows_closeGroup position state
  | binary operator => exact follows_pushOperator operator position state
  | repetition repetition =>
      exact follows_repeatOperand repetition position state

/-! ## Patterns -/

theorem follows_foldlM (tokens : List (Token × Nat)) (state : Parser.State) :
    Follows limit supply (.state supply) (stateCount state.operands)
      (tokens.foldlM Parser.State.step state)
      (tokens.foldlM (State.step limit) (State.ofReader supply state)) := by
  induction tokens generalizing state with
  | nil => exact .pure (.state supply) state
  | cons token tokens follows =>
      rw [List.foldlM_cons, List.foldlM_cons]
      exact (follows_step token state).bind fun next _ => follows next

/-- The construction reads the tokens of a pattern as the reader does. -/
theorem follows_readTokens (tokens : List (Token × Nat)) :
    Follows limit supply (.state supply) 0 (Parser.readTokens tokens)
      (readTokens limit supply tokens) :=
  follows_foldlM tokens .initial

theorem follows_finish {state : Parser.State}
    (balanced : state.afterOperand = true →
      Parser.Balanced state.operators state.operands) :
    Follows limit supply (.nfa supply) (stateCount state.operands)
      state.finish ((State.ofReader supply state).finish limit) := by
  rcases state with ⟨operators, operands, _ | _⟩
  · match operators with
    | [] => exact .refuse (.nfa supply) operands _
    | (.group, _) :: _ => exact .refuse (.nfa supply) operands _
    | (.operator _, _) :: _ => exact .refuse (.nfa supply) operands _
  · apply (follows_reduceAll operators operands).bind
    intro reduced same
    rcases (balanced rfl).reduceAll_cases with
      ⟨opening, remaining, refused⟩ | ⟨tree, single⟩
    · cases same.symm.trans refused
    · cases same.symm.trans single
      exact .pure (.nfa supply) tree

/-- The construction reads a pattern as the reader does. -/
theorem follows_read (pattern : List Char) :
    Follows limit supply (.nfa supply) 0 (Parser.parse pattern)
      (read limit supply pattern) := by
  apply (follows_readTokens (Tokens.ofPattern pattern).placed).bind
  intro state reached
  cases fault : (Tokens.ofPattern pattern).fault with
  | some error => exact .refuse (.nfa supply) state.operands error
  | none =>
      have split : (Tokens.ofPattern pattern).placed =
          (Tokens.ofPattern pattern).placed ++ [] :=
        (List.append_nil _).symm
      exact follows_finish (Parser.inStep_of_readTokens split reached).balanced

/-- Construction while reading comes to the automaton that is assembled after
reading, or to the same refusal, and leaves the supply the same, if the last
number that is taken is below the limit.  Otherwise it takes all numbers that
are left and stops. -/
theorem build_eq_ofPattern (pattern : List Char)
    (within : supply.next ≤ limit) :
    build limit pattern supply =
      if (Nfa.ofPattern pattern supply).2.next ≤ limit then
        ((Nfa.ofPattern pattern supply).1.mapError .refused,
          (Nfa.ofPattern pattern supply).2)
      else (.error .exhausted, ⟨limit⟩) := by
  rw [build, (follows_read pattern).built_eq within, Nfa.ofPattern]
  cases Parser.parse pattern with
  | error failure =>
      rcases Nat.lt_or_ge limit (supply.next + failure.stateCount) with
        full | room
      · rw [View.outcome_exhausted full]
        exact (if_neg full.not_ge).symm
      · rw [View.outcome_error room]
        exact (if_pos room).symm
  | ok regex =>
      have next : (Nfa.ofRegex regex supply).2.next =
          supply.next + regex.stateCount :=
        regex.assemble_next (.start supply)
      rcases Nat.lt_or_ge limit (supply.next + regex.stateCount) with
        full | room
      · rw [View.outcome_exhausted full]
        exact (if_neg (next ▸ full.not_ge)).symm
      · rw [View.outcome_ok room]
        exact (if_pos (next ▸ room)).symm

end PatternAutomata.Constructor
