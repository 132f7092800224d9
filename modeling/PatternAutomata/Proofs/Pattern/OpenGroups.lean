import PatternAutomata.Proofs.Pattern.Reading

/-!
# Groups that are left open

The groups on the operator stack are those that the tokens read so far have
opened and not closed.  After an operand, as many closing parentheses complete
the pattern.  So whatever has been read can be completed: an operand may be
added anywhere.
-/

namespace PatternAutomata

/-- How many groups a pattern opens and does not close. -/
def openGroups (pattern : List Char) : Nat :=
  let tokens := (Tokens.ofPattern pattern).placed.map Prod.fst
  tokens.count .openGroup - tokens.count .closeGroup

/-- A pattern with its open groups closed. -/
def withGroupsClosed (pattern : List Char) : List Char :=
  pattern ++ List.replicate (openGroups pattern) ')'

/-- What reading a token at a position does to the positions of the groups that
are open, the innermost first. -/
def Token.Regroups (position : Nat) (before after : List Nat) : Token → Prop
  | openGroup => after = position :: before
  | closeGroup => ∃ opening, before = opening :: after
  | _ => after = before

theorem Token.Regroups.length_eq {position : Nat} {before after : List Nat}
    {token : Token}
    (regroups : token.Regroups position before after) :
    after.length + [token].count .closeGroup =
      before.length + [token].count .openGroup := by
  cases token with
  | openGroup =>
      cases regroups
      rfl
  | closeGroup =>
      rcases regroups with ⟨opening, rfl⟩
      rfl
  | _ =>
      cases regroups
      simp

namespace Parser

/-- How many groups wait on the operator stack. -/
def groupCount (operators : Operators) : Nat :=
  operators.countP fun entry => entry.1 = .group

/-- The positions of the groups that wait on the operator stack, the innermost
first. -/
def openings (operators : Operators) : List Nat :=
  (operators.filter fun entry => entry.1 = .group).map Prod.snd

theorem groupCount_eq (operators : Operators) :
    groupCount operators = (openings operators).length := by
  rw [groupCount, openings, List.length_map, List.countP_eq_length_filter]

@[simp]
theorem openings_group (position : Nat) (operators : Operators) :
    openings ((.group, position) :: operators) =
      position :: openings operators := by
  simp [openings]

@[simp]
theorem openings_operator (operator : BinaryOperator) (position : Nat)
    (operators : Operators) :
    openings ((.operator operator, position) :: operators) =
      openings operators := by
  simp [openings]

variable {operators : Operators} {operands : Operands}
  {reduced : Operators × Operands} {state next : State} {word : List Char}
  {position : Nat}

/-! ## What tokens do to open groups -/

theorem openings_reduceTighter {precedence : Nat}
    (result : reduceTighter precedence operators operands = .ok reduced) :
    openings reduced.1 = openings operators := by
  induction operators generalizing operands with
  | nil =>
      cases result
      rfl
  | cons entry rest kept =>
      rcases entry with ⟨_ | operator, opening⟩
      · cases result
        rfl
      · rw [reduceTighter] at result
        split at result
        · cases result
          rfl
        · rcases exists_of_bind_eq_ok result with ⟨joined, -, result⟩
          rw [openings_operator]
          exact kept result

theorem openings_reduceGroup {closing : Nat}
    (result : reduceGroup closing operators operands = .ok reduced) :
    ∃ opening, openings operators = opening :: openings reduced.1 := by
  induction operators generalizing operands with
  | nil => exact nomatch result
  | cons entry rest removed =>
      rcases entry with ⟨_ | operator, opening⟩
      · cases result
        exact ⟨opening, openings_group opening rest⟩
      · rw [reduceGroup] at result
        rcases exists_of_bind_eq_ok result with ⟨joined, -, result⟩
        rw [openings_operator]
        exact removed result

theorem openings_pushOperator {operator : BinaryOperator}
    (pushed : state.pushOperator operator position = .ok next) :
    openings next.operators = openings state.operators := by
  rcases exists_of_pushOperator pushed with ⟨-, reduced, reduces, rfl⟩
  rw [openings_operator]
  exact openings_reduceTighter reduces

theorem openings_beforeOperand
    (ready : state.beforeOperand position = .ok next) :
    openings next.operators = openings state.operators := by
  rw [State.beforeOperand] at ready
  split at ready
  · exact openings_pushOperator ready
  · cases ready
    rfl

theorem openings_pushOperand {operand : Regex}
    (pushed : state.pushOperand operand position = .ok next) :
    openings next.operators = openings state.operators := by
  rcases exists_of_bind_eq_ok pushed with ⟨ready, before, same⟩
  cases same
  have kept := openings_beforeOperand before
  exact kept

theorem openings_openGroup (opened : state.openGroup position = .ok next) :
    openings next.operators = position :: openings state.operators := by
  rcases exists_of_bind_eq_ok opened with ⟨ready, before, same⟩
  cases same
  rw [openings_group, openings_beforeOperand before]

theorem openings_closeGroup
    (closed : state.closeGroup position = .ok next) :
    ∃ opening, openings state.operators =
      opening :: openings next.operators := by
  rcases exists_of_closeGroup closed with ⟨-, reduced, reduces, rfl⟩
  exact openings_reduceGroup reduces

theorem openings_repeatOperand {repetition : Repetition}
    (repeated : state.repeatOperand repetition position = .ok next) :
    openings next.operators = openings state.operators := by
  rcases exists_of_repeatOperand repeated with ⟨-, body, rest, -, rfl⟩
  rfl

/-- A token opens a group, closes the innermost one or does neither. -/
theorem regroups_step {token : Token}
    (stepped : state.step (token, position) = .ok next) :
    token.Regroups position (openings state.operators)
      (openings next.operators) := by
  cases token with
  | literal character => exact openings_pushOperand stepped
  | oneOf members => exact openings_pushOperand stepped
  | openGroup => exact openings_openGroup stepped
  | closeGroup => exact openings_closeGroup stepped
  | binary operator => exact openings_pushOperator stepped
  | repetition repetition => exact openings_repeatOperand stepped

/-- The groups that waiting tokens have opened and those that they have closed
balance with the groups on the operator stack. -/
def Balances (state : State) (placed : List (Token × Nat)) : Prop :=
  groupCount state.operators + (placed.map Prod.fst).count .closeGroup =
    (placed.map Prod.fst).count .openGroup

theorem Balances.step {placed : List (Token × Nat)} {token : Token}
    (balances : Balances state placed)
    (stepped : state.step (token, position) = .ok next) :
    Balances next (placed ++ [(token, position)]) := by
  have change := (regroups_step stepped).length_eq
  rw [← groupCount_eq, ← groupCount_eq] at change
  rw [Balances] at balances ⊢
  rw [List.map_append, List.count_append, List.count_append, List.map_cons,
    List.map_nil]
  dsimp only
  omega

/-- The tokens of what has been read come first, whatever follows. -/
theorem Reads.exists_tokens (reads : Reads word state) :
    ∃ placed, Balances state placed ∧
      ∀ rest, (Tokens.ofPattern (word ++ rest)).placed =
        placed ++ (Tokens.readFrom word.length 0 rest).placed := by
  induction reads with
  | start => exact ⟨[], rfl, fun _ => rfl⟩
  | @character word state next character _ plain stepped tokens =>
      rcases tokens with ⟨placed, balances, tokens⟩
      refine ⟨_, balances.step stepped, ?_⟩
      intro rest
      rw [List.append_assoc, tokens, List.singleton_append, Tokens.readFrom,
        if_neg plain, List.length_append, List.append_assoc]
      rfl
  | @bracket word body members state next _ isBody same stepped tokens =>
      rcases tokens with ⟨placed, balances, tokens⟩
      refine ⟨_, balances.step stepped, ?_⟩
      intro rest
      rw [append_bracket_append, tokens, readFrom_body _ _ isBody same,
        length_append_bracket, List.append_assoc]
      rfl

/-- As many groups wait on the operator stack as the pattern leaves open. -/
theorem Reads.openGroups_eq (reads : Reads word state) :
    openGroups word = groupCount state.operators := by
  rcases reads.exists_tokens with ⟨placed, balances, tokens⟩
  have whole := tokens []
  rw [List.append_nil, Tokens.readFrom, List.append_nil] at whole
  rw [openGroups, whole, ← balances]
  exact Nat.add_sub_cancel _ _

/-! ## Completing patterns -/

/-- After an operand, the pattern may end if no group is open, and a group may
be closed if one is. -/
theorem Holds.complete_cases (holds : Holds word state)
    (after : state.afterOperand = true) :
    openings state.operators = [] ∧ (∃ tree, state.finish = .ok tree) ∧
        (∀ position, ∃ operands, state.closeGroup position =
          .error ⟨.unmatchedClosing position, operands⟩) ∨
      ∃ opening others, openings state.operators = opening :: others ∧
        (∃ operands, state.finish =
          .error ⟨.unmatchedOpening opening, operands⟩) ∧
        ∀ position, ∃ next, state.closeGroup position = .ok next ∧
          next.afterOperand = true := by
  cases holds with
  | awaiting => exact nomatch after
  | complete awaits derived =>
      rcases awaits.reduces .alternation derived with
        ⟨reduced, rest, before, phrase, tree, reduces, remaining, loose, -⟩
      have closes (position : Nat) := reduceGroup_eq position reduces
      have kept := openings_reduceTighter reduces
      simp only [State.finish, State.closeGroup, if_true,
        reduceAll_eq reduces, closes, ← kept]
      cases remaining with
      | start => exact .inl ⟨rfl, ⟨_, rfl⟩, fun _ => ⟨_, rfl⟩⟩
      | group opening =>
          exact .inr ⟨opening, _, openings_group opening _, ⟨_, rfl⟩,
            fun _ => ⟨_, rfl, rfl⟩⟩
      | operator => exact absurd loose (not_isLoose_alternation _ _)

/-- After an operand, closing the open groups completes the pattern. -/
theorem Holds.exists_readOn_closing (holds : Holds word state)
    (after : state.afterOperand = true) (position : Nat) :
    ∃ tree, readOn position
      (List.replicate (groupCount state.operators) ')') state = .ok tree := by
  rw [groupCount_eq]
  generalize open_groups : openings state.operators = groups
  induction groups generalizing word state position with
  | nil =>
      rcases holds.complete_cases after with
        ⟨-, finishes, -⟩ | ⟨opening, others, some_open, -⟩
      · exact finishes
      · exact nomatch some_open.symm.trans open_groups
  | cons innermost outer completes =>
      rcases holds.complete_cases after with
        ⟨none_open, -⟩ | ⟨-, -, -, -, closes⟩
      · exact nomatch none_open.symm.trans open_groups
      · rcases closes position with ⟨next, closed, nextAfter⟩
        rcases openings_closeGroup closed with ⟨opening, closes⟩
        have left : openings next.operators = outer :=
          (List.cons.inj (closes.symm.trans open_groups)).2
        rcases completes (holds.closeGroup closed) nextAfter (position + 1)
          left with ⟨tree, completed⟩
        refine ⟨tree, ?_⟩
        rw [List.length_cons, List.replicate_succ,
          readOn_cons _ _ _ (by decide)]
        change (state.closeGroup position).bind _ = _
        rw [closed]
        exact completed

/-- What has been read can be completed, by an operand and as many closing
parentheses as there are open groups. -/
theorem Reads.exists_completion (reads : Reads word state) :
    ∃ rest tree, parse (word ++ rest) = .ok tree := by
  rcases reads.holds.exists_pushOperand (.literal 'a') word.length with
    ⟨next, pushed, after⟩
  have extended : Reads (word ++ ['a']) next :=
    reads.character (by decide) pushed
  rcases extended.holds.exists_readOn_closing after (word ++ ['a']).length with
    ⟨tree, closes⟩
  rw [← extended.parse_append, List.append_assoc] at closes
  exact ⟨_, tree, closes⟩

end Parser

end PatternAutomata
