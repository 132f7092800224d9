import PatternAutomata.Proofs.Pattern.OpenGroups
import PatternAutomata.Proofs.Pattern.Outline

/-!
# Matching parentheses

Outside bracket expressions a closing parenthesis closes an opening one if the
parentheses between them match each other.  This says which groups of a pattern
are not closed without saying how a pattern is read.  A beginning of a pattern
falls into matched pieces and the opening parentheses between them, and the
groups on the operator stack stand at the places of these parentheses; so the
topmost one is the last one that is not closed.
-/

namespace PatternAutomata

namespace Pattern

/-- The parentheses outside bracket expressions match. -/
inductive Balanced : List Char → Prop
  | nil : Balanced []
  | character {word : List Char} {character : Char} :
      Balanced word → character ∉ ['(', ')', '['] →
      Balanced (word ++ [character])
  | bracket {word body : List Char} :
      Balanced word → ']' ∉ body → Balanced (word ++ '[' :: (body ++ [']']))
  | group {word body : List Char} :
      Balanced word → Balanced body →
      Balanced (word ++ '(' :: (body ++ [')']))

/-- A group opens at the place. -/
def OpensAt (pattern : List Char) (place : Nat) : Prop :=
  pattern[place]? = some '(' ∧ EndsOutside (pattern.take place)

/-- The group that opens at the one place is closed at the other. -/
def ClosesAt (pattern : List Char) (opening closing : Nat) : Prop :=
  ∃ front body back, pattern = front ++ '(' :: (body ++ ')' :: back) ∧
    EndsOutside front ∧ Balanced body ∧
    opening = front.length ∧ closing = front.length + 1 + body.length

/-- The group that opens at the place is not closed. -/
def IsUnclosed (pattern : List Char) (opening : Nat) : Prop :=
  OpensAt pattern opening ∧ ∀ closing, ¬ClosesAt pattern opening closing

/-- The group that opens at the place is the last one that is not closed. -/
def IsLastUnclosed (pattern : List Char) (opening : Nat) : Prop :=
  IsUnclosed pattern opening ∧
    ∀ later, IsUnclosed pattern later → later ≤ opening

/-! ## Places in characters that are put together -/

theorem append_eq_append_cons_iff {word rest front back : List Char}
    {character : Char} :
    word ++ rest = front ++ character :: back ↔
      (∃ middle, word = front ++ character :: middle ∧
        back = middle ++ rest) ∨
      ∃ middle, front = word ++ middle ∧ rest = middle ++ character :: back := by
  rw [List.append_eq_append_iff]
  constructor
  · rintro (⟨middle, rfl, rfl⟩ | ⟨middle, rfl, split⟩)
    · exact .inr ⟨middle, rfl, rfl⟩
    · rcases List.cons_eq_append_iff.1 split with
        ⟨rfl, rfl⟩ | ⟨middle, rfl, rfl⟩
      · exact .inr ⟨[], by simp, rfl⟩
      · exact .inl ⟨middle, rfl, rfl⟩
  · rintro (⟨middle, rfl, rfl⟩ | ⟨middle, rfl, rfl⟩)
    · exact .inr ⟨character :: middle, rfl, rfl⟩
    · exact .inl ⟨middle, rfl, rfl⟩

theorem opensAt_iff {pattern : List Char} {place : Nat} :
    OpensAt pattern place ↔ ∃ front back, pattern = front ++ '(' :: back ∧
      EndsOutside front ∧ place = front.length := by
  constructor
  · rintro ⟨found, outside⟩
    rcases List.getElem?_eq_some_iff.1 found with ⟨inside, sign⟩
    refine ⟨pattern.take place, pattern.drop (place + 1), ?_, outside, ?_⟩
    · rw [← sign, List.getElem_cons_drop, List.take_append_drop]
    · rw [List.length_take, Nat.min_eq_left (Nat.le_of_lt inside)]
  · rintro ⟨front, back, rfl, outside, rfl⟩
    refine ⟨by simp, ?_⟩
    rw [List.take_left]
    exact outside

namespace EndsOutside

variable {word rest body : List Char}

/-- What follows the end of a phrase ends outside if the whole does. -/
theorem of_append (whole : EndsOutside (word ++ rest))
    (front : EndsOutside word) : EndsOutside rest := by
  intro more
  have spelled := whole more
  rw [List.append_assoc, front, front, List.append_assoc] at spelled
  exact List.append_cancel_left spelled

/-- A bracket expression lasts until a closing bracket. -/
theorem not_append_bracket (front : EndsOutside word)
    (unclosed : ']' ∉ body) : ¬EndsOutside (word ++ '[' :: body) := by
  intro whole
  have rest := whole.of_append front
  -- one character more is outside, but not after an open bracket
  have more := rest ['a']
  have hidden (characters : List Char) (unclosed : ']' ∉ characters) :
      outlineFrom true characters = [] := by
    induction characters with
    | nil => rfl
    | cons character characters passes =>
        rw [List.mem_cons, not_or] at unclosed
        rw [outlineFrom, decide_eq_true (Ne.symm unclosed.1)]
        exact passes unclosed.2
  have plain : ']' ∉ body ++ ['a'] := by simp [unclosed]
  change '[' :: outlineFrom true (body ++ ['a']) =
    '[' :: (outlineFrom true body ++ ['a']) at more
  rw [hidden _ plain, hidden _ unclosed] at more
  cases more

end EndsOutside

/-! ## Matched parentheses -/

/-- With the given number of groups open, a parenthesis among the characters
closes another group than these and those that open among them. -/
def closesMore : Nat → List Char → Bool
  | _, [] => false
  | 0, ')' :: _ => true
  | depth + 1, ')' :: rest => closesMore depth rest
  | depth, '(' :: rest => closesMore (depth + 1) rest
  | depth, _ :: rest => closesMore depth rest

namespace Balanced

variable {word more body : List Char}

theorem endsOutside (balanced : Balanced word) : EndsOutside word := by
  induction balanced with
  | nil => exact fun _ => rfl
  | character _ plain ends =>
      refine ends.append (.singleton ?_)
      rintro rfl
      exact plain (by decide)
  | bracket _ unclosed ends => exact ends.append (.bracket unclosed)
  | group _ _ ends bodyEnds =>
      have opens : EndsOutside ['('] := .singleton (by decide)
      have closes : EndsOutside [')'] := .singleton (by decide)
      exact ends.append (opens.append (bodyEnds.append closes))

theorem append (balanced : Balanced word) (also : Balanced more) :
    Balanced (word ++ more) := by
  induction also with
  | nil =>
      rw [List.append_nil]
      exact balanced
  | character _ plain whole =>
      rw [← List.append_assoc]
      exact .character whole plain
  | bracket _ unclosed whole =>
      rw [← List.append_assoc]
      exact .bracket whole unclosed
  | group _ inner whole _ =>
      rw [← List.append_assoc]
      exact .group whole inner

/-- Matched parentheses close no other groups. -/
theorem closesMore_append (balanced : Balanced word) (depth : Nat)
    (rest : List Char) :
    closesMore depth (outline word ++ rest) = closesMore depth rest := by
  induction balanced generalizing depth rest with
  | nil => rfl
  | @character word character balanced plain passes =>
      have sign : outline [character] = [character] := rfl
      rw [balanced.endsOutside, sign, List.append_assoc, passes]
      simp only [List.mem_cons, List.not_mem_nil, or_false, not_or] at plain
      rcases plain with ⟨opens, closes, -⟩
      rw [List.singleton_append, closesMore]
      · exact opens
      · exact fun _ => closes
      · exact fun _ _ => closes
  | @bracket word body balanced unclosed passes =>
      have sign : outline ('[' :: (body ++ [']'])) = ['['] :=
        congrArg _ (outlineFrom_body unclosed [])
      rw [balanced.endsOutside, sign, List.append_assoc, passes]
      rfl
  | @group word body balanced inner passes innerPasses =>
      have opens : outline ('(' :: (body ++ [')'])) =
          '(' :: (outline body ++ [')']) :=
        congrArg ('(' :: ·) (inner.endsOutside [')'])
      rw [balanced.endsOutside, opens, List.append_assoc, passes,
        List.cons_append, List.append_assoc, closesMore, innerPasses]
      rfl

/-- After matched parentheses another one cannot be closed. -/
theorem not_append_closing (balanced : Balanced body) (rest : List Char) :
    ¬Balanced (body ++ ')' :: rest) := by
  intro whole
  have none_more := whole.closesMore_append 0 []
  rw [List.append_nil, balanced.endsOutside,
    balanced.closesMore_append] at none_more
  cases none_more

/-- Every group among matched parentheses is closed. -/
theorem exists_closing (balanced : Balanced word) {front back : List Char}
    (split : word = front ++ '(' :: back) (outside : EndsOutside front) :
    ∃ body rest, back = body ++ ')' :: rest ∧ Balanced body := by
  have extend {middle rest : List Char}
      (closed : ∃ body back, middle = body ++ ')' :: back ∧ Balanced body) :
      ∃ body back, middle ++ rest = body ++ ')' :: back ∧ Balanced body := by
    rcases closed with ⟨body, back, rfl, inner⟩
    exact ⟨body, back ++ rest, by simp, inner⟩
  induction balanced generalizing front back with
  | nil => simp at split
  | character _ plain closed =>
      rcases append_eq_append_cons_iff.1 split with
        ⟨middle, rfl, rfl⟩ | ⟨middle, rfl, sign⟩
      · exact extend (closed rfl outside)
      · rcases List.singleton_eq_append_iff.1 sign with
          ⟨rfl, same⟩ | ⟨-, impossible⟩
        · cases same
          exact absurd List.mem_cons_self plain
        · cases impossible
  | @bracket word body balanced unclosed closed =>
      rcases append_eq_append_cons_iff.1 split with
        ⟨middle, rfl, rfl⟩ | ⟨middle, rfl, inside⟩
      · exact extend (closed rfl outside)
      · -- the place would be in the bracket expression
        rcases List.cons_eq_append_iff.1 inside with
          ⟨-, impossible⟩ | ⟨part, rfl, inBody⟩
        · cases impossible
        · rcases append_eq_append_cons_iff.1 inBody with
            ⟨middle, rfl, -⟩ | ⟨middle, rfl, sign⟩
          · rw [List.mem_append, not_or] at unclosed
            exact absurd outside
              (balanced.endsOutside.not_append_bracket unclosed.1)
          · simp [List.singleton_eq_append_iff] at sign
  | @group word inner balanced innerBalanced closed innerClosed =>
      rcases append_eq_append_cons_iff.1 split with
        ⟨middle, rfl, rfl⟩ | ⟨middle, rfl, inside⟩
      · exact extend (closed rfl outside)
      · have rest := outside.of_append balanced.endsOutside
        rcases List.cons_eq_append_iff.1 inside with
          ⟨rfl, same⟩ | ⟨part, rfl, inBody⟩
        · cases same
          exact ⟨inner, [], rfl, innerBalanced⟩
        · have opens : EndsOutside ['('] := .singleton (by decide)
          have partOutside : EndsOutside part := rest.of_append opens
          rcases append_eq_append_cons_iff.1 inBody with
            ⟨middle, rfl, rfl⟩ | ⟨middle, rfl, sign⟩
          · exact extend (innerClosed rfl partOutside)
          · simp [List.singleton_eq_append_iff] at sign

end Balanced

/-! ## Groups that are left open -/

/-- The characters fall into matched pieces and the opening parentheses at the
given places between them, the last one first. -/
inductive LeavesOpen : List Char → List Nat → Prop
  | matched {word : List Char} : Balanced word → LeavesOpen word []
  | group {front word : List Char} {places : List Nat} :
      LeavesOpen front places → Balanced word →
      LeavesOpen (front ++ '(' :: word) (front.length :: places)

namespace LeavesOpen

variable {word more : List Char} {places : List Nat} {opening : Nat}

theorem endsOutside (leaves : LeavesOpen word places) : EndsOutside word := by
  have opens : EndsOutside ['('] := .singleton (by decide)
  induction leaves with
  | matched balanced => exact balanced.endsOutside
  | group _ balanced ends =>
      exact ends.append (opens.append balanced.endsOutside)

theorem append (leaves : LeavesOpen word places) (balanced : Balanced more) :
    LeavesOpen (word ++ more) places := by
  cases leaves with
  | matched front => exact .matched (front.append balanced)
  | group leaves front =>
      rw [List.append_assoc, List.cons_append]
      exact .group leaves (front.append balanced)

theorem openGroup (leaves : LeavesOpen word places) :
    LeavesOpen (word ++ ['(']) (word.length :: places) :=
  .group leaves .nil

theorem closeGroup (leaves : LeavesOpen word (opening :: places)) :
    LeavesOpen (word ++ [')']) places := by
  cases leaves with
  | group leaves balanced =>
      have whole := leaves.append (Balanced.nil.group balanced)
      simpa using whole

/-- The last place is that of the last group that is not closed. -/
theorem isLastUnclosed (leaves : LeavesOpen word (opening :: places)) :
    IsLastUnclosed word opening := by
  cases leaves with
  | @group front body places leaves balanced =>
      have frontOutside := leaves.endsOutside
      refine ⟨⟨?_, ?_⟩, ?_⟩
      · exact opensAt_iff.2 ⟨front, body, rfl, frontOutside, rfl⟩
      · rintro closing ⟨other, inner, back, same, -, innerBalanced, length, -⟩
        cases (List.append_inj same length).2
        exact innerBalanced.not_append_closing back balanced
      · rintro later ⟨opens, unclosed⟩
        rcases opensAt_iff.1 opens with ⟨other, back, same, outside, rfl⟩
        rcases append_eq_append_cons_iff.1 same with
          ⟨middle, rfl, -⟩ | ⟨middle, rfl, inside⟩
        · rw [List.length_append]
          exact Nat.le_add_right _ _
        · -- a later group lies in the matched piece, where it is closed
          rcases List.cons_eq_append_iff.1 inside with
            ⟨rfl, -⟩ | ⟨part, rfl, inBody⟩
          · rw [List.append_nil]
          · have opens : EndsOutside ['('] := .singleton (by decide)
            have partOutside : EndsOutside part :=
              (outside.of_append frontOutside).of_append opens
            rcases balanced.exists_closing inBody partOutside with
              ⟨inner, rest, rfl, innerBalanced⟩
            exact absurd ⟨front ++ '(' :: part, inner, rest, same, outside,
              innerBalanced, rfl, rfl⟩ (unclosed _)

end LeavesOpen

end Pattern

namespace Parser

open Pattern

variable {word : List Char} {state next : State} {before after : List Nat}

/-- A character outside bracket expressions opens a group, closes the innermost
one or belongs to a matched piece. -/
theorem leavesOpen_character {character : Char}
    (leaves : LeavesOpen word before) (plain : character ≠ '[')
    (regroups : (Token.ofChar character).Regroups word.length before after) :
    LeavesOpen (word ++ [character]) after := by
  have spelled := Token.sign?_ofChar character
  have matched (opens : character ≠ '(') (closes : character ≠ ')') :
      Balanced [character] :=
    .character .nil (by simp [opens, closes, plain])
  cases token : Token.ofChar character with
  | openGroup =>
      rw [token] at spelled regroups
      cases spelled
      cases regroups
      exact leaves.openGroup
  | closeGroup =>
      rw [token] at spelled regroups
      cases spelled
      rcases regroups with ⟨opening, rfl⟩
      exact leaves.closeGroup
  | _ =>
      rw [token] at regroups
      cases regroups
      refine leaves.append (matched ?_ ?_)
      · rintro rfl
        cases token
      · rintro rfl
        cases token

/-- The groups on the operator stack are those that are not closed. -/
theorem Reads.leavesOpen (reads : Reads word state) :
    LeavesOpen word (openings state.operators) := by
  induction reads with
  | start => exact .matched .nil
  | character _ plain stepped leaves =>
      exact leavesOpen_character leaves plain (regroups_step stepped)
  | bracket _ isBody _ stepped leaves =>
      have kept := regroups_step stepped
      rw [show openings _ = _ from kept]
      exact leaves.append (Balanced.nil.bracket isBody.unclosed)

theorem Reads.endsOutside (reads : Reads word state) : EndsOutside word :=
  reads.leavesOpen.endsOutside

end Parser

end PatternAutomata
