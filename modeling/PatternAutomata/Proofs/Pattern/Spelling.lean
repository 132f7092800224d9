import PatternAutomata.Proofs.Pattern.Parentheses
import PatternAutomata.Proofs.Pattern.Refusal

/-!
# Spellings of one expression

A pattern may be put in parentheses, and a concatenation that nothing writes
may be written.  Both leave the syntax tree as it is.  Where a concatenation can
be written follows from the two characters around the place: an operand ends
before it and another one starts after it.
-/

namespace PatternAutomata

/-- Outside bracket expressions, an operand ends at the end of the one part and
another one starts with the other part. -/
def Pattern.OperandsMeet (left right : List Char) : Prop :=
  EndsOutside left ∧
    (∃ last, left.getLast? = some last ∧ last ∉ ['(', '|', '&']) ∧
    ∃ first, right.head? = some first ∧
      first ∉ [')', '*', '+', '?', '|', '&']

namespace Parser

open Pattern

variable {word left right pattern : List Char} {tree : Regex} {state : State}
  {position : Nat}

theorem EndsInBracket.not_endsOutside (ends : EndsInBracket pattern) :
    ¬EndsOutside pattern := by
  rcases ends with ⟨front, cut, state, rfl, reads, refused⟩
  exact reads.endsOutside.not_append_bracket
    (Bracket.not_mem_of_unterminated refused)

/-- The beginning of a pattern that is read has been read up to any place
outside bracket expressions. -/
theorem exists_reads_of_parse (parsed : parse (left ++ right) = .ok tree)
    (outside : EndsOutside left) : ∃ state, Reads left state := by
  rcases Reads.start.cases_append left with reads | ends | ⟨error, stuck⟩
  · exact reads
  · exact absurd outside ends.not_endsOutside
  · rcases (stuck.append right).exists_parse_eq with ⟨operands, refused⟩
    cases refused.symm.trans parsed

/-- Characters that are read start an operand, if the first of them can. -/
theorem startsOperand_of_readOn {first : Char} {rest : List Char}
    (read : readOn position (first :: rest) state = .ok tree)
    (starts : first ∉ [')', '*', '+', '?', '|', '&']) :
    StartsOperand (first :: rest) := by
  by_cases bracket : first = '['
  · subst bracket
    rcases exists_body_of_readOn _ _ _ read with
      ⟨body, others, members, rfl, isBody, same⟩
    have expression := (reads_oneOf isBody same).2.append others
    simpa using expression
  · by_cases opens : first = '('
    · subst opens
      exact startsOperand_group.append rest
    · have plain : first ∉ special := by
        simp_all [special]
      exact (reads_literal plain).2.append rest

/-- A concatenation may be written where operands meet. -/
theorem parse_insert_concatenation (meet : OperandsMeet left right)
    (parsed : parse (left ++ right) = .ok tree) :
    parse (left ++ '&' :: right) = .ok tree := by
  rcases meet with ⟨outside, ends, first, head, starts⟩
  rcases exists_reads_of_parse parsed outside with ⟨state, reads⟩
  have after := reads.afterOperand_iff.2 ends
  rw [reads.parse_append] at parsed
  rcases List.head?_eq_some_iff.1 head with ⟨rest, rfl⟩
  have joins := (startsOperand_of_readOn parsed starts).joins left.length []
    state after
  rw [List.append_nil] at joins
  rcases exists_of_bind_eq_ok (joins.symm.trans parsed) with
    ⟨next, pushed, read⟩
  -- the rest is read as before, though at other positions
  have derived := derives_of_readOn (reads.holds.binary pushed) read
  rw [List.append_assoc] at derived
  exact parse_eq_ok_iff.2 derived

/-- A concatenation may be written nowhere else outside bracket expressions. -/
theorem operandsMeet_of_parse (outside : EndsOutside left)
    (parsed : parse (left ++ right) = .ok tree) {other : Regex}
    (inserted : parse (left ++ '&' :: right) = .ok other) :
    OperandsMeet left right := by
  rcases exists_reads_of_parse parsed outside with ⟨state, reads⟩
  rw [reads.parse_append, readOn_cons _ _ _ (by decide)] at inserted
  rcases exists_of_bind_eq_ok inserted with ⟨next, pushed, read⟩
  have after : state.afterOperand = true := by
    by_contra waiting
    cases startsOperand_of_step pushed (Bool.eq_false_of_not_eq_true waiting)
  refine ⟨outside, reads.afterOperand_iff.1 after, ?_⟩
  have waiting : next.afterOperand = false := afterOperand_step pushed
  cases right with
  | nil =>
      rw [afterOperand_of_finish read] at waiting
      cases waiting
  | cons first rest =>
      refine ⟨first, rfl, ?_⟩
      by_cases bracket : first = '['
      · rw [bracket]
        decide
      · rw [readOn_cons _ _ _ bracket] at read
        rcases exists_of_bind_eq_ok read with ⟨reached, stepped, -⟩
        exact (Token.startsOperand_ofChar_iff first).1
          (startsOperand_of_step stepped waiting)

/-- A pattern may be put in parentheses. -/
theorem parse_group (parsed : parse pattern = .ok tree) :
    parse ('(' :: (pattern ++ [')'])) = .ok tree := by
  rw [parse_eq_ok_iff] at parsed ⊢
  exact .term (.factor (.atom (.group parsed)))

/-- In a pattern that is read, a concatenation may be written where operands
meet and nowhere else outside bracket expressions. -/
theorem exists_parse_insert_iff (parsed : parse (left ++ right) = .ok tree)
    (outside : EndsOutside left) :
    (∃ other, parse (left ++ '&' :: right) = .ok other) ↔
      OperandsMeet left right := by
  constructor
  · rintro ⟨other, inserted⟩
    exact operandsMeet_of_parse outside parsed inserted
  · intro meet
    exact ⟨tree, parse_insert_concatenation meet parsed⟩

end Parser

end PatternAutomata
