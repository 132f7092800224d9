import PatternAutomata.Proofs.Nfa.Thompson
import PatternAutomata.Proofs.Pattern.Outline
import PatternAutomata.Proofs.Pattern.Parser

/-!
# The shape of the automaton of a pattern

Every literal, bracket expression, alternation and repetition of a pattern adds
two states to its automaton; groups and concatenations add none.  Bracket
expressions have members, so all states lie on paths from the start to the
final state.  Every state but the final one reads characters, with one target,
or has one or two empty edges.
-/

namespace PatternAutomata.Nfa

/-- The automaton has consecutive states from a given one on, which lie on
paths between its terminals, and each of which does one thing. -/
structure HasThompsonShape (nfa : Nfa) (first : StateId) (count : Nat) :
    Prop where
  /-- The numbers of the states in the order of their creation. -/
  ids : nfa.ids = List.range' first count
  /-- Edges lead to states. -/
  targets : ∀ source label, ∀ target ∈ nfa.targets source label,
    nfa.contains target = true
  /-- The start is a state. -/
  start : nfa.contains nfa.start = true
  /-- The final state is a state. -/
  final : nfa.contains nfa.final = true
  /-- Every state lies on a path from the start to the final state. -/
  between : ∀ id, nfa.contains id = true → ∃ front back,
    nfa.Path nfa.start front id ∧ nfa.Path id back nfa.final
  /-- No edge enters the start. -/
  entry : ∀ source label, nfa.start ∉ nfa.targets source label
  /-- No edge leaves the final state. -/
  exit : ∀ label, nfa.targets nfa.final label = ∅
  /-- Every other state reads characters or has one or two empty edges. -/
  junction : ∀ id, nfa.contains id = true → id ≠ nfa.final →
    nfa.IsReader id ∨ nfa.IsSwitch id

/-- The states of the automaton of an expression are numbered from the first
number of the supply on. -/
theorem ids_ofRegex (regex : Regex) (supply : IdSupply) :
    (ofRegex regex supply).1.ids =
      List.range' supply.next regex.stateCount := by
  rcases regex.exists_holds_assemble supply with ⟨states, holds⟩
  have size : (ofRegex regex supply).1.size = regex.stateCount :=
    (regex.size_assemble (.start supply)).trans (Nat.zero_add _)
  have next : (ofRegex regex supply).1.nextId
      (regex.assemble (.start supply)).2.supply.next =
        supply.next + regex.stateCount :=
    holds.orderly.trans (regex.assemble_next (.start supply))
  have occupied : (ofRegex regex supply).1.isEmpty = false := by
    cases empty : (ofRegex regex supply).1.isEmpty with
    | false => rfl
    | true =>
        have start := (realizes_ofRegex regex supply).final
        rw [contains, state?_eq_none_of_isEmpty empty] at start
        cases start
  rw [nextId, if_neg (Bool.eq_false_iff.1 occupied), size] at next
  rw [ids, size, Nat.add_right_cancel next]

/-- If no class is empty, the automaton of an expression has two states for
each literal, class, alternation and repetition, all on paths through it. -/
theorem hasThompsonShape_ofRegex {regex : Regex}
    (hasMembers : regex.HasMembers) (supply : IdSupply) :
    (ofRegex regex supply).1.HasThompsonShape supply.next
      regex.stateCount := by
  rcases regex.exists_holds_assemble supply with ⟨states, holds⟩
  have stands := holds.stands _ (.head _)
  have trim := stands.isTrim hasMembers
  have inside (id : StateId)
      (state : (ofRegex regex supply).1.contains id = true) : id ∈ states :=
    (holds.contains_iff id).1 state
  have same (id : StateId) (label : Label) :
      (ofRegex regex supply).1.targets id label =
        (regex.assemble (.start supply)).2.nfa.targets id label :=
    rfl
  refine ⟨ids_ofRegex regex supply, ?_, ?_, ?_, ?_, ?_, ?_, ?_⟩
  · intro source label target edge
    exact holds.contains_of_mem_targets edge
  · exact stands.spans.contains _ stands.spans.start_mem
  · exact stands.spans.contains _ stands.spans.final_mem
  · intro id state
    rcases trim.feeds id (inside id state) with ⟨front, feeds⟩
    rcases trim.drains id (inside id state) with ⟨back, drains⟩
    exact ⟨front, back, (Path.iff_of_targets_eq same).2 feeds,
      (Path.iff_of_targets_eq same).2 drains⟩
  · exact stands.isSealed.entry
  · exact stands.isSealed.exit
  · intro id state inner
    exact (trim.junction id (inside id state) inner).transfer (same id)

/-- The automaton of a pattern has two states for everything in it that is no
group and no concatenation, and they all lie on paths through it. -/
theorem hasThompsonShape_ofPattern {pattern : List Char} {supply : IdSupply}
    {nfa : Nfa} (parsed : (ofPattern pattern supply).1 = .ok nfa) :
    nfa.HasThompsonShape supply.next (2 * Pattern.unitCount pattern) := by
  rcases exists_regex_of_ofPattern parsed with ⟨regex, read, rfl⟩
  have derived := Parser.parse_eq_ok_iff.1 read
  rw [← Pattern.stateCount_of_derives derived]
  exact hasThompsonShape_ofRegex (Parser.hasMembers_of_derives derived) supply

end PatternAutomata.Nfa
