import PatternAutomata.Nfa.Basic

/-!
# Paths through an automaton

A path follows edges and spells the characters that they read; empty edges
spell nothing.  The states in which an automaton can be after a word are the
ends of the paths from its start state that spell the word.

A number that is no state has no edges, so a path may end at such a number but
cannot pass through it.
-/

namespace PatternAutomata.Nfa

variable {nfa : Nfa}

theorem mem_targets_iff {source target : StateId} {label : Label} :
    target ∈ nfa.targets source label ↔
      ∃ state, nfa.state? source = some state ∧
        target ∈ state.targets label := by
  unfold targets
  cases nfa.state? source <;> simp

/-- A path between two numbers, with the word that it spells. -/
inductive Path (nfa : Nfa) : StateId → List Char → StateId → Prop where
  /-- The path without edges. -/
  | done (id : StateId) : Path nfa id [] id
  /-- A path that begins with an empty edge. -/
  | empty {source next target : StateId} {word : List Char}
      (edge : next ∈ nfa.targets source .epsilon)
      (rest : Path nfa next word target) :
      Path nfa source word target
  /-- A path that begins with an edge that reads a character. -/
  | read {source next target : StateId} {character : Char}
      {word : List Char}
      (edge : next ∈ nfa.targets source (.char character))
      (rest : Path nfa next word target) :
      Path nfa source (character :: word) target

namespace Path

variable {first middle last : StateId} {word continuation : List Char}

/-- The path along one empty edge. -/
theorem ofEmptyEdge (edge : last ∈ nfa.targets first .epsilon) :
    nfa.Path first [] last :=
  .empty edge (.done last)

/-- The path along any one edge. -/
theorem ofEdge {label : Label} (edge : last ∈ nfa.targets first label) :
    nfa.Path first label.char?.toList last := by
  cases label with
  | epsilon => exact ofEmptyEdge edge
  | char character => exact .read edge (.done last)

theorem trans (front : nfa.Path first word middle)
    (back : nfa.Path middle continuation last) :
    nfa.Path first (word ++ continuation) last := by
  induction front with
  | done => exact back
  | empty edge _ extended => exact .empty edge (extended back)
  | read edge _ extended => exact .read edge (extended back)

/-- A path that spells a word can be divided at every place of the word. -/
theorem divide (path : nfa.Path first (word ++ continuation) last) :
    ∃ middle, nfa.Path first word middle ∧
      nfa.Path middle continuation last := by
  generalize whole : word ++ continuation = spelled at path
  induction path generalizing word with
  | done id =>
      rcases List.append_eq_nil_iff.1 whole with ⟨rfl, rfl⟩
      exact ⟨id, .done id, .done id⟩
  | empty edge _ divided =>
      rcases divided whole with ⟨middle, front, back⟩
      exact ⟨middle, .empty edge front, back⟩
  | @read source next target character spelled edge rest divided =>
      cases word with
      | nil =>
          rw [List.nil_append] at whole
          subst whole
          exact ⟨source, .done source, .read edge rest⟩
      | cons head tail =>
          rw [List.cons_append, List.cons.injEq] at whole
          rcases whole with ⟨rfl, whole⟩
          rcases divided whole with ⟨middle, front, back⟩
          exact ⟨middle, .read edge front, back⟩

/-- A single character is read by one edge, with empty edges around it. -/
theorem exists_edge_of_singleton {character : Char}
    (path : nfa.Path first [character] last) :
    ∃ source target, nfa.Path first [] source ∧
      target ∈ nfa.targets source (.char character) ∧
      nfa.Path target [] last := by
  generalize singleton : [character] = spelled at path
  induction path with
  | done => exact nomatch singleton
  | empty edge _ found =>
      rcases found singleton with ⟨source, target, front, reading, back⟩
      exact ⟨source, target, .empty edge front, reading, back⟩
  | read edge rest =>
      cases singleton
      exact ⟨_, _, .done _, edge, rest⟩

/-- The last character of a word is read by one edge, and only empty edges
follow it. -/
theorem append_singleton_iff {character : Char} :
    nfa.Path first (word ++ [character]) last ↔
      ∃ source target, nfa.Path first word source ∧
        target ∈ nfa.targets source (.char character) ∧
        nfa.Path target [] last := by
  constructor
  · intro path
    rcases path.divide with ⟨middle, front, back⟩
    rcases back.exists_edge_of_singleton with
      ⟨source, target, silent, edge, back⟩
    have front := front.trans silent
    rw [List.append_nil] at front
    exact ⟨source, target, front, edge, back⟩
  · rintro ⟨source, target, front, edge, back⟩
    exact front.trans (.read edge back)

/-- A path to another number begins with an edge. -/
theorem exists_first_edge (path : nfa.Path first word last)
    (distinct : first ≠ last) :
    ∃ label next rest, next ∈ nfa.targets first label ∧
      word = label.char?.toList ++ rest ∧ nfa.Path next rest last := by
  cases path with
  | done => exact absurd rfl distinct
  | empty edge rest => exact ⟨_, _, _, edge, rfl, rest⟩
  | read edge rest => exact ⟨_, _, _, edge, rfl, rest⟩

/-- What holds at the start of a path and is kept by every edge holds at its
end. -/
theorem preserves {invariant : StateId → Prop}
    (kept : ∀ source label target, invariant source →
      target ∈ nfa.targets source label → invariant target)
    (path : nfa.Path first word last) (holds : invariant first) :
    invariant last := by
  induction path with
  | done => exact holds
  | empty edge _ reached => exact reached (kept _ _ _ holds edge)
  | read edge _ reached => exact reached (kept _ _ _ holds edge)

end Path

/-- The number can be reached from the start state. -/
def Reachable (nfa : Nfa) (id : StateId) : Prop :=
  ∃ word, nfa.Path nfa.start word id

/-- Only states can be reached from the start state. -/
def ReachesOnlyStates (nfa : Nfa) : Prop :=
  ∀ id, nfa.Reachable id → nfa.contains id = true

theorem reachable_start (nfa : Nfa) : nfa.Reachable nfa.start :=
  ⟨[], .done _⟩

theorem Reachable.extend {id target : StateId} {word : List Char}
    (reachable : nfa.Reachable id) (path : nfa.Path id word target) :
    nfa.Reachable target := by
  rcases reachable with ⟨front, reached⟩
  exact ⟨front ++ word, reached.trans path⟩

end PatternAutomata.Nfa
