import Mathlib.Data.Fintype.Card
import Mathlib.Order.Monotone.Defs
import PatternAutomata.Proofs.Dfa.Minimization

/-!
# Counting the states of competing automata

In a trim automaton every state can get to an accepting one, so a run is
defined as long as it can be continued to an accepted word.  States that are
not alike then have different accepted continuations.  An automaton with the
same accepted words is in different states after words that lead to such
states, so it has a state for each group of alike states.
-/

namespace PatternAutomata

/-! ## Competing automata -/

/-- An automaton with a partial deterministic transition function. -/
structure Acceptor (σ : Type*) where
  /-- The start state. -/
  start : σ
  /-- The state that a character leads to, if there is one. -/
  step : σ → Char → Option σ
  /-- The accepting states. -/
  accepting : Set σ

namespace Acceptor

variable {σ : Type*} (automaton : Acceptor σ)

/-- The state after a word, if no transition is missing. -/
def run? (source : σ) (word : List Char) : Option σ :=
  word.foldlM automaton.step source

/-- The word leads from the state to an accepting one. -/
def AcceptsFrom (source : σ) (word : List Char) : Prop :=
  ∃ target ∈ automaton.accepting, automaton.run? source word = some target

/-- The automaton accepts the word. -/
def Accepts (word : List Char) : Prop :=
  automaton.AcceptsFrom automaton.start word

theorem accepts_append_iff {front back : List Char} :
    automaton.Accepts (front ++ back) ↔
      ∃ middle, automaton.run? automaton.start front = some middle ∧
        automaton.AcceptsFrom middle back := by
  simp only [Accepts, AcceptsFrom, run?, List.foldlM_append]
  constructor
  · rintro ⟨target, accepting, whole⟩
    rcases Option.bind_eq_some_iff.1 whole with ⟨middle, before, after⟩
    exact ⟨middle, before, target, accepting, after⟩
  · rintro ⟨middle, before, target, accepting, after⟩
    exact ⟨target, accepting, Option.bind_eq_some_iff.2
      ⟨middle, before, after⟩⟩

end Acceptor

namespace Dfa

variable {nfa : Nfa} {dfa : Dfa} {word : List Char} {id : Nat}

/-! ## Trim automata -/

/-- Every state can get to an accepting one. -/
def IsTrim (dfa : Dfa) : Prop :=
  ∀ id < dfa.size, ∃ word, dfa.outcome? id word = some true

/-- Some word leads from the start state to every state. -/
def IsReached (dfa : Dfa) : Prop :=
  ∀ id < dfa.size, ∃ word, dfa.run? dfa.start word = some id

theorem outcome?_append (dfa : Dfa) (source : Nat)
    (word continuation : List Char) :
    dfa.outcome? source (word ++ continuation) =
      (dfa.run? source word).bind fun middle =>
        dfa.outcome? middle continuation := by
  rw [outcome?, run?_append, Option.map_bind]
  rfl

namespace IsTrim

/-- A run is defined as long as it can be continued to an accepted word. -/
theorem isSome_outcome?_iff (trim : dfa.IsTrim)
    (consistent : dfa.IsConsistent) (inside : id < dfa.size) :
    (dfa.outcome? id word).isSome = true ↔
      ∃ continuation, dfa.outcome? id (word ++ continuation) = some true := by
  simp only [outcome?_append]
  rw [outcome?, Option.isSome_map]
  constructor
  · intro defined
    rcases Option.isSome_iff_exists.1 defined with ⟨target, found⟩
    rcases trim target (consistent.lt_size_of_run? inside found) with
      ⟨continuation, accepted⟩
    exact ⟨continuation, by rw [found]; exact accepted⟩
  · rintro ⟨continuation, accepted⟩
    rcases Option.bind_eq_some_iff.1 accepted with ⟨target, found, -⟩
    rw [found]
    rfl

/-- States with the same accepted continuations are alike. -/
theorem alike (trim : dfa.IsTrim) (consistent : dfa.IsConsistent)
    {first second : Nat} (firstInside : first < dfa.size)
    (secondInside : second < dfa.size)
    (same : ∀ word, dfa.outcome? first word = some true ↔
      dfa.outcome? second word = some true) : dfa.Alike first second := by
  intro word
  apply outcome_ext
  · rw [trim.isSome_outcome?_iff consistent firstInside,
      trim.isSome_outcome?_iff consistent secondInside]
    simp only [same]
  · exact same word

end IsTrim

/-- A state of an automaton with the same accepted words goes with every state
that a word leads to. -/
theorem exists_acceptsFrom_iff {σ : Type*} {automaton : Acceptor σ}
    (trim : dfa.IsTrim) (inside : id < dfa.size)
    (found : dfa.run? dfa.start word = some id)
    (same : ∀ word, automaton.Accepts word ↔
      dfa.outcome? dfa.start word = some true) :
    ∃ state, automaton.run? automaton.start word = some state ∧
      ∀ continuation, automaton.AcceptsFrom state continuation ↔
        dfa.outcome? id continuation = some true := by
  have continued (continuation : List Char) :
      automaton.Accepts (word ++ continuation) ↔
        dfa.outcome? id continuation = some true := by
    rw [same, outcome?_append, found]
    rfl
  rcases trim id inside with ⟨ending, accepted⟩
  rcases (automaton.accepts_append_iff).1 ((continued ending).2 accepted) with
    ⟨state, reached, -⟩
  refine ⟨state, reached, ?_⟩
  intro continuation
  rw [← continued, automaton.accepts_append_iff, reached]
  simp

/-- An automaton with the same accepted words reaches different states for
groups of states that are not alike to those of other groups. -/
theorem Separates.exists_injective {σ : Type*} {automaton : Acceptor σ}
    {partition : Partition} (separates : dfa.Separates partition)
    (trim : dfa.IsTrim) (consistent : dfa.IsConsistent)
    (reached : dfa.IsReached)
    (same : ∀ word, automaton.Accepts word ↔
      dfa.outcome? dfa.start word = some true) :
    ∃ state : Fin partition.length → σ, Function.Injective state ∧
      ∀ place, ∃ word,
        automaton.run? automaton.start word = some (state place) := by
  have goes (place : Fin partition.length) :
      ∃ id ∈ partition[place], ∃ state,
        (∃ word, automaton.run? automaton.start word = some state) ∧
          ∀ continuation, automaton.AcceptsFrom state continuation ↔
            dfa.outcome? id continuation = some true := by
    have member : partition[place] ∈ partition := List.getElem_mem _
    rcases separates.nonempty _ member with ⟨id, inside⟩
    have small := separates.lt_size member inside
    rcases reached id small with ⟨word, found⟩
    rcases exists_acceptsFrom_iff trim small found same with
      ⟨state, leads, goes⟩
    exact ⟨id, inside, state, ⟨word, leads⟩, goes⟩
  choose id inside state leads goes using goes
  have small (place : Fin partition.length) : id place < dfa.size :=
    separates.lt_size (List.getElem_mem _) (inside place)
  refine ⟨state, .of_lt_imp_ne ?_, leads⟩
  intro earlier later before equal
  have apart := List.pairwise_iff_getElem.1 separates.apart earlier later
    earlier.isLt later.isLt before
  apply apart _ (inside earlier) _ (inside later)
  apply trim.alike consistent (small earlier) (small later)
  intro word
  rw [← goes, ← goes, equal]

/-! ## The minimal automaton of subsets -/

namespace IsSubsetAutomaton

/-- The automaton of subsets is trim if every state can get to an accepting
one. -/
theorem isTrim (subsets : dfa.IsSubsetAutomaton nfa)
    (only : nfa.ReachesOnlyStates)
    (drains : ∀ source, nfa.contains source = true →
      ∃ word target, nfa.Path source word target ∧
        nfa.isFinal target = true) : dfa.IsTrim := by
  intro id inside
  rcases subsets.exists_run?_start only inside with ⟨front, found⟩
  rcases StateSet.exists_mem (subsets.members_ne_empty inside) with
    ⟨source, member⟩
  have contains : nfa.contains source = true := by
    rw [((subsets.run?_start_eq_some_iff only).1 found).2] at member
    exact only.contains_of_mem_after member
  rcases drains source contains with ⟨word, target, path, final⟩
  refine ⟨word, ?_⟩
  rw [subsets.outcome?_eq_some_true_iff only inside]
  exact ⟨source, member, target, path, final⟩

theorem isReached (subsets : dfa.IsSubsetAutomaton nfa)
    (only : nfa.ReachesOnlyStates) : dfa.IsReached :=
  fun _ inside => subsets.exists_run?_start only inside

/-- No automaton with the same accepted words has fewer states than the
minimal one. -/
theorem size_minimize_le_card {σ : Type*} [Fintype σ]
    {automaton : Acceptor σ} (subsets : dfa.IsSubsetAutomaton nfa)
    (only : nfa.ReachesOnlyStates)
    (trim : dfa.IsTrim)
    (same : ∀ word, automaton.Accepts word ↔ dfa.accepts word = true) :
    dfa.minimize.size ≤ Fintype.card σ := by
  have separates := subsets.consistent.separates_stablePartition.1
  simp only [accepts_eq_true_iff] at same
  rcases separates.exists_injective trim subsets.consistent
    (subsets.isReached only) same with ⟨state, injective, -⟩
  have bound := Fintype.card_le_of_injective state injective
  rw [subsets.consistent.size_minimize (subsets.hasDistinctUnions only),
    ← Fintype.card_fin dfa.stablePartition.length]
  exact bound

end IsSubsetAutomaton

end Dfa

end PatternAutomata
