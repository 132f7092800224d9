import PatternAutomata.Proofs.Nfa.Bench

/-!
# The automaton of a regular expression

The fragment of an expression is put together by operations on pending
fragments, which leave those alone that were pending before.  In the end it is
the only one, so the states of the automaton are its states, and the words of
the automaton are the words of the expression.  If no class of the expression
is empty, every state lies on a path to the final state.
-/

namespace PatternAutomata

/-- Operations put the fragment of an expression together, next to the
fragments that are pending. -/
theorem Regex.exists_steps_assemble (regex : Regex) (assembly : Assembly)
    (pending : List Piece) :
    ∃ states, Relation.ReflTransGen Bench.Step ⟨assembly, pending⟩
      ⟨(regex.assemble assembly).2,
        ⟨regex, (regex.assemble assembly).1, states⟩ :: pending⟩ := by
  induction regex generalizing assembly pending with
  | literal character =>
      exact ⟨_, .single (.make [] (.refl _) (.literal character))⟩
  | oneOf members =>
      exact ⟨_, .single (.make [] (.refl _) (.oneOf members))⟩
  | concatenation left right leftSteps rightSteps =>
      rcases leftSteps assembly pending with ⟨_, first⟩
      rcases rightSteps _ (_ :: pending) with ⟨_, second⟩
      -- The right operand is the last one on the list of pending fragments.
      exact ⟨_, (first.trans second).tail
        (.make [_, _] (.swap _ _ _) (.concatenate _ _))⟩
  | alternation left right leftSteps rightSteps =>
      rcases leftSteps assembly pending with ⟨_, first⟩
      rcases rightSteps _ (_ :: pending) with ⟨_, second⟩
      exact ⟨_, (first.trans second).tail
        (.make [_, _] (.swap _ _ _) (.alternate _ _))⟩
  | repeated repetition body bodySteps =>
      rcases bodySteps assembly pending with ⟨_, steps⟩
      exact ⟨_, steps.tail (.make [_] (.refl _) (.repeated repetition _))⟩

/-- The fragment of an expression is all that is pending when it has been put
together. -/
theorem Regex.exists_holds_assemble (regex : Regex) (supply : IdSupply) :
    ∃ states, Bench.Holds ⟨(regex.assemble (.start supply)).2,
      [⟨regex, (regex.assemble (.start supply)).1, states⟩]⟩ := by
  rcases regex.exists_steps_assemble (.start supply) [] with ⟨states, steps⟩
  exact ⟨states, .of_steps steps⟩

/-! ## Automata of expressions -/

namespace Nfa

/-- The paths through the automaton spell the words of the expression and
meet states only, from which the final state can be reached. -/
structure Realizes (nfa : Nfa) (regex : Regex) : Prop where
  language : ∀ word,
    nfa.Path nfa.start word nfa.final ↔ word ∈ regex.language
  only : nfa.ReachesOnlyStates
  final : nfa.contains nfa.final = true
  drains : regex.HasMembers → ∀ id, nfa.contains id = true →
    ∃ word, nfa.Path id word nfa.final

theorem Realizes.transfer {nfa grown : Nfa} {regex : Regex}
    (realizes : nfa.Realizes regex) (start : grown.start = nfa.start)
    (final : grown.final = nfa.final)
    (contains : ∀ id, grown.contains id = nfa.contains id)
    (targets : ∀ id label, grown.targets id label = nfa.targets id label) :
    grown.Realizes regex where
  language word := by
    rw [start, final, Path.iff_of_targets_eq targets]
    exact realizes.language word
  only id reachable := by
    rcases reachable with ⟨word, path⟩
    rw [start, Path.iff_of_targets_eq targets] at path
    rw [contains]
    exact realizes.only id ⟨word, path⟩
  final := by
    rw [contains, final]
    exact realizes.final
  drains hasMembers id state := by
    rw [contains] at state
    rcases realizes.drains hasMembers id state with ⟨word, path⟩
    rw [final]
    exact ⟨word, (Path.iff_of_targets_eq targets).2 path⟩

/-- The automaton of an expression has its words. -/
theorem realizes_ofRegex (regex : Regex) (supply : IdSupply) :
    (ofRegex regex supply).1.Realizes regex := by
  rcases regex.exists_holds_assemble supply with ⟨states, holds⟩
  have stands := holds.stands _ (.head _)
  have contains_iff (id : StateId) :
      (ofRegex regex supply).1.contains id = true ↔ id ∈ states :=
    holds.contains_iff id
  have same (id : StateId) (label : Label) :
      (ofRegex regex supply).1.targets id label =
        (regex.assemble (Assembly.start supply)).2.nfa.targets id label :=
    rfl
  constructor
  · intro word
    rw [Path.iff_of_targets_eq same, ← stands.language]
    exact Fragment.mem_language_iff.symm
  · rintro id ⟨word, path⟩
    rw [contains_iff]
    refine path.preserves ?_ stands.spans.start_mem
    intro source label target inside edge
    exact stands.spans.closed source inside label target edge
  · exact (contains_iff _).2 stands.spans.final_mem
  · intro hasMembers id state
    have drains := (stands.isTrim hasMembers).drains
    rcases drains id ((contains_iff id).1 state) with ⟨word, path⟩
    exact ⟨word, (Path.iff_of_targets_eq same).2 path⟩

theorem Realizes.markTerminals {nfa : Nfa} {regex : Regex}
    (realizes : nfa.Realizes regex) : nfa.markTerminals.Realizes regex :=
  realizes.transfer nfa.start_markTerminals nfa.final_markTerminals
    contains_markTerminals targets_markTerminals

end Nfa

end PatternAutomata
