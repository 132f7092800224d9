import Mathlib.Data.Set.Function
import Mathlib.Order.Interval.Set.Defs
import PatternAutomata.Proofs.Dfa.Minimality

/-!
# Isomorphic automata

An automaton is reduced if every state is reached, can get to an accepting one
and is alike to itself only.  Between reduced automata with the same accepted
words, the states that do the same with every word are matched one to one, so
the automata differ in the numbers of their states only.  Merging the states of
an automaton that are alike makes it reduced, if every state is reached and can
get to an accepting one.
-/

namespace PatternAutomata.Dfa

variable {dfa other : Dfa} {groups : Partition} {group : Group}
  {id first second : Nat} {word : List Char}

/-- The map takes the states of one automaton to those of another one, each of
them once, and keeps the start state, acceptance and transitions. -/
structure IsIsomorphism (dfa other : Dfa) (image : Nat → Nat) : Prop where
  bijOn : Set.BijOn image (Set.Iio dfa.size) (Set.Iio other.size)
  start_lt : dfa.start < dfa.size
  start : image dfa.start = other.start
  isFinal : ∀ id < dfa.size, other.isFinal (image id) = dfa.isFinal id
  target? : ∀ id < dfa.size, ∀ character,
    other.target? (image id) character =
      (dfa.target? id character).map image

/-- No state can be left out or joined with another one. -/
structure IsReduced (dfa : Dfa) : Prop where
  consistent : dfa.IsConsistent
  start_lt : dfa.start < dfa.size
  reached : dfa.IsReached
  trim : dfa.IsTrim
  eq_of_alike : ∀ first < dfa.size, ∀ second < dfa.size,
    dfa.Alike first second → first = second

/-! ## Corresponding states -/

namespace Corresponds

theorem symm (same : dfa.Corresponds other first second) :
    other.Corresponds dfa second first :=
  fun word => (same word).symm

theorem alike {third : Nat} (same : dfa.Corresponds other id first)
    (also : dfa.Corresponds other third second)
    (alike : dfa.Alike id third) : other.Alike first second :=
  fun word => (same word).symm.trans ((alike word).trans (also word))

/-- A word leads from corresponding states to corresponding states. -/
theorem run? (same : dfa.Corresponds other first second) {target : Nat}
    (found : dfa.run? first word = some target) :
    ∃ reached, other.run? second word = some reached ∧
      dfa.Corresponds other target reached := by
  induction word generalizing first second with
  | nil =>
      cases found
      exact ⟨second, rfl, same⟩
  | cons character word leads =>
      rw [run?_cons, Option.bind_eq_some_iff] at found
      rcases found with ⟨middle, edge, found⟩
      rcases same.target? character with
        ⟨missing, -⟩ | ⟨target, reached, step, otherStep, corresponds⟩
      · rw [edge] at missing
        exact nomatch missing
      · rw [edge] at step
        cases step
        rw [run?_cons, otherStep]
        exact leads corresponds found

end Corresponds

/-! ## Reduced automata with the same words -/

namespace IsReduced

/-- The start states do the same with every word. -/
theorem corresponds_start (reduced : dfa.IsReduced)
    (otherReduced : other.IsReduced)
    (same : ∀ word, dfa.accepts word = other.accepts word) :
    dfa.Corresponds other dfa.start other.start := by
  have accepted (word : List Char) :
      dfa.outcome? dfa.start word = some true ↔
        other.outcome? other.start word = some true := by
    rw [← accepts_eq_true_iff, ← accepts_eq_true_iff, same]
  intro word
  apply outcome_ext
  · rw [reduced.trim.isSome_outcome?_iff reduced.consistent reduced.start_lt,
      otherReduced.trim.isSome_outcome?_iff otherReduced.consistent
        otherReduced.start_lt]
    simp only [accepted]
  · exact accepted word

/-- Every state has a counterpart. -/
theorem exists_corresponds (reduced : dfa.IsReduced)
    (otherReduced : other.IsReduced)
    (same : ∀ word, dfa.accepts word = other.accepts word)
    (inside : id < dfa.size) :
    ∃ image < other.size, dfa.Corresponds other id image := by
  rcases reduced.reached id inside with ⟨word, found⟩
  rcases (reduced.corresponds_start otherReduced same).run? found with
    ⟨image, reached, corresponds⟩
  have imageInside := otherReduced.consistent.lt_size_of_run?
    otherReduced.start_lt reached
  exact ⟨image, imageInside, corresponds⟩

/-- The counterpart is the only one. -/
theorem eq_of_corresponds (otherReduced : other.IsReduced)
    (firstInside : first < other.size) (secondInside : second < other.size)
    (corresponds : dfa.Corresponds other id first)
    (also : dfa.Corresponds other id second) : first = second :=
  otherReduced.eq_of_alike first firstInside second secondInside
    (corresponds.alike also fun _ => rfl)

end IsReduced

/-- The map takes every state to one that does the same with every word. -/
structure Matches (dfa other : Dfa) (image : Nat → Nat) : Prop where
  lt_size : ∀ id < dfa.size, image id < other.size
  corresponds : ∀ id < dfa.size, dfa.Corresponds other id (image id)

namespace Matches

variable {image : Nat → Nat}

theorem injOn (matching : dfa.Matches other image)
    (reduced : dfa.IsReduced) : Set.InjOn image (Set.Iio dfa.size) := by
  intro first firstInside second secondInside equal
  apply reduced.eq_of_alike first firstInside second secondInside
  apply (matching.corresponds first firstInside).symm.alike
    (matching.corresponds second secondInside).symm
  rw [equal]
  exact fun _ => rfl

theorem surjOn (matching : dfa.Matches other image)
    (reduced : dfa.IsReduced) (otherReduced : other.IsReduced)
    (same : ∀ word, dfa.accepts word = other.accepts word) :
    Set.SurjOn image (Set.Iio dfa.size) (Set.Iio other.size) := by
  intro reached reachedInside
  rcases otherReduced.exists_corresponds reduced
    (fun word => (same word).symm) reachedInside with ⟨id, inside, back⟩
  refine ⟨id, inside, ?_⟩
  exact otherReduced.eq_of_corresponds (matching.lt_size id inside)
    reachedInside (matching.corresponds id inside) back.symm

/-- Transitions lead to matching states. -/
theorem target?_image (matching : dfa.Matches other image)
    (consistent : dfa.IsConsistent) (otherReduced : other.IsReduced)
    (inside : id < dfa.size) (character : Char) :
    other.target? (image id) character =
      (dfa.target? id character).map image := by
  rcases (matching.corresponds id inside).target? character with
    ⟨missing, otherMissing⟩ | ⟨target, reached, found, otherFound, step⟩
  · rw [missing, otherMissing]
    rfl
  · have targetInside := (consistent.lt_of_target found).2
    have reachedInside := (otherReduced.consistent.lt_of_target otherFound).2
    rw [found, otherFound, Option.map_some,
      otherReduced.eq_of_corresponds reachedInside
        (matching.lt_size target targetInside) step
        (matching.corresponds target targetInside)]

theorem isIsomorphism (matching : dfa.Matches other image)
    (reduced : dfa.IsReduced) (otherReduced : other.IsReduced)
    (same : ∀ word, dfa.accepts word = other.accepts word) :
    dfa.IsIsomorphism other image where
  bijOn := ⟨matching.lt_size, matching.injOn reduced,
    matching.surjOn reduced otherReduced same⟩
  start_lt := reduced.start_lt
  start :=
    otherReduced.eq_of_corresponds
      (matching.lt_size dfa.start reduced.start_lt) otherReduced.start_lt
      (matching.corresponds dfa.start reduced.start_lt)
      (reduced.corresponds_start otherReduced same)
  isFinal id inside :=
    (Option.some.inj (matching.corresponds id inside [])).symm
  target? _ inside :=
    matching.target?_image reduced.consistent otherReduced inside

end Matches

/-- Reduced automata with the same accepted words are isomorphic. -/
theorem IsReduced.exists_isIsomorphism (reduced : dfa.IsReduced)
    (otherReduced : other.IsReduced)
    (same : ∀ word, dfa.accepts word = other.accepts word) :
    ∃ image, dfa.IsIsomorphism other image := by
  have counterpart (id : Nat) (inside : id < dfa.size) :=
    reduced.exists_corresponds otherReduced same inside
  choose! image inside corresponds using counterpart
  have matching : dfa.Matches other image := ⟨inside, corresponds⟩
  exact ⟨image, matching.isIsomorphism reduced otherReduced same⟩

/-! ## Merged automata -/

namespace IsQuotient

/-- A merged state does what the states in its group do. -/
theorem exists_corresponds (quotient : dfa.IsQuotient groups)
    (consistent : dfa.IsConsistent) {place : Nat}
    (inside : place < (dfa.mergeGroups groups).size) :
    ∃ group id, groups[place]? = some group ∧ id ∈ group ∧
      id < dfa.size ∧ (dfa.mergeGroups groups).Corresponds dfa place id := by
  rw [quotient.size_mergeGroups] at inside
  have entry := List.getElem?_eq_getElem inside
  have known : groups[place] ∈ groups := List.getElem_mem inside
  rcases quotient.separates.nonempty _ known with ⟨id, member⟩
  refine ⟨groups[place], id, entry, member,
    quotient.separates.lt_size known member, ?_⟩
  intro word
  exact quotient.outcome?_mergeGroups consistent entry member word

/-- Merged states are alike to themselves only. -/
theorem eq_of_alike_mergeGroups (quotient : dfa.IsQuotient groups)
    (consistent : dfa.IsConsistent)
    (firstInside : first < (dfa.mergeGroups groups).size)
    (secondInside : second < (dfa.mergeGroups groups).size)
    (alike : (dfa.mergeGroups groups).Alike first second) :
    first = second := by
  rcases quotient.exists_corresponds consistent firstInside with
    ⟨group, id, entry, inside, -, corresponds⟩
  rcases quotient.exists_corresponds consistent secondInside with
    ⟨other, otherId, otherEntry, otherInside, -, otherCorresponds⟩
  have member := List.mem_of_getElem? entry
  have same : group = other :=
    quotient.separates.group_eq_of_alike member
      (List.mem_of_getElem? otherEntry) inside otherInside
      (corresponds.alike otherCorresponds alike)
  rw [← same] at otherEntry
  have firstId := (quotient.idOf?_mergeGroups member).2 entry
  have secondId := (quotient.idOf?_mergeGroups member).2 otherEntry
  exact Option.some.inj (firstId.symm.trans secondId)

/-- Merging the states of a trim and reached automaton makes it reduced. -/
theorem isReduced_mergeGroups (quotient : dfa.IsQuotient groups)
    (consistent : dfa.IsConsistent) (trim : dfa.IsTrim)
    (reached : dfa.IsReached) {rest : Partition}
    (order : groups = group :: rest) (startInside : dfa.start ∈ group)
    (start : (dfa.mergeGroups groups).start = 0) :
    (dfa.mergeGroups groups).IsReduced := by
  have mergedConsistent : (dfa.mergeGroups groups).IsConsistent :=
    isConsistent_ofRecords _ _
  have occupied : 0 < (dfa.mergeGroups groups).size := by
    rw [quotient.size_mergeGroups, order]
    exact Nat.zero_lt_succ _
  have startCorresponds : dfa.Corresponds (dfa.mergeGroups groups) dfa.start
      (dfa.mergeGroups groups).start := by
    intro word
    rw [start, quotient.outcome?_mergeGroups consistent _ startInside]
    rw [order]
    rfl
  have startLt : (dfa.mergeGroups groups).start <
      (dfa.mergeGroups groups).size := start ▸ occupied
  refine ⟨mergedConsistent, startLt, ?_, ?_, ?_⟩
  · intro place inside
    rcases quotient.exists_corresponds consistent inside with
      ⟨_, id, -, -, small, corresponds⟩
    rcases reached id small with ⟨word, found⟩
    rcases startCorresponds.run? found with ⟨other, otherFound, also⟩
    have otherInside := mergedConsistent.lt_size_of_run? startLt otherFound
    refine ⟨word, ?_⟩
    rw [otherFound, quotient.eq_of_alike_mergeGroups consistent otherInside
      inside (also.alike corresponds.symm fun _ => rfl)]
  · intro place inside
    rcases quotient.exists_corresponds consistent inside with
      ⟨_, id, -, -, small, corresponds⟩
    rcases trim id small with ⟨word, accepted⟩
    exact ⟨word, (corresponds word).trans accepted⟩
  · intro first firstInside second secondInside
    exact quotient.eq_of_alike_mergeGroups consistent firstInside
      secondInside

end IsQuotient

/-- Minimization of a trim and reached automaton with distinct unions makes it
reduced. -/
theorem IsConsistent.isReduced_minimize (consistent : dfa.IsConsistent)
    (distinct : dfa.HasDistinctUnions) (hasStart : dfa.HasStart)
    (occupied : 0 < dfa.size) (trim : dfa.IsTrim) (reached : dfa.IsReached) :
    dfa.minimize.IsReduced := by
  have quotient := consistent.isQuotient_stablePartition distinct
  have ordered := quotient.perm (dfa.startFirst_perm _).symm
  have start := quotient.separates.start_merge hasStart
  rcases quotient.separates.exists_head_startFirst
    (hasStart.start_lt occupied) with ⟨group, rest, order, inside⟩
  rw [merge_eq] at start
  rw [minimize, merge_eq]
  exact ordered.isReduced_mergeGroups consistent trim reached order inside
    start

theorem IsSubsetAutomaton.isReduced_minimize {nfa : Nfa}
    (subsets : dfa.IsSubsetAutomaton nfa) (only : nfa.ReachesOnlyStates)
    (built : nfa.Built) (trim : dfa.IsTrim) : dfa.minimize.IsReduced :=
  subsets.consistent.isReduced_minimize (subsets.hasDistinctUnions only)
    (subsets.hasStart only built) (Nat.zero_lt_of_lt subsets.start_lt) trim
    (subsets.isReached only)

end PatternAutomata.Dfa
