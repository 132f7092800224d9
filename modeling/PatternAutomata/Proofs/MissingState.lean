import PatternAutomata.Proofs.Dfa.CheckedMinimize

/-!
# Missing states

The alphabet, the projection and the automaton of subsets of an automaton are
refused when a number can be reached that is no state, and only then.  All
three name the first such number that a breadth first search meets.  Once the
automaton of subsets has been found, it can be minimized any number of times.
-/

namespace PatternAutomata.Nfa

variable {nfa : Nfa}

/-- A number that is no state can be reached from the start state. -/
def ReachesMissing (nfa : Nfa) : Prop :=
  ∃ id, nfa.Reachable id ∧ nfa.contains id = false

/-- The refusal of a number that is no state. -/
def refusal (nfa : Nfa) (id : StateId) : MissingState :=
  ⟨id, nfa.firstId, nfa.size⟩

theorem not_reachesMissing_iff :
    ¬nfa.ReachesMissing ↔ nfa.ReachesOnlyStates := by
  simp [ReachesMissing, ReachesOnlyStates]

theorem mem_lookedUp_of_mem {ids : List StateId} {id : StateId}
    (member : id ∈ ids) : id ∈ nfa.lookedUp ids :=
  List.mem_flatMap.2 ⟨id, member, List.mem_cons_self⟩

theorem ReachesOnlyStates.contains_of_mem_lookedUp
    (only : nfa.ReachesOnlyStates) {id : StateId}
    (member : id ∈ nfa.lookedUp nfa.breadthFirst) :
    nfa.contains id = true := by
  rcases List.mem_flatMap.1 member with ⟨source, visited, member⟩
  have reachable := (mem_breadthFirst_iff only).1 visited
  rcases List.mem_cons.1 member with rfl | member
  · exact only id reachable
  · rw [successors] at member
    cases found : nfa.state? source with
    | none =>
        rw [found] at member
        cases member
    | some state =>
        rw [found, Option.map_some, Option.getD_some,
          State.mem_successors_iff] at member
        rcases member with ⟨label, target⟩
        have edge : id ∈ nfa.targets source label :=
          mem_targets_iff.2 ⟨state, found, target⟩
        exact only id (reachable.extend (.ofEdge edge))

/-- Looking up at least what a breadth first walk visits fails if a missing
state can be reached. -/
theorem exists_refused {ids : List StateId} (occupied : nfa.isEmpty = false)
    (visits : ∀ id ∈ nfa.breadthFirst, id ∈ ids)
    (reaches : nfa.ReachesMissing) :
    ∃ id, ids.find? (fun id => !nfa.contains id) = some id ∧
      Checked.require nfa ids = .error (nfa.refusal id) := by
  cases required : Checked.require nfa ids with
  | error missing =>
      rcases Checked.require_eq_error_iff.1 required with ⟨id, found, rfl⟩
      exact ⟨id, found, rfl⟩
  | ok =>
      have states := Checked.require_eq_ok_iff.1 required
      have only : nfa.ReachesOnlyStates :=
        (reachesOnlyStates_iff occupied).2 fun id visited =>
          states id (visits id visited)
      exact absurd reaches (not_reachesMissing_iff.2 only)

/-- The alphabet and the projection name the same missing state. -/
theorem exists_isFirstMissing (occupied : nfa.isEmpty = false)
    (reaches : nfa.ReachesMissing) :
    ∃ id, nfa.IsFirstMissing id ∧
      Checked.alphabet nfa = .error (nfa.refusal id) ∧
      Checked.projection nfa = .error (nfa.refusal id) := by
  rcases exists_refused occupied (fun _ visited => visited) reaches with
    ⟨id, found, refused⟩
  rcases exists_refused occupied (fun _ => mem_lookedUp_of_mem) reaches with
    ⟨other, otherFound, otherRefused⟩
  have first := isFirstMissing_of_breadthFirst found
  refine ⟨id, first, ?_, ?_⟩
  · rw [Checked.alphabet_eq, refused]
    rfl
  · rw [Checked.projection_eq, otherRefused,
      (isFirstMissing_of_lookedUp otherFound).unique first]
    rfl

theorem Checked.projection_eq_ok (only : nfa.ReachesOnlyStates) :
    projection nfa = .ok nfa.projection := by
  rw [projection_eq, require_eq_ok fun id => only.contains_of_mem_lookedUp]
  rfl

end PatternAutomata.Nfa

namespace PatternAutomata.Dfa

variable {nfa : Nfa}

/-- An automaton in which a number can be reached that is no state is refused
for the first such number that is met, whether its alphabet, its projection or
the automaton of its subsets is asked for.  Others are not refused, and neither
is minimizing the automaton of subsets any number of times. -/
theorem refused_for_first_missing (nfa : Nfa)
    (occupied : nfa.isEmpty = false) :
    ((∃ refused, Nfa.Checked.alphabet nfa = .error refused) ↔
        nfa.ReachesMissing) ∧
      ((∃ refused, Nfa.Checked.projection nfa = .error refused) ↔
        nfa.ReachesMissing) ∧
      ((∃ refused, Checked.ofNfa nfa = .error refused) ↔
        nfa.ReachesMissing) ∧
      (nfa.ReachesMissing → ∃ id, nfa.IsFirstMissing id ∧
        Nfa.Checked.alphabet nfa = .error (nfa.refusal id) ∧
        Nfa.Checked.projection nfa = .error (nfa.refusal id) ∧
        Checked.ofNfa nfa = .error (.missing (nfa.refusal id)) ∧
        (Refusal.missing (nfa.refusal id)).message =
          (nfa.refusal id).message) ∧
      (¬nfa.ReachesMissing → Checked.ofNfa nfa = .ok (ofNfa nfa) ∧
        ∀ times, Checked.minimizeTimes times (ofNfa nfa) =
          .ok (minimize^[times] (ofNfa nfa))) := by
  by_cases reaches : nfa.ReachesMissing
  · rcases Nfa.exists_isFirstMissing occupied reaches with
      ⟨id, first, alphabet, projection⟩
    have subsets : Checked.ofNfa nfa =
        .error (.missing (nfa.refusal id)) := by
      rw [Checked.ofNfa, alphabet]
      rfl
    exact ⟨iff_of_true ⟨_, alphabet⟩ reaches,
      iff_of_true ⟨_, projection⟩ reaches, iff_of_true ⟨_, subsets⟩ reaches,
      fun _ => ⟨id, first, alphabet, projection, subsets, rfl⟩,
      fun never => absurd reaches never⟩
  · have only := Nfa.not_reachesMissing_iff.1 reaches
    have consistent := (isSubsetAutomaton_ofNfa only).consistent
    rw [Nfa.Checked.alphabet_eq_ok only, Nfa.Checked.projection_eq_ok only,
      Checked.ofNfa_eq_ok only]
    refine ⟨iff_of_false (by simp) reaches, iff_of_false (by simp) reaches,
      iff_of_false (by simp) reaches,
      fun wrong => absurd wrong reaches, fun _ => ⟨rfl, ?_⟩⟩
    exact Checked.minimizeTimes_eq_ok consistent

/-- Each of two states has an edge to a number that is no state. -/
def strayTargets : Nfa :=
  { ((Nfa.empty.addState 3).addState 0).addEdges
      [⟨3, .epsilon, 4⟩, ⟨3, .char 'b', 8⟩, ⟨4, .char 'a', 9⟩] with
    start := 3 }

theorem refused_for_first_missing_strayTargets :
    strayTargets.isEmpty = false ∧ strayTargets.ReachesMissing ∧
      strayTargets.met 2 = [3, 4, 8, 9] ∧
      Nfa.Checked.alphabet strayTargets = .error ⟨8, 3, 2⟩ ∧
      Nfa.Checked.projection strayTargets = .error ⟨8, 3, 2⟩ ∧
      Checked.ofNfa strayTargets = .error (.missing ⟨8, 3, 2⟩) ∧
      (Refusal.missing ⟨8, 3, 2⟩).message =
        "state 8 is not part of the NFA with states 3..5" := by
  have occupied : strayTargets.isEmpty = false := by decide +kernel
  have order : strayTargets.met 2 = [3, 4, 8, 9] := by decide +kernel
  have reaches : strayTargets.ReachesMissing :=
    ⟨8, ⟨['b'], .read (by decide +kernel) (.done 8)⟩, by decide +kernel⟩
  have eighth : strayTargets.IsFirstMissing 8 := by
    refine ⟨2, ?_⟩
    rw [order]
    decide +kernel
  rcases (refused_for_first_missing strayTargets occupied).2.2.2.1 reaches with
    ⟨id, first, alphabet, projection, subsets, -⟩
  rw [first.unique eighth] at alphabet projection subsets
  exact ⟨occupied, reaches, order, alphabet, projection, subsets,
    by decide +kernel⟩

end PatternAutomata.Dfa
