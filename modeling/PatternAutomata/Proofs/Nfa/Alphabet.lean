import Mathlib.Data.List.Sort
import Mathlib.Order.Bounds.Basic
import PatternAutomata.Proofs.Nfa.Building
import PatternAutomata.Proofs.Nfa.Discovery

/-!
# The order of the alphabet

A breadth first search meets the numbers near the start state before those
farther away.  It meets them in layers: for every distance there is a time at
which it has met the numbers up to this distance and no others.  No invariant
of the waiting numbers is needed for this, because the search goes on from a
layer by going through the edges of all numbers in it.

The alphabet lists characters in the order of the search, so a character that
is read nearer to the start state comes before one that is read farther away.
-/

namespace PatternAutomata.Nfa

variable {nfa : Nfa} {id : StateId} {character : Char}

/-! ## Distances -/

/-- A number is at the end of so many edges that follow each other from the
start state. -/
inductive ReachedIn (nfa : Nfa) : Nat → StateId → Prop where
  /-- The start state is reached without edges. -/
  | start : ReachedIn nfa 0 nfa.start
  /-- One more edge, whatever it reads. -/
  | edge {count : Nat} {source target : StateId} {label : Label}
      (reached : ReachedIn nfa count source)
      (step : target ∈ nfa.targets source label) :
      ReachedIn nfa (count + 1) target

/-- An edge from a number reads a character. -/
def Reads (nfa : Nfa) (id : StateId) (character : Char) : Prop :=
  ∃ target, target ∈ nfa.targets id (.char character)

/-- The least number of edges from the start state to a number from which an
edge reads a character. -/
def IsNearest (nfa : Nfa) (character : Char) (distance : Nat) : Prop :=
  IsLeast {count | ∃ id, nfa.ReachedIn count id ∧ nfa.Reads id character}
    distance

/-- The number from which an edge reads a character that a breadth first
search meets before all other such numbers. -/
def IsFirstReader (nfa : Nfa) (character : Char) (id : StateId) : Prop :=
  ∃ rounds front back, nfa.met rounds = front ++ id :: back ∧
    nfa.Reads id character ∧
    ∀ earlier ∈ front, ¬nfa.Reads earlier character

theorem ReachedIn.reachable {count : Nat} (reached : nfa.ReachedIn count id) :
    nfa.Reachable id := by
  induction reached with
  | start => exact nfa.reachable_start
  | edge _ step reachable => exact reachable.extend (.ofEdge step)

/-! ## Layers -/

theorem mem_successors_iff {source target : StateId} :
    target ∈ nfa.successors source ↔
      ∃ label, target ∈ nfa.targets source label := by
  rw [← follows_successors_iff, successors, Follows]
  cases nfa.state? source <;> simp

/-- What has been met is the start state and what edges lead to from the
numbers that the search has gone through. -/
theorem mem_met_iff (rounds : Nat) :
    id ∈ nfa.met rounds ↔
      id = nfa.start ∨
        ∃ source ∈ (nfa.met rounds).take rounds,
          id ∈ nfa.successors source := by
  induction rounds with
  | zero => simp [met]
  | succ rounds earlier =>
      cases here : (nfa.met rounds)[rounds]? with
      | none =>
          have same : nfa.met (rounds + 1) = nfa.met rounds := by
            simp [met, here]
          simp only [same, List.take_add_one, here, Option.toList_none,
            List.append_nil]
          exact earlier
      | some last =>
          have within : rounds + 1 ≤ (nfa.met rounds).length :=
            (List.getElem?_eq_some_iff.1 here).1
          have grown : nfa.met (rounds + 1) = nfa.met rounds ++
              ((nfa.successors last).filter
                (· ∉ nfa.met rounds)).eraseDups := by
            simp [met, here]
          have through : (nfa.met (rounds + 1)).take (rounds + 1) =
              (nfa.met rounds).take rounds ++ [last] := by
            simp [grown, List.take_append_of_le_length within,
              List.take_add_one, here]
          have members : id ∈ nfa.met (rounds + 1) ↔
              id ∈ nfa.met rounds ∨ id ∈ nfa.successors last := by
            simp only [grown, List.mem_append, List.mem_eraseDups,
              List.mem_filter, decide_eq_true_eq]
            tauto
          simp only [members, earlier, through, List.mem_append,
            List.mem_singleton, or_and_right, exists_or, exists_eq_left,
            or_assoc]

/-- For every distance there is a time at which the search has met the numbers
up to this distance and no others. -/
theorem exists_layer (nfa : Nfa) (distance : Nat) :
    ∃ rounds ≤ (nfa.met rounds).length, ∀ id,
      id ∈ nfa.met rounds ↔
        ∃ count ≤ distance, nfa.ReachedIn count id := by
  induction distance with
  | zero =>
      refine ⟨0, Nat.zero_le _, fun id => ?_⟩
      simp only [met, List.mem_singleton, Nat.le_zero, exists_eq_left]
      constructor
      · rintro rfl
        exact .start
      · intro reached
        cases reached
        rfl
  | succ distance layer =>
      rcases layer with ⟨rounds, within, layer⟩
      have front : nfa.met rounds <+: nfa.met (nfa.met rounds).length := by
        simpa [Nat.add_sub_cancel' within] using
          nfa.met_prefix rounds ((nfa.met rounds).length - rounds)
      refine ⟨(nfa.met rounds).length, front.length_le, fun id => ?_⟩
      rw [mem_met_iff, ← List.prefix_iff_eq_take.1 front]
      constructor
      · rintro (rfl | ⟨source, member, follows⟩)
        · exact ⟨0, Nat.zero_le _, .start⟩
        · rcases (layer source).1 member with ⟨count, near, reached⟩
          rcases mem_successors_iff.1 follows with ⟨label, step⟩
          exact ⟨count + 1, Nat.succ_le_succ near, .edge reached step⟩
      · rintro ⟨count, near, reached⟩
        cases reached with
        | start => exact .inl rfl
        | edge reached step =>
            exact .inr ⟨_,
              (layer _).2 ⟨_, Nat.le_of_succ_le_succ near, reached⟩,
              mem_successors_iff.2 ⟨_, step⟩⟩

/-! ## The walk meets everything -/

/-- Nothing is met after the search has gone through all it has met. -/
theorem met_eq_of_length_le {rounds : Nat}
    (through : (nfa.met rounds).length ≤ rounds) (more : Nat) :
    nfa.met (rounds + more) = nfa.met rounds := by
  induction more with
  | zero => rfl
  | succ more same =>
      have ended : (nfa.met rounds)[rounds + more]? = none :=
        List.getElem?_eq_none (by omega)
      simp [met, same, ended]

namespace Walking

variable {visited waiting : List StateId} {seen : StateSet}

/-- A breadth first walk that comes upon states only visits numbers in the
order in which they are met. -/
theorem append_walkFrom_eq_met {rounds : Nat}
    (walking : Walking nfa State.successors visited seen waiting)
    (order : visited ++ waiting = nfa.met visited.length)
    (enough : nfa.size < visited.length + rounds)
    (states : ∀ id ∈ nfa.walkFrom .queue State.successors rounds seen waiting,
      nfa.contains id = true) (more : Nat) :
    visited ++ nfa.walkFrom .queue State.successors rounds seen waiting =
      nfa.met (visited.length + rounds + more) := by
  induction rounds generalizing visited seen waiting with
  | zero =>
      have bounded := walking.length_visited_le
      omega
  | succ rounds continued =>
      cases waiting with
      | nil =>
          have through : (nfa.met visited.length).length ≤ visited.length := by
            simp [← order]
          rw [walkFrom, Nat.add_assoc, met_eq_of_length_le through, order]
      | cons id waiting =>
          cases found : nfa.state? id with
          | none =>
              have impossible := states id (by simp [walkFrom, found])
              simp [Nfa.contains, found] at impossible
          | some state =>
              simp only [walkFrom, found] at states ⊢
              have visits := continued (walking.visit .queue found)
                (walking.visit_eq_met order found) (by simp; omega)
                (fun other member => states other (.tail _ member))
              simpa [Nat.add_assoc, Nat.add_comm 1] using visits

end Walking

theorem ReachesOnlyStates.met_prefix_breadthFirst
    (only : nfa.ReachesOnlyStates) (rounds : Nat) :
    nfa.met rounds <+: nfa.breadthFirst := by
  have occupied := only.isEmpty_eq_false
  have states := (reachesOnlyStates_iff occupied).1 only
  have visits : nfa.breadthFirst = nfa.walkFrom .queue State.successors
      (nfa.size + 1) (Std.ExtTreeSet.ofList [nfa.start]) [nfa.start] := by
    rw [breadthFirst, occupied]
    exact nfa.walk_start
  rw [visits] at states ⊢
  have whole := nfa.walking_start.append_walkFrom_eq_met rfl (by simp) states
    rounds
  rw [List.nil_append] at whole
  rw [whole, Nat.add_comm]
  exact nfa.met_prefix rounds _

/-! ## Characters in the order of the search -/

theorem reads_iff (labelled : nfa.HasTargets) :
    nfa.Reads id character ↔ character ∈ nfa.characters id := by
  constructor
  · rintro ⟨target, edge⟩
    exact mem_characters_of_mem_targets edge
  · exact labelled.exists_mem_targets

theorem prefix_charactersOf {front ids : List StateId} (prior : front <+: ids) :
    nfa.charactersOf front <+: nfa.charactersOf ids := by
  rcases prior with ⟨back, rfl⟩
  induction back using List.reverseRecOn with
  | nil => simp
  | append_singleton back id grown =>
      rw [← List.append_assoc, charactersOf_append_singleton]
      exact grown.trans (List.prefix_append _ _)

/-- A character that is listed early comes before one that is not. -/
theorem sublist_of_prefix {first second : Char} {front whole : List Char}
    (prior : front <+: whole) (early : first ∈ front)
    (late : second ∉ front) (member : second ∈ whole) :
    List.Sublist [first, second] whole := by
  rcases prior with ⟨back, rfl⟩
  have after : second ∈ back := (List.mem_append.1 member).resolve_left late
  exact (List.singleton_sublist.2 early).append
    (List.singleton_sublist.2 after)

/-- Two members of an ascending list come in their order. -/
theorem sublist_of_pairwise {first second : Char} {whole : List Char}
    (ascending : whole.Pairwise (· < ·)) (firstMember : first ∈ whole)
    (secondMember : second ∈ whole) (below : first < second) :
    List.Sublist [first, second] whole := by
  have distinct : [first, second].Nodup := by simp [Char.ne_of_lt below]
  have members : [first, second] ⊆ whole := by
    simp [firstMember, secondMember]
  exact List.sublist_of_subperm_of_pairwise (distinct.subperm members)
    (by simpa using below) ascending

theorem pairwise_characters (nfa : Nfa) (id : StateId) :
    (nfa.characters id).Pairwise (· < ·) := by
  rw [characters]
  cases nfa.state? id with
  | none => exact .nil
  | some state => exact state.pairwise_characters

/-- Characters that are come upon at the same number are listed in ascending
order. -/
theorem sublist_charactersOf {first second : Char} {front : List StateId}
    (firstRead : first ∈ nfa.characters id)
    (secondRead : second ∈ nfa.characters id) (below : first < second)
    (firstNew : first ∉ nfa.charactersOf front)
    (secondNew : second ∉ nfa.charactersOf front) :
    List.Sublist [first, second] (nfa.charactersOf (front ++ [id])) := by
  have new : List.Sublist [first, second] ((nfa.characters id).filter
      fun character => ¬ character ∈ nfa.charactersOf front) := by
    apply sublist_of_pairwise ((nfa.pairwise_characters id).filter _)
    · simp [firstRead, firstNew]
    · simp [secondRead, secondNew]
    · exact below
  rw [charactersOf_append_singleton]
  exact new.trans (List.sublist_append_right _ _)

/-! ## The alphabet -/

/-- A list has the characters that edges of reachable states read, in the order
of a breadth first search. -/
structure ListsInOrder (nfa : Nfa) (characters : List Char) : Prop where
  /-- Every character is listed once. -/
  nodup : characters.Nodup
  /-- The characters on the edges of reachable states are listed, and no
  others. -/
  mem_iff : ∀ character, character ∈ characters ↔
    ∃ id, nfa.Reachable id ∧ nfa.Reads id character
  /-- What is read nearer to the start state is listed first. -/
  nearer_first : ∀ first second distance farther,
    nfa.IsNearest first distance → nfa.IsNearest second farther →
      distance < farther → List.Sublist [first, second] characters
  /-- What is first met at the same state is listed in ascending order. -/
  ascending : ∀ first second id,
    nfa.IsFirstReader first id → nfa.IsFirstReader second id →
      first < second → List.Sublist [first, second] characters

theorem not_reads_of_isEmpty (stateless : nfa.isEmpty = true) :
    ¬nfa.Reads id character := by
  rintro ⟨target, edge⟩
  simp [targets, state?_eq_none_of_isEmpty stateless] at edge

theorem listsInOrder_nil (stateless : nfa.isEmpty = true) :
    nfa.ListsInOrder [] where
  nodup := .nil
  mem_iff character := by simp [not_reads_of_isEmpty stateless]
  nearer_first := by
    rintro first second distance farther ⟨⟨id, -, reads⟩, -⟩
    exact absurd reads (not_reads_of_isEmpty stateless)
  ascending := by
    rintro first second id ⟨rounds, front, back, order, reads, new⟩
    exact absurd reads (not_reads_of_isEmpty stateless)

namespace ReachesOnlyStates

variable {first second : Char}

theorem mem_alphabet_iff_reads (only : nfa.ReachesOnlyStates)
    (labelled : nfa.HasTargets) :
    character ∈ nfa.alphabet ↔
      ∃ id, nfa.Reachable id ∧ nfa.Reads id character := by
  simp only [mem_alphabet_iff, mem_breadthFirst_iff only, reads_iff labelled]

theorem alphabet_nearer_first (only : nfa.ReachesOnlyStates)
    (labelled : nfa.HasTargets) {distance farther : Nat}
    (near : nfa.IsNearest first distance)
    (far : nfa.IsNearest second farther) (less : distance < farther) :
    List.Sublist [first, second] nfa.alphabet := by
  rcases nfa.exists_layer distance with ⟨rounds, -, layer⟩
  have early : first ∈ nfa.charactersOf (nfa.met rounds) := by
    rcases near.1 with ⟨id, reached, reads⟩
    exact mem_charactersOf_iff.2
      ⟨id, (layer id).2 ⟨distance, le_rfl, reached⟩,
        (reads_iff labelled).1 reads⟩
  have late : second ∉ nfa.charactersOf (nfa.met rounds) := by
    intro member
    rcases mem_charactersOf_iff.1 member with ⟨id, met, reads⟩
    rcases (layer id).1 met with ⟨count, within, reached⟩
    have bound := far.2 ⟨id, reached, (reads_iff labelled).2 reads⟩
    omega
  have listed : second ∈ nfa.alphabet := by
    rcases far.1 with ⟨id, reached, reads⟩
    exact (only.mem_alphabet_iff_reads labelled).2
      ⟨id, reached.reachable, reads⟩
  exact sublist_of_prefix
    (prefix_charactersOf (only.met_prefix_breadthFirst rounds)) early late
    listed

/-- What comes before the first occurrence of a number is determined. -/
theorem front_eq_of_prefix {front other whole : List StateId}
    (prior : front ++ [id] <+: whole) (otherPrior : other ++ [id] <+: whole)
    (new : id ∉ front) (otherNew : id ∉ other) : front = other := by
  have last {short long : List StateId} (new : id ∉ long)
      (within : short ++ [id] <+: long ++ [id]) : short = long := by
    rcases List.prefix_concat_iff.1 within with same | inside
    · exact List.append_cancel_right same
    · exact absurd (inside.subset (by simp)) new
  rcases List.prefix_or_prefix_of_prefix prior otherPrior with short | long
  · exact last otherNew short
  · exact (last new long).symm

theorem exists_front (only : nfa.ReachesOnlyStates)
    (first : nfa.IsFirstReader character id) :
    ∃ front, front ++ [id] <+: nfa.breadthFirst ∧ nfa.Reads id character ∧
      ∀ earlier ∈ front, ¬nfa.Reads earlier character := by
  rcases first with ⟨rounds, front, back, order, reads, new⟩
  refine ⟨front, ?_, reads, new⟩
  have within : front ++ [id] <+: nfa.met rounds := by simp [order]
  exact within.trans (only.met_prefix_breadthFirst rounds)

theorem alphabet_ascending (only : nfa.ReachesOnlyStates)
    (labelled : nfa.HasTargets) (firstMet : nfa.IsFirstReader first id)
    (secondMet : nfa.IsFirstReader second id) (below : first < second) :
    List.Sublist [first, second] nfa.alphabet := by
  rcases only.exists_front firstMet with ⟨front, prior, firstReads, firstNew⟩
  rcases only.exists_front secondMet with
    ⟨other, otherPrior, secondReads, secondNew⟩
  have same : front = other :=
    front_eq_of_prefix prior otherPrior
      (fun member => firstNew id member firstReads)
      (fun member => secondNew id member secondReads)
  subst same
  have listed : List.Sublist [first, second]
      (nfa.charactersOf (front ++ [id])) := by
    apply sublist_charactersOf ((reads_iff labelled).1 firstReads)
      ((reads_iff labelled).1 secondReads) below
    · simpa [mem_charactersOf_iff, ← reads_iff labelled] using firstNew
    · simpa [mem_charactersOf_iff, ← reads_iff labelled] using secondNew
  exact listed.trans (prefix_charactersOf prior).sublist

theorem listsInOrder_alphabet (only : nfa.ReachesOnlyStates)
    (labelled : nfa.HasTargets) : nfa.ListsInOrder nfa.alphabet where
  nodup := nfa.nodup_alphabet
  mem_iff _ := only.mem_alphabet_iff_reads labelled
  nearer_first _ _ _ _ near far less :=
    only.alphabet_nearer_first labelled near far less
  ascending _ _ _ firstMet secondMet below :=
    only.alphabet_ascending labelled firstMet secondMet below

end ReachesOnlyStates

/-- The alphabet of an automaton is found unless a missing state can be
reached, and it lists the characters on the edges of reachable states, those
nearer to the start state first. -/
theorem alphabet_listsInOrder (nfa : Nfa) (built : nfa.Built)
    (only : nfa.isEmpty = true ∨ nfa.ReachesOnlyStates) :
    ∃ characters, Checked.alphabet nfa = .ok characters ∧
      nfa.ListsInOrder characters := by
  rcases only with stateless | only
  · refine ⟨[], ?_, listsInOrder_nil stateless⟩
    rw [Checked.alphabet, breadthFirst_of_isEmpty stateless]
    rfl
  · exact ⟨nfa.alphabet, Checked.alphabet_eq_ok only,
      only.listsInOrder_alphabet built.hasTargets⟩

/-- The edge back to the start state reads the least character and is
farther away than the others. -/
def longWayBack : Nfa :=
  (((Nfa.empty.addState 0).addState 0).addState 0).addEdges
    [⟨0, .char 'c', 1⟩, ⟨0, .char 'b', 2⟩, ⟨2, .char 'd', 2⟩,
      ⟨1, .char 'a', 0⟩]

theorem alphabet_listsInOrder_longWayBack :
    longWayBack.Built ∧ longWayBack.ReachesOnlyStates ∧
      longWayBack.IsNearest 'c' 0 ∧ longWayBack.IsNearest 'a' 1 ∧
      Checked.alphabet longWayBack = .ok ['b', 'c', 'd', 'a'] ∧
      longWayBack.ListsInOrder ['b', 'c', 'd', 'a'] := by
  have built : longWayBack.Built :=
    (((Built.empty.addState 0).addState 0).addState 0).addEdges _
  have only : longWayBack.ReachesOnlyStates := by
    apply (reachesOnlyStates_iff (by decide +kernel)).2
    decide +kernel
  have nearC : longWayBack.IsNearest 'c' 0 :=
    ⟨⟨0, .start, 1, by decide +kernel⟩, fun count _ => Nat.zero_le count⟩
  have nearA : longWayBack.IsNearest 'a' 1 := by
    constructor
    · have away : 1 ∈ longWayBack.targets 0 (.char 'c') := by decide +kernel
      have back : 0 ∈ longWayBack.targets 1 (.char 'a') := by decide +kernel
      exact ⟨1, .edge .start away, 0, back⟩
    · rintro count ⟨id, reached, target, edge⟩
      cases reached with
      | edge => exact Nat.succ_le_succ (Nat.zero_le _)
      | start =>
          have unread : longWayBack.targets longWayBack.start (.char 'a') =
              ∅ := by
            decide +kernel
          simp [unread] at edge
  have listed : Checked.alphabet longWayBack = .ok ['b', 'c', 'd', 'a'] := by
    decide +kernel
  rcases alphabet_listsInOrder longWayBack built (.inr only) with
    ⟨characters, found, ordered⟩
  obtain rfl : characters = ['b', 'c', 'd', 'a'] :=
    Except.ok.inj (found.symm.trans listed)
  exact ⟨built, only, nearC, nearA, listed, ordered⟩

end PatternAutomata.Nfa
