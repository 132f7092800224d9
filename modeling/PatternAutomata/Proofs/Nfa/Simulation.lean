import Mathlib.Data.List.Induction
import PatternAutomata.Proofs.Nfa.Walk

/-!
# Simulating an automaton

If only states can be reached, the closure of a list of numbers consists of the
ends of silent paths, and the set that a simulation holds after a word consists
of the ends of the paths that spell it.  The alphabet has every character that
an edge of a reachable state reads.
-/

namespace PatternAutomata.Nfa

variable {nfa : Nfa}

theorem State.mem_successors_iff {state : State} {target : StateId} :
    target ∈ state.successors ↔ ∃ label, target ∈ state.targets label := by
  simp only [successors, targets, List.mem_flatMap, Prod.exists,
    Std.ExtTreeMap.mem_toList_iff_getElem?_eq_some,
    Std.ExtTreeSet.mem_toList]
  constructor
  · rintro ⟨label, targets, found, member⟩
    exact ⟨label, by rw [found]; exact member⟩
  · rintro ⟨label, member⟩
    cases found : state.edges[label]? with
    | none => simp [found] at member
    | some targets => exact ⟨label, targets, found, by simpa [found] using member⟩

/-! ## Walks and paths -/

theorem follows_empty_iff {source target : StateId} :
    nfa.Follows (fun state => (state.targets .epsilon).toList)
        source target ↔
      target ∈ nfa.targets source .epsilon := by
  simp [Follows, mem_targets_iff]

theorem follows_successors_iff {source target : StateId} :
    nfa.Follows State.successors source target ↔
      ∃ label, target ∈ nfa.targets source label := by
  simp only [Follows, State.mem_successors_iff, mem_targets_iff]
  constructor
  · rintro ⟨state, found, label, member⟩
    exact ⟨label, state, found, member⟩
  · rintro ⟨label, state, found, member⟩
    exact ⟨state, found, label, member⟩

theorem Path.follows_empty {first last : StateId}
    (path : nfa.Path first [] last) :
    Relation.ReflTransGen
      (nfa.Follows fun state => (state.targets .epsilon).toList)
      first last := by
  generalize silent : [] = word at path
  induction path with
  | done => exact .refl
  | empty edge _ steps =>
      exact .head (follows_empty_iff.2 edge) (steps silent)
  | read => exact nomatch silent

theorem Path.follows_successors {first last : StateId} {word : List Char}
    (path : nfa.Path first word last) :
    Relation.ReflTransGen (nfa.Follows State.successors) first last := by
  induction path with
  | done => exact .refl
  | empty edge _ steps =>
      exact .head (follows_successors_iff.2 ⟨_, edge⟩) steps
  | read edge _ steps =>
      exact .head (follows_successors_iff.2 ⟨_, edge⟩) steps

theorem leads_empty_iff {starts : List StateId} {id : StateId} :
    nfa.Leads (fun state => (state.targets .epsilon).toList) starts id ↔
      ∃ start ∈ starts, nfa.Path start [] id := by
  constructor
  · rintro ⟨start, member, steps⟩
    refine ⟨start, member, ?_⟩
    induction steps with
    | refl => exact .done start
    | tail _ step path =>
        exact path.trans (.ofEmptyEdge (follows_empty_iff.1 step))
  · rintro ⟨start, member, path⟩
    exact ⟨start, member, path.follows_empty⟩

theorem leads_successors_iff {id : StateId} :
    nfa.Leads State.successors [nfa.start] id ↔ nfa.Reachable id := by
  constructor
  · rintro ⟨start, member, steps⟩
    rw [List.mem_singleton.1 member] at steps
    clear member
    induction steps with
    | refl => exact nfa.reachable_start
    | tail _ step reached =>
        rcases follows_successors_iff.1 step with ⟨label, edge⟩
        exact reached.extend (.ofEdge edge)
  · rintro ⟨word, path⟩
    exact ⟨nfa.start, .head _, path.follows_successors⟩

/-! ## Sets of states -/

theorem mem_emptyWalk_iff {starts : List StateId}
    (states : ∀ start ∈ starts, ∀ id, nfa.Path start [] id →
      nfa.contains id = true)
    {id : StateId} :
    id ∈ nfa.emptyWalk starts ↔ ∃ start ∈ starts, nfa.Path start [] id := by
  rw [← leads_empty_iff]
  refine mem_walk_iff fun other leads => ?_
  rcases leads_empty_iff.1 leads with ⟨start, member, path⟩
  exact states start member other path

theorem mem_closure_iff {starts : List StateId}
    (states : ∀ start ∈ starts, ∀ id, nfa.Path start [] id →
      nfa.contains id = true)
    {id : StateId} :
    id ∈ nfa.closure starts ↔ ∃ start ∈ starts, nfa.Path start [] id := by
  rw [closure, Std.ExtTreeSet.mem_ofList, List.contains_iff_mem,
    mem_emptyWalk_iff states]

theorem mem_edge_iff {sources : StateSet} {character : Char}
    {target : StateId} :
    target ∈ nfa.edge sources character ↔
      ∃ source ∈ sources, target ∈ nfa.targets source (.char character) := by
  rw [edge, Std.ExtTreeSet.mem_ofList, List.contains_iff_mem]
  simp only [List.mem_flatMap, Std.ExtTreeSet.mem_toList]

/-- The states in which the automaton can be after a word, as a simulation
computes them. -/
def after (nfa : Nfa) (word : List Char) : StateSet :=
  word.foldl nfa.advance (nfa.closure [nfa.start])

@[simp]
theorem after_nil : nfa.after [] = nfa.closure [nfa.start] := rfl

@[simp]
theorem after_append_singleton (word : List Char) (character : Char) :
    nfa.after (word ++ [character]) =
      nfa.advance (nfa.after word) character := by
  rw [after, List.foldl_append]
  rfl

theorem ReachesOnlyStates.isEmpty_eq_false (only : nfa.ReachesOnlyStates) :
    nfa.isEmpty = false := by
  have start := contains_iff.1 (only _ nfa.reachable_start)
  rw [isEmpty, Array.isEmpty_eq_false_iff, ← Array.size_pos_iff]
  change 0 < nfa.size
  grind

/-- Without states the walk does not even visit the start state. -/
theorem breadthFirst_of_isEmpty (stateless : nfa.isEmpty = true) :
    nfa.breadthFirst = [] := by
  rw [breadthFirst, if_pos stateless]

theorem mem_breadthFirst_iff (only : nfa.ReachesOnlyStates) {id : StateId} :
    id ∈ nfa.breadthFirst ↔ nfa.Reachable id := by
  rw [breadthFirst, only.isEmpty_eq_false, ← leads_successors_iff]
  exact mem_walk_iff fun other leads =>
    only other (leads_successors_iff.1 leads)

/-- It is enough that the breadth first walk comes upon states only. -/
theorem reachesOnlyStates_iff (occupied : nfa.isEmpty = false) :
    nfa.ReachesOnlyStates ↔
      ∀ id ∈ nfa.breadthFirst, nfa.contains id = true := by
  constructor
  · intro only id member
    exact only id ((mem_breadthFirst_iff only).1 member)
  · intro states id reachable
    apply states
    rw [breadthFirst, occupied] at states ⊢
    exact mem_walk_of_leads states (leads_successors_iff.2 reachable)

namespace ReachesOnlyStates

variable {word : List Char} {character : Char}

theorem mem_advance_iff {current : StateSet} (only : nfa.ReachesOnlyStates)
    (reachable : ∀ id ∈ current, nfa.Reachable id) {id : StateId} :
    id ∈ nfa.advance current character ↔
      ∃ source ∈ current, ∃ target,
        target ∈ nfa.targets source (.char character) ∧
          nfa.Path target [] id := by
  have states : ∀ start ∈ (nfa.edge current character).toList, ∀ id,
      nfa.Path start [] id → nfa.contains id = true := by
    intro start member id path
    rw [Std.ExtTreeSet.mem_toList, mem_edge_iff] at member
    rcases member with ⟨source, sourceMember, edge⟩
    exact only id
      (((reachable source sourceMember).extend (.ofEdge edge)).extend path)
  rw [advance, mem_closure_iff states]
  simp only [Std.ExtTreeSet.mem_toList, mem_edge_iff]
  constructor
  · rintro ⟨target, ⟨source, member, edge⟩, path⟩
    exact ⟨source, member, target, edge, path⟩
  · rintro ⟨source, member, target, edge, path⟩
    exact ⟨target, ⟨source, member, edge⟩, path⟩

/-- A simulation holds the ends of the paths that spell the word read so
far. -/
theorem mem_after_iff (only : nfa.ReachesOnlyStates) {id : StateId} :
    id ∈ nfa.after word ↔ nfa.Path nfa.start word id := by
  induction word using List.reverseRecOn generalizing id with
  | nil =>
      rw [after_nil, mem_closure_iff]
      · simp
      · intro start member id path
        rw [List.mem_singleton.1 member] at path
        exact only id ⟨[], path⟩
  | append_singleton front character reached =>
      rw [after_append_singleton, only.mem_advance_iff
        fun id member => ⟨front, reached.1 member⟩,
        Path.append_singleton_iff]
      simp only [reached]
      constructor
      · rintro ⟨source, path, target, edge, silent⟩
        exact ⟨source, target, path, edge, silent⟩
      · rintro ⟨source, target, path, edge, silent⟩
        exact ⟨source, path, target, edge, silent⟩

theorem reachable_of_mem_after (only : nfa.ReachesOnlyStates) {id : StateId}
    (member : id ∈ nfa.after word) : nfa.Reachable id :=
  ⟨word, only.mem_after_iff.1 member⟩

theorem contains_of_mem_after (only : nfa.ReachesOnlyStates) {id : StateId}
    (member : id ∈ nfa.after word) : nfa.contains id = true :=
  only id (only.reachable_of_mem_after member)

/-- A path that spells a word passes through states for all of its parts. -/
theorem after_ne_empty_of_append {continuation : List Char}
    (only : nfa.ReachesOnlyStates)
    (nonempty : nfa.after (word ++ continuation) ≠ ∅) :
    nfa.after word ≠ ∅ := by
  intro empty
  refine nonempty (Std.ExtTreeSet.eq_empty_iff_forall_not_mem.2 ?_)
  intro id member
  rcases (only.mem_after_iff.1 member).divide with ⟨middle, front, -⟩
  have absent : middle ∉ nfa.after word := by simp [empty]
  exact absent (only.mem_after_iff.2 front)

end ReachesOnlyStates

/-! ## The alphabet -/

theorem State.mem_characters_of_mem_targets {state : State}
    {character : Char} {target : StateId}
    (member : target ∈ state.targets (.char character)) :
    character ∈ state.characters := by
  simp only [characters, List.mem_filterMap, Std.ExtTreeMap.mem_keys]
  refine ⟨.char character, ?_, rfl⟩
  cases found : state.edges[Label.char character]? with
  | none => simp [targets, found] at member
  | some targets =>
      exact Std.ExtTreeMap.mem_iff_isSome_getElem?.2 (by rw [found]; rfl)

theorem mem_characters_of_mem_targets {source target : StateId}
    {character : Char}
    (edge : target ∈ nfa.targets source (.char character)) :
    character ∈ nfa.characters source := by
  rcases mem_targets_iff.1 edge with ⟨state, found, member⟩
  rw [characters, found]
  exact State.mem_characters_of_mem_targets member

/-- The characters that edges from the listed numbers read, in the order in
which one comes upon them. -/
def charactersOf (nfa : Nfa) (ids : List StateId) : List Char :=
  ids.foldl (fun met id =>
    met ++ (nfa.characters id).filter fun character => ¬ character ∈ met) []

theorem charactersOf_append_singleton (ids : List StateId) (id : StateId) :
    nfa.charactersOf (ids ++ [id]) =
      nfa.charactersOf ids ++ (nfa.characters id).filter fun character =>
        ¬ character ∈ nfa.charactersOf ids := by
  simp [charactersOf]

theorem mem_charactersOf_iff {ids : List StateId} {character : Char} :
    character ∈ nfa.charactersOf ids ↔
      ∃ id ∈ ids, character ∈ nfa.characters id := by
  induction ids using List.reverseRecOn with
  | nil => simp [charactersOf]
  | append_singleton ids id collected =>
      simp only [charactersOf_append_singleton, List.mem_append,
        List.mem_filter, decide_eq_true_eq, collected, List.mem_singleton,
        or_and_right, exists_or, exists_eq_left]
      grind

theorem mem_alphabet_iff {character : Char} :
    character ∈ nfa.alphabet ↔
      ∃ id ∈ nfa.breadthFirst, character ∈ nfa.characters id :=
  mem_charactersOf_iff

/-- The characters of a state are listed in ascending order. -/
theorem State.pairwise_characters (state : State) :
    state.characters.Pairwise (· < ·) := by
  apply List.Pairwise.filterMap _ _ Std.ExtTreeMap.ordered_keys
  rintro (_ | first) (_ | second) below character reads other otherReads
  · exact nomatch reads
  · exact nomatch reads
  · exact nomatch otherReads
  · cases reads
    cases otherReads
    have ranks := Nat.compare_eq_lt.1 below
    exact Nat.lt_of_succ_lt_succ ranks

theorem State.nodup_characters (state : State) :
    state.characters.Nodup :=
  state.pairwise_characters.imp Char.ne_of_lt

/-- The alphabet has every character once. -/
theorem nodup_alphabet (nfa : Nfa) : nfa.alphabet.Nodup := by
  refine List.foldlRecOn nfa.breadthFirst _ List.nodup_nil ?_
  intro met nodup id _
  have characters : (nfa.characters id).Nodup := by
    rw [Nfa.characters]
    cases nfa.state? id with
    | none => exact List.nodup_nil
    | some state => exact state.nodup_characters
  refine List.nodup_append.2 ⟨nodup, characters.filter _, ?_⟩
  grind

/-- The alphabet has what the edges of reachable states read. -/
theorem ReachesOnlyStates.mem_alphabet (only : nfa.ReachesOnlyStates)
    {source target : StateId} {character : Char}
    (reachable : nfa.Reachable source)
    (edge : target ∈ nfa.targets source (.char character)) :
    character ∈ nfa.alphabet :=
  mem_alphabet_iff.2 ⟨source, (mem_breadthFirst_iff only).2 reachable,
    mem_characters_of_mem_targets edge⟩

end PatternAutomata.Nfa
