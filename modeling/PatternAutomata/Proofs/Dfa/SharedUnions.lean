import PatternAutomata.Proofs.Dfa.Minimality

/-!
# Groups that share a union

The members of an automaton that is built from records may be any sets.  States
that are not alike may then have the same union of members, and minimization
makes one state of them.  Distinct unions are what it takes to keep the
accepted words.  They suffice for every automaton built from records, and where
every state is reached and can get to an accepting one they are necessary:
otherwise there are fewer states than any automaton with the same words has.
-/

namespace PatternAutomata.Dfa

variable {dfa : Dfa} {partition : Partition} {group : Group}

/-- The automaton as one that competes with others. -/
def acceptor (dfa : Dfa) : Acceptor Nat where
  start := dfa.start
  step := dfa.target?
  accepting := {id | dfa.isFinal id = true}

theorem accepts_acceptor_iff (word : List Char) :
    dfa.acceptor.Accepts word ↔ dfa.accepts word = true := by
  rw [accepts_eq_true_iff, outcome?, Option.map_eq_some_iff]
  constructor
  · rintro ⟨target, final, found⟩
    exact ⟨target, found, final⟩
  · rintro ⟨target, found, final⟩
    exact ⟨target, final, found⟩

/-! ## Merged states -/

theorem isConsistent_merge (dfa : Dfa) (partition : Partition) :
    (dfa.merge partition).IsConsistent := by
  rw [merge_eq]
  exact isConsistent_ofRecords _ _

theorem hasStart_merge (dfa : Dfa) (partition : Partition) :
    (dfa.merge partition).HasStart := by
  rw [merge_eq]
  exact hasStart_ofRecords _ _

/-- The merged states have the members of the groups. -/
theorem exists_idOf?_merge_iff {members : StateSet} :
    (∃ id, (dfa.merge partition).idOf? members = some id) ↔
      ∃ group ∈ partition, dfa.groupMembers group = members := by
  rw [merge_eq, mergeGroups, exists_idOf?_ofRecords_iff]
  simp only [List.mem_mapIdx, ← (dfa.startFirst_perm partition).mem_iff]
  constructor
  · rintro ⟨state, ⟨place, bound, rfl⟩, same⟩
    exact ⟨_, List.getElem_mem bound, same⟩
  · rintro ⟨group, member, same⟩
    rcases List.getElem_of_mem member with ⟨place, bound, rfl⟩
    exact ⟨_, ⟨place, bound, rfl⟩, same⟩

theorem size_merge_pos (member : group ∈ partition) :
    0 < (dfa.merge partition).size := by
  rcases exists_idOf?_merge_iff.2 ⟨group, member, rfl⟩ with ⟨id, found⟩
  have inside := ((dfa.isConsistent_merge partition).idOf?_iff.1 found).1
  exact Nat.zero_lt_of_lt inside

/-- There are as many states as groups only if no two groups have the same
members. -/
theorem pairwise_of_length_le_size_merge
    (enough : partition.length ≤ (dfa.merge partition).size) :
    partition.Pairwise fun group other =>
      dfa.groupMembers group ≠ dfa.groupMembers other := by
  have consistent := dfa.isConsistent_merge partition
  let merged := (List.range (dfa.merge partition).size).map
    (dfa.merge partition).members
  have nodup : merged.Nodup := by
    apply List.Nodup.map_on _ List.nodup_range
    intro id inside other otherInside same
    exact consistent.eq_of_members_eq (List.mem_range.1 inside)
      (List.mem_range.1 otherInside) same
  have subset : merged ⊆ partition.map dfa.groupMembers := by
    intro members member
    rcases List.mem_map.1 member with ⟨id, inside, rfl⟩
    exact List.mem_map.2 (exists_idOf?_merge_iff.1
      ⟨id, consistent.idOf?_members (List.mem_range.1 inside)⟩)
  have perm : merged.Perm (partition.map dfa.groupMembers) := by
    apply (nodup.subperm subset).perm_of_length_le
    rw [List.length_map, List.length_map, List.length_range]
    exact enough
  have distinct := perm.nodup_iff.1 nodup
  rw [List.Nodup, List.pairwise_map] at distinct
  exact distinct

/-- If every state is reached and can get to an accepting one, minimization
keeps the accepted words only if unions are distinct. -/
theorem IsConsistent.hasDistinctUnions_of_accepts_minimize
    (consistent : dfa.IsConsistent) (trim : dfa.IsTrim)
    (reached : dfa.IsReached)
    (same : ∀ word, dfa.minimize.accepts word = dfa.accepts word) :
    dfa.HasDistinctUnions := by
  have separates := consistent.separates_stablePartition.1
  have accepted (word : List Char) : dfa.minimize.acceptor.Accepts word ↔
      dfa.outcome? dfa.start word = some true := by
    rw [accepts_acceptor_iff, same, accepts_eq_true_iff]
  rcases separates.exists_injective trim consistent reached accepted with
    ⟨state, injective, leads⟩
  have inside (place : Fin dfa.stablePartition.length) :
      state place < dfa.minimize.size := by
    rcases leads place with ⟨word, found⟩
    have occupied : 0 < dfa.minimize.size :=
      size_merge_pos (List.getElem_mem place.isLt)
    exact (dfa.isConsistent_merge _).lt_size_of_run?
      ((dfa.hasStart_merge _).start_lt occupied) found
  rw [consistent.hasDistinctUnions_iff]
  apply pairwise_of_length_le_size_merge
  have bound := Fintype.card_le_of_injective
    (fun place => (⟨state place, inside place⟩ : Fin dfa.minimize.size))
    fun _ _ equal => injective (Fin.mk.inj equal)
  rw [Fintype.card_fin, Fintype.card_fin] at bound
  exact bound

/-! ## Automata built from records -/

/-- Minimization of an automaton built from records keeps the accepted words if
unions are distinct, and only then if every state is reached and can get to an
accepting one. -/
theorem minimize_ofRecords_accepts_iff_distinct (states : List State)
    (records : List Record) :
    ((ofRecords states records).HasDistinctUnions →
        ∀ word, (ofRecords states records).minimize.accepts word =
          (ofRecords states records).accepts word) ∧
      ((ofRecords states records).IsTrim →
        (ofRecords states records).IsReached →
        (∀ word, (ofRecords states records).minimize.accepts word =
          (ofRecords states records).accepts word) →
        (ofRecords states records).HasDistinctUnions) := by
  have consistent := isConsistent_ofRecords states records
  constructor
  · intro distinct word
    exact consistent.accepts_minimize distinct (hasStart_ofRecords _ _) word
  · intro trim reached same
    exact consistent.hasDistinctUnions_of_accepts_minimize trim reached same

/-- States whose members overlap: two of them are alike, and their union of
members is not that of any other state. -/
def overlappingStates : List State :=
  [.new 0 {0} true false, .new 1 {1} false false, .new 2 {1, 2} false false,
    .new 3 {0, 3} false true]

/-- The words `aa` and `ba` are read, each by way of one of the two states. -/
def overlappingRecords : List Record :=
  [⟨{0}, 'a', {1}⟩, ⟨{0}, 'b', {1, 2}⟩, ⟨{1}, 'a', {0, 3}⟩,
    ⟨{1, 2}, 'a', {0, 3}⟩]

/-- The automaton of these states and records. -/
def overlapping : Dfa := ofRecords overlappingStates overlappingRecords

theorem overlapping_isTrim : overlapping.IsTrim := by
  have words : ∀ id < overlapping.size, ∃ word ∈ [[], ['a'], ['a', 'a']],
      overlapping.outcome? id word = some true := by
    decide +kernel
  intro id inside
  rcases words id inside with ⟨word, -, accepted⟩
  exact ⟨word, accepted⟩

theorem overlapping_isReached : overlapping.IsReached := by
  have words : ∀ id < overlapping.size,
      ∃ word ∈ [[], ['a'], ['b'], ['a', 'a']],
        overlapping.run? overlapping.start word = some id := by
    decide +kernel
  intro id inside
  rcases words id inside with ⟨word, -, found⟩
  exact ⟨word, found⟩

theorem minimize_ofRecords_accepts_iff_distinct_overlapping :
    overlapping.IsTrim ∧ overlapping.IsReached ∧ overlapping.size = 4 ∧
      overlapping.minimize.size = 3 ∧
      (∀ word, overlapping.minimize.accepts word = overlapping.accepts word) ∧
      overlapping.HasDistinctUnions := by
  have consistent := isConsistent_ofRecords overlappingStates
    overlappingRecords
  have distinct := consistent.hasDistinctUnions_iff.2 (by decide +kernel)
  rcases minimize_ofRecords_accepts_iff_distinct overlappingStates
    overlappingRecords with ⟨kept, necessary⟩
  refine ⟨overlapping_isTrim, overlapping_isReached, ?_, ?_, kept distinct, ?_⟩
  · decide +kernel
  · decide +kernel
  · exact necessary overlapping_isTrim overlapping_isReached (kept distinct)

/-- Two states read `b` in turn until `a` is read.  They have one member each,
and the accepting state has both, so that both groups have the same union. -/
def shared : Dfa :=
  ofRecords
    [.new 0 {0} true false, .new 1 {1} false false, .new 2 {0, 1} false true]
    [⟨{0}, 'a', {0, 1}⟩, ⟨{0}, 'b', {1}⟩, ⟨{1}, 'a', {0, 1}⟩,
      ⟨{1}, 'b', {0}⟩]

/-- Minimization makes one state of two groups, and accepts the empty word. -/
theorem minimize_shared_accepts_empty_word :
    shared.stablePartition.length = 2 ∧ shared.minimize.size = 1 ∧
      shared.accepts [] = false ∧ shared.minimize.accepts [] = true := by
  decide +kernel

end PatternAutomata.Dfa
