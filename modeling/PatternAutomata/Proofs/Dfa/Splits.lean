import PatternAutomata.Proofs.Dfa.CheckedMinimize
import PatternAutomata.Proofs.Dfa.Groups

/-!
# Splits

Minimization splits one group of a partition at a time until none can be split.
Every partition on the way divides the states into groups that accept as a
whole or not at all.  A split adds a group, each group has a state of its own,
and there is a group to begin with if there is a state.  So there are fewer
splits than states, and the groups that are left become no more states than
there were.

An automaton without states has no group to split, and then no splits are as
many as no states.
-/

namespace PatternAutomata.Dfa

variable {dfa : Dfa} {partition finer last : Partition} {splits : Nat}

/-- Groups with members, no two of which have one in common.  Together they
have the states, and each has accepting states only or none. -/
structure IsPartition (dfa : Dfa) (partition : Partition) : Prop where
  nonempty : ∀ group ∈ partition, ∃ id, id ∈ group
  disjoint : partition.Pairwise fun group other => ∀ id ∈ group, id ∉ other
  covers : ∀ id, (∃ group ∈ partition, id ∈ group) ↔ id < dfa.size
  uniform : ∀ group ∈ partition, ∀ first ∈ group, ∀ second ∈ group,
    dfa.isFinal first = dfa.isFinal second

/-- One group has given way to at least two others at the end, which have its
members between them. -/
def Splits (partition finer : Partition) : Prop :=
  ∃ (place : Nat) (group : Group) (parts : List Group),
    partition[place]? = some group ∧
      finer = partition.eraseIdx place ++ parts ∧ 2 ≤ parts.length ∧
      ∀ id, id ∈ group ↔ ∃ part ∈ parts, id ∈ part

/-- Refining a partition comes to another one with a number of splits. -/
inductive RefinesIn (dfa : Dfa) (partition : Partition) :
    Nat → Partition → Prop
  | start : RefinesIn dfa partition 0 partition
  | split {splits : Nat} {last finer : Partition} :
      RefinesIn dfa partition splits last → dfa.refine? last = some finer →
        RefinesIn dfa partition (splits + 1) finer

/-! ## A split -/

theorem splits_of_refine?_eq_some
    (refined : dfa.refine? partition = some finer) : Splits partition finer := by
  rcases exists_place_of_refine?_eq_some refined with
    ⟨place, group, parts, found, split, rfl⟩
  rcases exists_of_split?_eq_some split with ⟨character, rfl, several⟩
  exact ⟨place, group, _, found, rfl, several, fun id =>
    (dfa.exists_mem_divide_iff partition group character id).symm⟩

/-- States in different groups are different, since a state is alike to
itself. -/
theorem Separates.isPartition (separates : dfa.Separates partition) :
    dfa.IsPartition partition where
  nonempty := separates.nonempty
  disjoint := separates.apart.imp fun apart id inside otherInside =>
    apart id inside id otherInside fun _ => rfl
  covers := separates.covers
  uniform := separates.final

/-! ## All splits -/

namespace RefinesIn

/-- Every split has added a group. -/
theorem separates (refines : dfa.RefinesIn partition splits last)
    (consistent : dfa.IsConsistent) (separates : dfa.Separates partition) :
    dfa.Separates last ∧ splits + partition.length ≤ last.length := by
  induction refines with
  | start => exact ⟨separates, by rw [Nat.zero_add]⟩
  | split _ refined before =>
      rcases before with ⟨separates, longer⟩
      rcases separates.refine consistent refined with ⟨separates, added⟩
      exact ⟨separates, by omega⟩

theorem exists_of_refined
    (refined : Relation.ReflTransGen
      (fun earlier later => dfa.refine? earlier = some later)
      partition last) :
    ∃ splits, dfa.RefinesIn partition splits last := by
  induction refined with
  | refl => exact ⟨0, .start⟩
  | tail _ step before =>
      rcases before with ⟨splits, refines⟩
      exact ⟨splits + 1, refines.split step⟩

/-- The group to begin with is not added by a split. -/
theorem splits_lt (consistent : dfa.IsConsistent)
    (refines : dfa.RefinesIn dfa.initialPartition splits last) :
    splits < dfa.size ∨ dfa.size = 0 ∧ splits = 0 := by
  have initial := Separates.initial consistent
  rcases refines.separates consistent initial with ⟨separates, longer⟩
  have bound := separates.length_le
  rcases Nat.eq_zero_or_pos dfa.size with stateless | occupied
  · exact .inr ⟨stateless, by omega⟩
  · rcases (initial.covers 0).2 occupied with ⟨group, member, -⟩
    have started := List.length_pos_of_mem member
    exact .inl (by omega)

end RefinesIn

/-! ## What is left -/

/-- A state is added for a listed one at most. -/
theorem size_foldl_addListed_le (dfa : Dfa) (states : List State) :
    (states.foldl addListed dfa).size ≤ dfa.size + states.length := by
  induction states generalizing dfa with
  | nil => exact Nat.le_refl _
  | cons state states bound =>
      rw [List.foldl_cons, List.length_cons]
      apply Nat.le_trans (bound _)
      rw [addListed, size_addState]
      split <;> omega

theorem size_ofRecords_le (states : List State) (records : List Record) :
    (ofRecords states records).size ≤ states.length := by
  have bound := size_foldl_addListed_le (empty []) states
  rw [size, (sharesStates_ofRecords states records).states]
  exact bound.trans_eq (Nat.zero_add _)

/-- Groups may become one state, but no group becomes two. -/
theorem size_merge_le (dfa : Dfa) (partition : Partition) :
    (dfa.merge partition).size ≤ partition.length := by
  rw [merge_eq, mergeGroups]
  apply (size_ofRecords_le _ _).trans_eq
  rw [List.length_mapIdx, (dfa.startFirst_perm partition).length_eq]

theorem IsConsistent.size_minimize_le (consistent : dfa.IsConsistent) :
    dfa.minimize.size ≤ dfa.size :=
  (dfa.size_merge_le dfa.stablePartition).trans
    consistent.separates_stablePartition.1.length_le

/-- After any number of splits there is a partition, and the next split puts at
least two groups in the place of one.  When no group can be split any more,
there were fewer splits than there are states, or none if there are no states,
and minimization returns no more states than it was given. -/
theorem refinement_splits_and_ends (dfa : Dfa)
    (constructed : dfa.Constructed) :
    (∀ splits partition,
        dfa.RefinesIn dfa.initialPartition splits partition →
          dfa.IsPartition partition ∧
            ∀ finer, dfa.refine? partition = some finer →
              Splits partition finer) ∧
      (∃ splits,
        dfa.RefinesIn dfa.initialPartition splits dfa.stablePartition ∧
          dfa.refine? dfa.stablePartition = none ∧
          (splits < dfa.size ∨ dfa.size = 0 ∧ splits = 0)) ∧
      ∃ minimized, Checked.minimize dfa = .ok minimized ∧
        minimized.size ≤ dfa.size := by
  have consistent := constructed.isCoherent.consistent
  refine ⟨?_, ?_, ?_⟩
  · intro splits partition refines
    have initial := Separates.initial consistent
    rcases refines.separates consistent initial with ⟨separates, -⟩
    exact ⟨separates.isPartition, fun finer => splits_of_refine?_eq_some⟩
  · rcases consistent.stopsAt_stablePartition with ⟨refined, final⟩
    rcases RefinesIn.exists_of_refined refined with ⟨splits, refines⟩
    exact ⟨splits, refines, final, refines.splits_lt consistent⟩
  · exact ⟨dfa.minimize, Checked.minimize_eq_ok consistent,
      consistent.size_minimize_le⟩

theorem refinement_splits_and_ends_unreached :
    unreached.Constructed ∧ unreached.size = 5 ∧
      unreached.initialPartition.length = 2 ∧
      unreached.stablePartition.length = 4 ∧
      unreached.IsPartition unreached.initialPartition ∧
      (∃ splits,
        unreached.RefinesIn unreached.initialPartition splits
            unreached.stablePartition ∧
          splits < 5) ∧
      ∃ minimized, Checked.minimize unreached = .ok minimized ∧
        minimized.size ≤ 5 := by
  have constructed : unreached.Constructed := .ofRecords _ _
  have size : unreached.size = 5 := by decide +kernel
  rcases refinement_splits_and_ends unreached constructed with
    ⟨kept, ⟨splits, refines, -, few⟩, minimizes⟩
  rw [size] at few minimizes
  refine ⟨constructed, size, by decide +kernel, by decide +kernel,
    (kept 0 _ .start).1, ⟨splits, refines, ?_⟩, minimizes⟩
  rcases few with few | ⟨stateless, -⟩
  · exact few
  · cases stateless

/-- Without states, refining ends after as many splits as there are states. -/
theorem not_fewer_splits_without_states :
    (ofRecords [] []).Constructed ∧
      ¬∃ splits last,
        (ofRecords [] []).RefinesIn (ofRecords [] []).initialPartition
            splits last ∧
          (ofRecords [] []).refine? last = none ∧
          splits < (ofRecords [] []).size := by
  refine ⟨.ofRecords [] [], ?_⟩
  rintro ⟨splits, last, -, -, fewer⟩
  exact Nat.not_lt_zero splits fewer

end PatternAutomata.Dfa
