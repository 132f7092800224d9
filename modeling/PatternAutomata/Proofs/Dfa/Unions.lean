import PatternAutomata.Proofs.Dfa.Merging

/-!
# Unions of members

Minimization tells the states that groups become by the unions of the members
in each group.  If groups of states that are not alike have different unions,
the stable partition is a quotient, and minimization keeps what the automaton
does with every word.
-/

namespace PatternAutomata.Dfa

variable {dfa : Dfa} {group : Group} {id : Nat}

/-- The members of all states that are alike to a state. -/
def unionMembers (dfa : Dfa) (id : Nat) : Set StateId :=
  {member | ∃ other, dfa.Alike id other ∧ member ∈ dfa.members other}

/-- States with the same union of members are alike. -/
def HasDistinctUnions (dfa : Dfa) : Prop :=
  ∀ first < dfa.size, ∀ second < dfa.size,
    dfa.unionMembers first = dfa.unionMembers second →
      dfa.Alike first second

/-- What the members of each state decide, alike for states that are alike, the
union of members decides as well. -/
theorem iff_unionMembers {observed : Nat → Prop} {starts : StateId → Prop}
    (members_iff : ∀ id < dfa.size,
      (observed id ↔ ∃ member ∈ dfa.members id, starts member))
    (uniform : ∀ first second, dfa.Alike first second →
      (observed first ↔ observed second))
    (inside : id < dfa.size) :
    observed id ↔ ∃ member ∈ dfa.unionMembers id, starts member := by
  constructor
  · intro holds
    rcases (members_iff id inside).1 holds with ⟨member, known, starts⟩
    exact ⟨member, ⟨id, fun _ => rfl, known⟩, starts⟩
  · rintro ⟨member, ⟨other, alike, known⟩, starts⟩
    rw [uniform id other alike,
      members_iff other (lt_size_of_mem_members known)]
    exact ⟨member, known, starts⟩

/-! ## Groups of the stable partition -/

namespace IsConsistent

theorem mem_groupMembers_iff_mem_unionMembers (consistent : dfa.IsConsistent)
    (member : group ∈ dfa.stablePartition) (inside : id ∈ group)
    {state : StateId} :
    state ∈ dfa.groupMembers group ↔ state ∈ dfa.unionMembers id := by
  rw [mem_groupMembers_iff]
  constructor
  · rintro ⟨other, otherInside, known⟩
    have alike := (consistent.alike_iff member inside
      (lt_size_of_mem_members known)).2 otherInside
    exact ⟨other, alike, known⟩
  · rintro ⟨other, alike, known⟩
    have otherInside := (consistent.alike_iff member inside
      (lt_size_of_mem_members known)).1 alike
    exact ⟨other, otherInside, known⟩

theorem groupMembers_eq_iff (consistent : dfa.IsConsistent) {other : Group}
    (member : group ∈ dfa.stablePartition)
    (otherMember : other ∈ dfa.stablePartition) {first second : Nat}
    (inside : first ∈ group) (otherInside : second ∈ other) :
    dfa.groupMembers group = dfa.groupMembers other ↔
      dfa.unionMembers first = dfa.unionMembers second := by
  rw [Std.ExtTreeSet.ext_mem_iff, Set.ext_iff]
  simp only [consistent.mem_groupMembers_iff_mem_unionMembers member inside,
    consistent.mem_groupMembers_iff_mem_unionMembers otherMember otherInside]

/-- Unions are distinct if and only if no two groups of the stable partition
have the same members. -/
theorem hasDistinctUnions_iff (consistent : dfa.IsConsistent) :
    dfa.HasDistinctUnions ↔
      dfa.stablePartition.Pairwise fun group other =>
        dfa.groupMembers group ≠ dfa.groupMembers other := by
  rcases consistent.separates_stablePartition with ⟨separates, -⟩
  constructor
  · intro distinct
    apply separates.apart.imp_of_mem
    intro group other member otherMember apart same
    rcases separates.nonempty group member with ⟨first, inside⟩
    rcases separates.nonempty other otherMember with ⟨second, otherInside⟩
    apply apart first inside second otherInside
    apply distinct first (separates.lt_size member inside) second
      (separates.lt_size otherMember otherInside)
    exact (consistent.groupMembers_eq_iff member otherMember inside
      otherInside).1 same
  · intro distinct first firstInside second secondInside same
    rcases (separates.covers first).2 firstInside with
      ⟨group, member, inside⟩
    rcases (separates.covers second).2 secondInside with
      ⟨other, otherMember, otherInside⟩
    have equal := (consistent.groupMembers_eq_iff member otherMember inside
      otherInside).2 same
    have one := eq_of_groupMembers_eq distinct member otherMember equal
    rw [consistent.alike_iff member inside secondInside, one]
    exact otherInside

/-- With distinct unions the stable partition is a quotient. -/
theorem isQuotient_stablePartition (consistent : dfa.IsConsistent)
    (distinct : dfa.HasDistinctUnions) :
    dfa.IsQuotient dfa.stablePartition := by
  rcases consistent.separates_stablePartition with ⟨separates, stable⟩
  refine ⟨separates, ?_, consistent.hasDistinctUnions_iff.1 distinct⟩
  intro group member first firstInside second secondInside
  exact separates.alike_of_mem consistent stable member firstInside
    secondInside

/-! ## Minimization -/

theorem size_minimize (consistent : dfa.IsConsistent)
    (distinct : dfa.HasDistinctUnions) :
    dfa.minimize.size = dfa.stablePartition.length :=
  (consistent.isQuotient_stablePartition distinct).size_merge

/-- Minimization keeps what the automaton does with every word. -/
theorem outcome?_minimize (consistent : dfa.IsConsistent)
    (distinct : dfa.HasDistinctUnions) (hasStart : dfa.HasStart)
    (occupied : 0 < dfa.size) (word : List Char) :
    dfa.minimize.outcome? dfa.minimize.start word =
      dfa.outcome? dfa.start word :=
  (consistent.isQuotient_stablePartition distinct).outcome?_merge consistent
    hasStart occupied word

/-- Minimization keeps the accepted words. -/
theorem accepts_minimize (consistent : dfa.IsConsistent)
    (distinct : dfa.HasDistinctUnions) (hasStart : dfa.HasStart)
    (word : List Char) : dfa.minimize.accepts word = dfa.accepts word := by
  rcases Nat.eq_zero_or_pos dfa.size with none_there | occupied
  · have separates := consistent.separates_stablePartition.1
    have minimal : dfa.minimize.size = 0 := by
      rw [consistent.size_minimize distinct, separates.eq_nil none_there]
      rfl
    rw [accepts_eq_false_of_size_eq_zero none_there,
      accepts_eq_false_of_size_eq_zero minimal]
  · exact accepts_eq_of_outcome?_eq
      (consistent.outcome?_minimize distinct hasStart occupied word)

end IsConsistent

end PatternAutomata.Dfa
