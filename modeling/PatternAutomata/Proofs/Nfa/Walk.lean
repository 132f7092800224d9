import Mathlib.Data.List.Nodup
import Mathlib.Data.List.Perm.Subperm
import Mathlib.Logic.Relation
import PatternAutomata.Nfa.Walk
import PatternAutomata.Proofs.Nfa.Path

/-!
# What walks visit

A walk visits numbers that can be reached from where it starts, and it visits
all of them unless it comes upon a number that is no state.  The invariant
divides the numbers seen so far into those visited and those waiting: they are
all different, and what follows a visited number has been seen.
-/

namespace PatternAutomata.Nfa

variable {nfa : Nfa} {discipline : Discipline} {next : State → List StateId}

theorem contains_iff {id : StateId} :
    nfa.contains id = true ↔
      nfa.firstId ≤ id ∧ id < nfa.firstId + nfa.size := by
  unfold contains state? size
  split <;> simp <;> grind

theorem mem_ids_iff {id : StateId} :
    id ∈ nfa.ids ↔ nfa.contains id = true := by
  rw [ids, List.mem_range'_1, contains_iff]

theorem contains_of_mem_targets {source target : StateId} {label : Label}
    (edge : target ∈ nfa.targets source label) :
    nfa.contains source = true := by
  rcases mem_targets_iff.1 edge with ⟨state, found, -⟩
  rw [contains, found]
  rfl

/-- A walk may go on from one number to another. -/
def Follows (nfa : Nfa) (next : State → List StateId)
    (source target : StateId) : Prop :=
  ∃ state, nfa.state? source = some state ∧ target ∈ next state

/-- A walk can come from the given numbers to a number. -/
def Leads (nfa : Nfa) (next : State → List StateId) (starts : List StateId)
    (id : StateId) : Prop :=
  ∃ start ∈ starts, Relation.ReflTransGen (nfa.Follows next) start id

theorem mem_newAmong_iff {seen : StateSet} {candidates : List StateId}
    {id : StateId} :
    id ∈ newAmong seen candidates ↔ id ∈ candidates ∧ id ∉ seen := by
  simp [newAmong]

theorem nodup_eraseDups :
    (candidates : List StateId) → candidates.eraseDups.Nodup
  | [] => List.nodup_nil
  | head :: tail => by
      rw [List.eraseDups_cons, List.nodup_cons]
      exact ⟨by simp, nodup_eraseDups _⟩
termination_by candidates => candidates.length
decreasing_by exact Nat.lt_succ_of_le (List.length_filter_le _ _)

theorem nodup_newAmong (seen : StateSet) (candidates : List StateId) :
    (newAmong seen candidates).Nodup :=
  nodup_eraseDups _

theorem Discipline.arrange_perm (discipline : Discipline)
    (found waiting : List StateId) :
    (discipline.arrange found waiting).Perm (waiting ++ found) := by
  cases discipline with
  | queue => exact List.Perm.refl _
  | stack =>
      exact ((List.reverse_perm found).append_right waiting).trans
        List.perm_append_comm

/-- What holds of a walk at any time. -/
structure Walking (nfa : Nfa) (next : State → List StateId)
    (visited : List StateId) (seen : StateSet) (waiting : List StateId) :
    Prop where
  /-- No number is visited or waits twice. -/
  nodup : (visited ++ waiting).Nodup
  /-- A number that has been seen has been visited or waits. -/
  mem_seen : ∀ id, id ∈ seen ↔ id ∈ visited ∨ id ∈ waiting
  /-- Only states have been visited. -/
  contains : ∀ id ∈ visited, nfa.contains id = true
  /-- What follows a visited number has been seen. -/
  follows : ∀ id ∈ visited, ∀ target, nfa.Follows next id target →
    target ∈ seen

namespace Walking

variable {visited waiting : List StateId} {seen : StateSet} {id : StateId}

theorem start (starts : List StateId) :
    Walking nfa next [] (Std.ExtTreeSet.ofList starts)
      (discipline.arrange starts.eraseDups []) where
  nodup := by
    rw [List.nil_append, (discipline.arrange_perm _ _).nodup_iff]
    exact nodup_eraseDups starts
  mem_seen id := by
    simp [(discipline.arrange_perm _ _).mem_iff]
  contains := by simp
  follows := by simp

/-- There are no more visited numbers than states. -/
theorem length_visited_le (walking : Walking nfa next visited seen waiting) :
    visited.length ≤ nfa.size := by
  have subset : visited ⊆ nfa.ids :=
    fun id member => mem_ids_iff.2 (walking.contains id member)
  have nodup : visited.Nodup := walking.nodup.of_append_left
  calc
    visited.length ≤ nfa.ids.length := (nodup.subperm subset).length_le
    _ = nfa.size := List.length_range'

theorem visit (discipline : Discipline) {state : State}
    (walking : Walking nfa next visited seen (id :: waiting))
    (found : nfa.state? id = some state) :
    Walking nfa next (visited ++ [id])
      (seen.insertMany (newAmong seen (next state)))
      (discipline.arrange (newAmong seen (next state)) waiting) := by
  have arranged :=
    discipline.arrange_perm (newAmong seen (next state)) waiting
  have fresh : ∀ other ∈ newAmong seen (next state),
      other ∉ visited ++ id :: waiting := by
    intro other member
    rw [List.mem_append, ← walking.mem_seen]
    exact (mem_newAmong_iff.1 member).2
  constructor
  · rw [List.append_assoc, List.singleton_append,
      ((arranged.cons id).append_left visited).nodup_iff,
      ← List.cons_append, ← List.append_assoc, List.nodup_append]
    refine ⟨walking.nodup, nodup_newAmong _ _, ?_⟩
    rintro old oldMember new newMember rfl
    exact fresh old newMember oldMember
  · intro other
    rw [Std.ExtTreeSet.mem_insertMany_list, List.contains_iff_mem,
      walking.mem_seen, arranged.mem_iff]
    simp only [List.mem_append, List.mem_cons, List.not_mem_nil, or_false]
    tauto
  · intro other member
    rcases List.mem_append.1 member with old | new
    · exact walking.contains other old
    · rw [List.mem_singleton.1 new, Nfa.contains, found]
      rfl
  · intro other member target step
    rw [Std.ExtTreeSet.mem_insertMany_list, List.contains_iff_mem,
      mem_newAmong_iff]
    rcases List.mem_append.1 member with old | new
    · exact .inl (walking.follows other old target step)
    · rcases step with ⟨stepState, stepFound, follows⟩
      rw [List.mem_singleton.1 new, found, Option.some.injEq] at stepFound
      subst stepFound
      by_cases met : target ∈ seen
      · exact .inl met
      · exact .inr ⟨follows, met⟩

/-- A walk with enough rounds that comes upon states only goes on until
nothing waits. -/
theorem complete (walking : Walking nfa next visited seen waiting)
    (rounds : Nat) (enough : nfa.size < visited.length + rounds)
    (states : ∀ id ∈ nfa.walkFrom discipline next rounds seen waiting,
      nfa.contains id = true) :
    ∃ ended,
      Walking nfa next
        (visited ++ nfa.walkFrom discipline next rounds seen waiting)
        ended [] ∧
      ∀ id ∈ seen, id ∈ ended := by
  induction rounds generalizing visited seen waiting with
  | zero =>
      have bounded := walking.length_visited_le
      omega
  | succ rounds complete =>
      cases waiting with
      | nil =>
          rw [walkFrom, List.append_nil]
          exact ⟨seen, walking, fun _ member => member⟩
      | cons id waiting =>
          cases found : nfa.state? id with
          | none =>
              have impossible := states id (by simp [walkFrom, found])
              simp [Nfa.contains, found] at impossible
          | some state =>
              simp only [walkFrom, found] at states ⊢
              have visit := walking.visit discipline found
              rcases complete visit (by simp; omega)
                  (fun other member => states other (.tail _ member)) with
                ⟨ended, finished, larger⟩
              rw [List.append_assoc] at finished
              refine ⟨ended, finished, fun other member => ?_⟩
              exact larger other
                (Std.ExtTreeSet.mem_insertMany_list.2 (.inl member))

end Walking

/-- A walk visits only what it can come to. -/
theorem leads_of_mem_walkFrom {rounds : Nat} {seen : StateSet}
    {waiting : List StateId} {id : StateId}
    (member : id ∈ nfa.walkFrom discipline next rounds seen waiting) :
    nfa.Leads next waiting id := by
  induction rounds generalizing seen waiting with
  | zero => exact nomatch member
  | succ rounds leads =>
      cases waiting with
      | nil => exact nomatch member
      | cons head waiting =>
          cases found : nfa.state? head with
          | none =>
              simp only [walkFrom, found, List.mem_singleton] at member
              exact ⟨head, .head _, member ▸ .refl⟩
          | some state =>
              simp only [walkFrom, found, List.mem_cons] at member
              rcases member with rfl | member
              · exact ⟨id, .head _, .refl⟩
              · rcases leads member with ⟨start, startMember, steps⟩
                rw [(discipline.arrange_perm _ _).mem_iff,
                  List.mem_append, mem_newAmong_iff] at startMember
                rcases startMember with old | new
                · exact ⟨start, .tail _ old, steps⟩
                · exact ⟨head, .head _, .head ⟨state, found, new.1⟩ steps⟩

theorem leads_of_mem_walk {starts : List StateId} {id : StateId}
    (member : id ∈ nfa.walk discipline next starts) :
    nfa.Leads next starts id := by
  rcases leads_of_mem_walkFrom member with ⟨start, startMember, steps⟩
  rw [(discipline.arrange_perm _ _).mem_iff, List.nil_append,
    List.mem_eraseDups] at startMember
  exact ⟨start, startMember, steps⟩

/-- A walk that comes upon states only visits all that it can come to. -/
theorem mem_walk_of_leads {starts : List StateId}
    (states : ∀ id ∈ nfa.walk discipline next starts,
      nfa.contains id = true)
    {id : StateId} (leads : nfa.Leads next starts id) :
    id ∈ nfa.walk discipline next starts := by
  have started : Walking nfa next [] (Std.ExtTreeSet.ofList starts)
      (discipline.arrange starts.eraseDups []) := Walking.start starts
  rcases started.complete (nfa.size + 1) (by simp) states with
    ⟨ended, finished, larger⟩
  rw [List.nil_append] at finished
  have mem_ended (id : StateId) :
      id ∈ ended ↔ id ∈ nfa.walk discipline next starts := by
    rw [finished.mem_seen, walk]
    exact or_iff_left List.not_mem_nil
  rcases leads with ⟨start, startMember, steps⟩
  rw [← mem_ended]
  induction steps with
  | refl =>
      refine larger start ?_
      rw [Std.ExtTreeSet.mem_ofList, List.contains_iff_mem]
      exact startMember
  | tail _ step reached =>
      exact finished.follows _ ((mem_ended _).1 reached) _ step

/-- If a walk can come to states only, it visits all that it can come to. -/
theorem mem_walk_iff {starts : List StateId}
    (states : ∀ id, nfa.Leads next starts id → nfa.contains id = true)
    {id : StateId} :
    id ∈ nfa.walk discipline next starts ↔ nfa.Leads next starts id :=
  ⟨leads_of_mem_walk,
    mem_walk_of_leads fun id member => states id (leads_of_mem_walk member)⟩

end PatternAutomata.Nfa
