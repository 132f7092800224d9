import PatternAutomata.Proofs.Nfa.Discovery

/-!
# Closures

A search for a closure keeps the numbers that it has found and a stack of those
whose empty edges have not been followed.  Every round follows the edges of
another state, so the search comes to an end.  It ends at a number that is no
state if empty edges lead to one; otherwise it has found exactly the numbers
that empty edges lead to.
-/

namespace PatternAutomata.Nfa

variable {nfa : Nfa}

/-- Empty edges lead from one of the listed numbers to a number. -/
def ReachesSilently (nfa : Nfa) (starts : List StateId) (id : StateId) :
    Prop :=
  ∃ start ∈ starts, nfa.Path start [] id

/-! ## The search -/

/-- A search for a closure under way. -/
structure Search where
  /-- The numbers that have been found. -/
  found : StateSet
  /-- The numbers whose edges have not been followed, the last one found
  first. -/
  waiting : List StateId

namespace Search

/-- Find a number.  It waits if it has not been found before. -/
def find (search : Search) (id : StateId) : Search :=
  if id ∈ search.found then search
  else ⟨search.found.insert id, id :: search.waiting⟩

/-- The listed numbers have been found. -/
def start (starts : List StateId) : Search := starts.foldl find ⟨∅, []⟩

/-- The search ends with a result after it has followed the edges of the given
number of states. -/
inductive EndsIn (nfa : Nfa) :
    Nat → Search → Except MissingState StateSet → Prop
  | complete (found : StateSet) : EndsIn nfa 0 ⟨found, []⟩ (.ok found)
  | missing {found : StateSet} {id : StateId} {waiting : List StateId} :
      nfa.state? id = none →
      EndsIn nfa 0 ⟨found, id :: waiting⟩ (.error ⟨id, nfa.firstId, nfa.size⟩)
  | follow {rounds : Nat} {found : StateSet} {id : StateId}
      {waiting : List StateId} {state : State}
      {result : Except MissingState StateSet} :
      nfa.state? id = some state →
      EndsIn nfa rounds
        ((state.targets .epsilon).toList.foldl find ⟨found, waiting⟩) result →
      EndsIn nfa (rounds + 1) ⟨found, id :: waiting⟩ result

/-- A search has one end. -/
theorem EndsIn.unique {rounds others : Nat} {search : Search}
    {result other : Except MissingState StateSet}
    (ends : EndsIn nfa rounds search result)
    (otherEnds : EndsIn nfa others search other) :
    others = rounds ∧ other = result := by
  induction ends generalizing others with
  | complete =>
      cases otherEnds
      exact ⟨rfl, rfl⟩
  | missing absent =>
      cases otherEnds with
      | missing => exact ⟨rfl, rfl⟩
      | follow known => cases absent.symm.trans known
  | follow known _ same =>
      cases otherEnds with
      | missing absent => cases absent.symm.trans known
      | follow otherKnown otherEnds =>
          cases known.symm.trans otherKnown
          rcases same otherEnds with ⟨rfl, rfl⟩
          exact ⟨rfl, rfl⟩

theorem newAmong_cons_of_not_mem {seen : StateSet} {id : StateId}
    (new : id ∉ seen) (ids : List StateId) :
    newAmong seen (id :: ids) = id :: newAmong (seen.insert id) ids := by
  have unlike : ids.filter (fun other => ¬other ∈ seen.insert id) =
      (ids.filter fun other => ¬other ∈ seen).filter (!· == id) := by
    rw [List.filter_filter]
    apply List.filter_congr
    intro other _
    by_cases same : other = id
    · simp [same]
    · simp [same, Ne.symm same]
  simp only [newAmong, unlike, List.filter_cons, new, not_false_eq_true,
    decide_true, if_true, List.eraseDups_cons]

/-- Of several numbers, the new ones are found and wait. -/
theorem foldl_find (search : Search) (ids : List StateId) :
    ids.foldl find search =
      ⟨search.found.insertMany (newAmong search.found ids),
        Discipline.stack.arrange (newAmong search.found ids)
          search.waiting⟩ := by
  induction ids generalizing search with
  | nil => simp [newAmong, Discipline.arrange]
  | cons id ids finds =>
      rw [List.foldl_cons, finds, find]
      split
      · next old => simp [newAmong, old]
      · next new =>
          rw [newAmong_cons_of_not_mem new, Std.ExtTreeSet.insertMany_cons,
            Discipline.arrange, Discipline.arrange, List.reverse_cons,
            List.append_assoc]
          rfl

theorem start_eq (starts : List StateId) :
    start starts =
      ⟨Std.ExtTreeSet.ofList starts,
        Discipline.stack.arrange starts.eraseDups []⟩ := by
  have all : newAmong ∅ starts = starts.eraseDups := by simp [newAmong]
  rw [start, foldl_find, all]
  congr 1
  ext id
  simp

end Search

/-- Where a walk along empty edges has come, a search ends.  It follows the
edges of no more states than have not been visited. -/
theorem Walking.exists_endsIn {visited waiting : List StateId}
    {seen : StateSet}
    (walking : Walking nfa (fun state => (state.targets .epsilon).toList)
      visited seen waiting)
    (rounds : Nat) (enough : nfa.size < visited.length + rounds) :
    ∃ followed, visited.length + followed ≤ nfa.size ∧
      Search.EndsIn nfa followed ⟨seen, waiting⟩
        ((Checked.require nfa (nfa.walkFrom .stack
            (fun state => (state.targets .epsilon).toList) rounds seen
            waiting)).map fun _ =>
          Std.ExtTreeSet.ofList (visited ++ nfa.walkFrom .stack
            (fun state => (state.targets .epsilon).toList) rounds seen
            waiting)) := by
  induction rounds generalizing visited seen waiting with
  | zero =>
      have bounded := walking.length_visited_le
      omega
  | succ rounds ends =>
      cases waiting with
      | nil =>
          have same : Std.ExtTreeSet.ofList visited = seen := by
            ext id
            simp [walking.mem_seen]
          rw [walkFrom, List.append_nil, same]
          exact ⟨0, walking.length_visited_le, .complete seen⟩
      | cons id waiting =>
          cases known : nfa.state? id with
          | none =>
              refine ⟨0, walking.length_visited_le, ?_⟩
              simp only [walkFrom, known, Checked.require_cons, Checked.state]
              exact .missing known
          | some state =>
              have visit := walking.visit .stack known
              rcases ends visit (by simp; omega) with
                ⟨followed, bound, ended⟩
              refine ⟨followed + 1, by simp at bound; omega, .follow known ?_⟩
              rw [Search.foldl_find]
              simp only [walkFrom, known, Checked.require_cons, Checked.state]
              rw [List.append_assoc] at ended
              exact ended

/-- The search for a closure ends, and the closure is what it finds. -/
theorem exists_endsIn_closure (nfa : Nfa) (starts : List StateId) :
    ∃ followed ≤ nfa.size, ∀ rounds result,
      Search.EndsIn nfa rounds (Search.start starts) result ↔
        rounds = followed ∧ result = Checked.closure nfa starts := by
  have started : Walking nfa (fun state => (state.targets .epsilon).toList) []
      (Std.ExtTreeSet.ofList starts)
      (Discipline.stack.arrange starts.eraseDups []) := Walking.start starts
  rcases started.exists_endsIn (nfa.size + 1) (by simp) with
    ⟨followed, bound, ends⟩
  rw [Search.start_eq]
  refine ⟨followed, by simpa using bound, fun rounds result => ?_⟩
  constructor
  · exact ends.unique
  · rintro ⟨rfl, rfl⟩
    exact ends

/-! ## What is found -/

theorem reachesSilently_of_mem_emptyWalk {starts : List StateId}
    {id : StateId} (visited : id ∈ nfa.emptyWalk starts) :
    nfa.ReachesSilently starts id :=
  leads_empty_iff.1 (leads_of_mem_walk visited)

/-- The search is refused for a number that empty edges lead to. -/
theorem exists_missing_of_closure {starts : List StateId}
    {refused : MissingState}
    (closed : Checked.closure nfa starts = .error refused) :
    ∃ id, nfa.ReachesSilently starts id ∧ nfa.contains id = false ∧
      refused = ⟨id, nfa.firstId, nfa.size⟩ := by
  rw [Checked.closure] at closed
  cases required : Checked.require nfa (nfa.emptyWalk starts) with
  | ok =>
      rw [required] at closed
      cases closed
  | error missing =>
      rw [required] at closed
      cases closed
      rcases Checked.require_eq_error_iff.1 required with ⟨id, found, same⟩
      have absent := List.find?_some found
      rw [Bool.not_eq_true'] at absent
      exact ⟨id, reachesSilently_of_mem_emptyWalk
        (List.mem_of_find?_eq_some found), absent, same⟩

/-- A search that is not refused finds what empty edges lead to, and these are
states. -/
theorem mem_iff_of_closure {starts : List StateId} {closure : StateSet}
    (closed : Checked.closure nfa starts = .ok closure) :
    (∀ id, nfa.ReachesSilently starts id → nfa.contains id = true) ∧
      ∀ id, id ∈ closure ↔ nfa.ReachesSilently starts id := by
  rw [Checked.closure] at closed
  cases required : Checked.require nfa (nfa.emptyWalk starts) with
  | error missing =>
      rw [required] at closed
      cases closed
  | ok =>
      rw [required] at closed
      cases closed
      have states := Checked.require_eq_ok_iff.1 required
      have visited_iff (id : StateId) :
          id ∈ nfa.emptyWalk starts ↔ nfa.ReachesSilently starts id :=
        ⟨reachesSilently_of_mem_emptyWalk, fun reached =>
          mem_walk_of_leads states (leads_empty_iff.2 reached)⟩
      refine ⟨fun id reached => states id ((visited_iff id).2 reached), ?_⟩
      intro id
      rw [Nfa.closure, Std.ExtTreeSet.mem_ofList, List.contains_iff_mem,
        visited_iff]

/-- The search for a closure ends, and follows the edges of no more numbers
than there are states.  It is refused, for a number that empty edges lead to and
that is no state, if and only if there is such a number.  Otherwise it finds
exactly the numbers that empty edges lead to. -/
theorem closure_finds_exactly (nfa : Nfa) (starts : List StateId) :
    (∃ followed ≤ nfa.size, ∀ rounds result,
      Search.EndsIn nfa rounds (Search.start starts) result ↔
        rounds = followed ∧ result = Checked.closure nfa starts) ∧
      ((∃ refused, Checked.closure nfa starts = .error refused) ↔
        ∃ id, nfa.ReachesSilently starts id ∧ nfa.contains id = false) ∧
      (∀ refused, Checked.closure nfa starts = .error refused →
        ∃ id, nfa.ReachesSilently starts id ∧ nfa.contains id = false ∧
          refused = ⟨id, nfa.firstId, nfa.size⟩) ∧
      ∀ closure, Checked.closure nfa starts = .ok closure →
        ∀ id, id ∈ closure ↔ nfa.ReachesSilently starts id := by
  refine ⟨nfa.exists_endsIn_closure starts, ⟨?_, ?_⟩,
    fun _ => exists_missing_of_closure, fun _ closed =>
      (mem_iff_of_closure closed).2⟩
  · rintro ⟨refused, closed⟩
    rcases exists_missing_of_closure closed with ⟨id, reached, absent, -⟩
    exact ⟨id, reached, absent⟩
  · rintro ⟨id, reached, absent⟩
    cases closed : Checked.closure nfa starts with
    | error refused => exact ⟨refused, rfl⟩
    | ok closure =>
        have present := (mem_iff_of_closure closed).1 id reached
        cases absent.symm.trans present

/-- Three states in a cycle of empty edges, from which another one leads to a
number that is no state. -/
def leakingCycle : Nfa :=
  ((((Nfa.empty.addState 4).addState 0).addState 0).addState 0).addEdges
    [⟨4, .epsilon, 5⟩, ⟨5, .epsilon, 6⟩, ⟨6, .epsilon, 4⟩, ⟨6, .char 'a', 9⟩,
      ⟨7, .epsilon, 5⟩, ⟨7, .epsilon, 9⟩]

example : Checked.closure leakingCycle [6, 5, 6] =
    .ok (Std.ExtTreeSet.ofList [4, 5, 6]) := by
  decide +kernel

example : Checked.closure leakingCycle [5, 7, 5] = .error ⟨9, 4, 4⟩ := by
  decide +kernel

end PatternAutomata.Nfa
