import PatternAutomata.Proofs.Nfa.Checked

/-!
# Which missing state is refused

A breadth first search meets the start state, then the targets of its edges,
then those of the edges of the states met next, and so on.  The alphabet looks
a number up when the walk visits it, the projection already when the entry of
an edge to it is written.  Both come upon the same missing state, the first
that the search meets, because no number is visited or written before one that
has been met earlier.
-/

namespace PatternAutomata.Nfa

variable {nfa : Nfa}

/-- The targets of all edges from a number, by label and then ascending. -/
def successors (nfa : Nfa) (id : StateId) : List StateId :=
  ((nfa.state? id).map State.successors).getD []

/-- The numbers that are looked up when every state is looked up and its
successors are looked up next. -/
def lookedUp (nfa : Nfa) (ids : List StateId) : List StateId :=
  ids.flatMap fun id => id :: nfa.successors id

theorem lookedUp_cons (nfa : Nfa) (id : StateId) (ids : List StateId) :
    nfa.lookedUp (id :: ids) =
      id :: (nfa.successors id ++ nfa.lookedUp ids) :=
  rfl

/-- The numbers that a breadth first search has met, in order, after it has
gone through the edges of a number of them. -/
def met (nfa : Nfa) : Nat → List StateId
  | 0 => [nfa.start]
  | rounds + 1 =>
      let before := nfa.met rounds
      match before[rounds]? with
      | none => before
      | some id =>
          before ++ ((nfa.successors id).filter (· ∉ before)).eraseDups

/-- The first number that a breadth first search meets and that is no
state. -/
def IsFirstMissing (nfa : Nfa) (id : StateId) : Prop :=
  ∃ rounds, (nfa.met rounds).find? (fun met => !nfa.contains met) = some id

/-! ## Meeting numbers -/

theorem met_prefix (nfa : Nfa) (rounds more : Nat) :
    nfa.met rounds <+: nfa.met (rounds + more) := by
  induction more with
  | zero => exact List.prefix_rfl
  | succ more earlier =>
      refine earlier.trans ?_
      rw [← Nat.add_assoc, met]
      split
      · exact List.prefix_rfl
      · exact List.prefix_append _ _

theorem IsFirstMissing.unique {first second : StateId}
    (firstMissing : nfa.IsFirstMissing first)
    (secondMissing : nfa.IsFirstMissing second) : first = second := by
  rcases firstMissing with ⟨rounds, firstFound⟩
  rcases secondMissing with ⟨others, secondFound⟩
  have firstStill := (nfa.met_prefix rounds others).find?_eq_some firstFound
  have secondStill := (nfa.met_prefix others rounds).find?_eq_some secondFound
  rw [Nat.add_comm, firstStill] at secondStill
  exact Option.some.inj secondStill

theorem find?_missing_eq_none_iff {ids : List StateId} :
    ids.find? (fun id => !nfa.contains id) = none ↔
      ∀ id ∈ ids, nfa.contains id = true := by
  simp

theorem find?_eraseDups (test : StateId → Bool) :
    (candidates : List StateId) →
      candidates.eraseDups.find? test = candidates.find? test
  | [] => rfl
  | head :: tail => by
      rw [List.eraseDups_cons, List.find?_cons, List.find?_cons]
      split
      · rfl
      · next fails =>
          rw [find?_eraseDups test (tail.filter _), List.find?_filter]
          congr
          funext id
          by_cases same : id = head
          · simp [same, fails]
          · simp [same]
termination_by candidates => candidates.length
decreasing_by exact Nat.lt_succ_of_le (List.length_filter_le _ _)

theorem newAmong_eq {seen : StateSet} (before : List StateId)
    (mem_seen : ∀ id, id ∈ seen ↔ id ∈ before) (candidates : List StateId) :
    newAmong seen candidates =
      (candidates.filter (· ∉ before)).eraseDups := by
  simp only [newAmong, mem_seen]

/-- Numbers that are no state are new as long as only states have been
seen. -/
theorem find?_newAmong {seen : StateSet}
    (states : ∀ id ∈ seen, nfa.contains id = true)
    (candidates : List StateId) :
    (newAmong seen candidates).find? (fun id => !nfa.contains id) =
      candidates.find? fun id => !nfa.contains id := by
  rw [newAmong, find?_eraseDups, List.find?_filter]
  congr
  funext id
  by_cases old : id ∈ seen
  · simp [old, states id old]
  · simp [old]

namespace Walking

variable {visited waiting : List StateId} {seen : StateSet} {id : StateId}

/-- The numbers that have been met are those visited and those waiting. -/
theorem visit_eq_met {state : State}
    (walking : Walking nfa State.successors visited seen (id :: waiting))
    (order : visited ++ id :: waiting = nfa.met visited.length)
    (found : nfa.state? id = some state) :
    (visited ++ [id]) ++ (waiting ++ newAmong seen state.successors) =
      nfa.met (visited ++ [id]).length := by
  have here : (nfa.met visited.length)[visited.length]? = some id := by
    rw [← order]
    simp
  have successors : nfa.successors id = state.successors := by
    rw [Nfa.successors, found]
    rfl
  have new := newAmong_eq (nfa.met visited.length)
    (fun other => by rw [walking.mem_seen, ← order, List.mem_append])
    state.successors
  rw [List.length_append, List.length_singleton, met, here]
  dsimp only
  rw [successors, ← new, ← order]
  simp

/-- The first number that a walk visits and that is no state is the first that
is met. -/
theorem isFirstMissing_of_visited {rounds : Nat} {missing : StateId}
    (walking : Walking nfa State.successors visited seen waiting)
    (order : visited ++ waiting = nfa.met visited.length)
    (refused : (nfa.walkFrom .queue State.successors rounds seen
      waiting).find? (fun id => !nfa.contains id) = some missing) :
    nfa.IsFirstMissing missing := by
  induction rounds generalizing visited seen waiting with
  | zero => cases refused
  | succ rounds isFirst =>
      cases waiting with
      | nil => cases refused
      | cons id waiting =>
          cases found : nfa.state? id with
          | none =>
              have absent : nfa.contains id = false := by
                rw [Nfa.contains, found]
                rfl
              simp only [walkFrom, found, List.find?_cons, absent,
                Bool.not_false, Option.some.injEq] at refused
              subst refused
              refine ⟨visited.length, ?_⟩
              rw [← order, List.find?_append,
                find?_missing_eq_none_iff.2 walking.contains, List.find?_cons,
                absent]
              rfl
          | some state =>
              have present : nfa.contains id = true := by
                rw [Nfa.contains, found]
                rfl
              simp only [walkFrom, found, List.find?_cons, present,
                Bool.not_true] at refused
              exact isFirst (walking.visit .queue found)
                (walking.visit_eq_met order found) refused

/-- The first number that is no state is the first that is met, also when the
edges of a state are looked through as soon as it is visited. -/
theorem isFirstMissing_of_lookedUp {rounds : Nat} {missing : StateId}
    (walking : Walking nfa State.successors visited seen waiting)
    (order : visited ++ waiting = nfa.met visited.length)
    (states : ∀ id ∈ waiting, nfa.contains id = true)
    (refused : (nfa.lookedUp (nfa.walkFrom .queue State.successors rounds seen
      waiting)).find? (fun id => !nfa.contains id) = some missing) :
    nfa.IsFirstMissing missing := by
  induction rounds generalizing visited seen waiting with
  | zero => cases refused
  | succ rounds isFirst =>
      cases waiting with
      | nil => cases refused
      | cons id waiting =>
          rcases List.forall_mem_cons.1 states with ⟨present, others⟩
          rcases Option.isSome_iff_exists.1 present with ⟨state, found⟩
          have successors : nfa.successors id = state.successors := by
            rw [Nfa.successors, found]
            rfl
          have seenStates : ∀ other ∈ seen, nfa.contains other = true := by
            intro other member
            rcases (walking.mem_seen other).1 member with old | new
            · exact walking.contains other old
            · exact states other new
          have visit := walking.visit .queue found
          have newOrder := walking.visit_eq_met order found
          simp only [walkFrom, found, lookedUp_cons, List.find?_cons, present,
            Bool.not_true, List.find?_append, successors] at refused
          have new := find?_newAmong seenStates state.successors
          cases first : state.successors.find? (fun id => !nfa.contains id) with
          | some absent =>
              rw [first] at refused new
              cases refused
              refine ⟨(visited ++ [id]).length, ?_⟩
              rw [← newOrder, List.find?_append,
                find?_missing_eq_none_iff.2 visit.contains, Option.none_or,
                List.find?_append, find?_missing_eq_none_iff.2 others,
                Option.none_or, new]
          | none =>
              rw [first] at refused new
              refine isFirst visit newOrder ?_ refused
              exact List.forall_mem_append.2
                ⟨others, find?_missing_eq_none_iff.1 new⟩

end Walking

theorem walk_start (nfa : Nfa) :
    nfa.walk .queue State.successors [nfa.start] =
      nfa.walkFrom .queue State.successors (nfa.size + 1)
        (Std.ExtTreeSet.ofList [nfa.start]) [nfa.start] :=
  rfl

theorem walking_start (nfa : Nfa) :
    Walking nfa State.successors [] (Std.ExtTreeSet.ofList [nfa.start])
      [nfa.start] :=
  @Walking.start nfa .queue _ [nfa.start]

theorem isFirstMissing_of_breadthFirst {missing : StateId}
    (refused : nfa.breadthFirst.find? (fun id => !nfa.contains id) =
      some missing) : nfa.IsFirstMissing missing := by
  rw [breadthFirst] at refused
  split at refused
  · cases refused
  · exact nfa.walking_start.isFirstMissing_of_visited rfl refused

theorem isFirstMissing_of_lookedUp {missing : StateId}
    (refused : (nfa.lookedUp nfa.breadthFirst).find?
      (fun id => !nfa.contains id) = some missing) :
    nfa.IsFirstMissing missing := by
  rw [breadthFirst] at refused
  split at refused
  · cases refused
  · rw [walk_start] at refused
    cases present : nfa.contains nfa.start with
    | false =>
        have found : nfa.state? nfa.start = none := by
          simpa [Nfa.contains] using present
        rw [walkFrom, found, lookedUp, List.flatMap_singleton, List.find?_cons,
          present] at refused
        refine ⟨0, ?_⟩
        rw [met, List.find?_cons, present]
        exact refused
    | true =>
        refine nfa.walking_start.isFirstMissing_of_lookedUp rfl ?_ refused
        intro id member
        rw [List.mem_singleton.1 member]
        exact present

/-! ## Looking up in order -/

namespace Checked

theorem require_cons (nfa : Nfa) (id : StateId) (ids : List StateId) :
    require nfa (id :: ids) =
      (state nfa id).bind fun _ => require nfa ids := by
  rw [require, state, List.find?_cons, Nfa.contains]
  cases nfa.state? id with
  | none => rfl
  | some found => rfl

theorem require_append (nfa : Nfa) (front back : List StateId) :
    require nfa (front ++ back) =
      (require nfa front).bind fun _ => require nfa back := by
  induction front with
  | nil => rfl
  | cons id front appended =>
      rw [List.cons_append, require_cons, require_cons, appended]
      cases state nfa id <;> rfl

theorem require_eq_ok_iff {ids : List StateId} :
    require nfa ids = .ok () ↔ ∀ id ∈ ids, nfa.contains id = true := by
  rw [← find?_missing_eq_none_iff, require]
  cases ids.find? fun id => !nfa.contains id with
  | none => simp
  | some id => simp

theorem require_eq_error_iff {ids : List StateId} {missing : MissingState} :
    require nfa ids = .error missing ↔
      ∃ id, ids.find? (fun id => !nfa.contains id) = some id ∧
        missing = ⟨id, nfa.firstId, nfa.size⟩ := by
  rw [require]
  cases ids.find? fun id => !nfa.contains id with
  | none => simp
  | some id => simp [eq_comm]

/-- The alphabet looks up what the walk visits. -/
theorem alphabet_eq (nfa : Nfa) :
    alphabet nfa =
      (require nfa nfa.breadthFirst).map fun _ => nfa.alphabet := by
  rw [alphabet, Nfa.alphabet]
  generalize [] = met
  induction nfa.breadthFirst generalizing met with
  | nil => rfl
  | cons id ids looksUp =>
      rw [List.foldlM_cons, List.foldl_cons, require_cons, state,
        Nfa.characters]
      cases nfa.state? id with
      | none => rfl
      | some found => exact looksUp _

theorem alphabet_eq_ok (only : nfa.ReachesOnlyStates) :
    alphabet nfa = .ok nfa.alphabet := by
  rw [alphabet_eq, require_eq_ok fun id member =>
    only id ((mem_breadthFirst_iff only).1 member)]
  rfl

/-- The entries of edges look up their targets. -/
theorem mapM_entry_eq (nfa : Nfa) (edges : List (Label × StateId)) :
    (edges.mapM fun (label, target) => do
        let found ← state nfa target
        return Projection.entry (toString target) label.text found.isFinal) =
      (require nfa (edges.map Prod.snd)).map fun _ =>
        edges.map fun (label, target) =>
          Projection.entry (toString target) label.text
            (nfa.isFinal target) := by
  induction edges with
  | nil => rfl
  | cons edge edges looksUp =>
      rcases edge with ⟨label, target⟩
      rw [List.mapM_cons, looksUp, List.map_cons, List.map_cons, require_cons]
      dsimp only
      rw [state, Nfa.isFinal]
      cases nfa.state? target with
      | none => rfl
      | some found => cases require nfa (edges.map Prod.snd) <;> rfl

theorem projectionEntries_eq (nfa : Nfa) (source : State) :
    projectionEntries nfa source =
      (require nfa source.successors).map fun _ =>
        nfa.projectionEntries source := by
  rw [projectionEntries, mapM_entry_eq]
  refine congr (congrArg Except.map (funext fun _ => ?entries))
    (congrArg (require nfa) ?targets)
  case entries =>
    simp [List.map_flatMap, Nfa.projectionEntries, Function.comp_def]
  case targets =>
    simp [List.map_flatMap, State.successors, Function.comp_def]

/-- The projection looks up what the walk visits, and the successors of each
state before the next one. -/
theorem projection_eq (nfa : Nfa) :
    projection nfa =
      (require nfa (nfa.lookedUp nfa.breadthFirst)).map fun _ =>
        nfa.projection := by
  have looksUp (ids : List StateId) : ids.mapM (projectionRow nfa) =
      (require nfa (nfa.lookedUp ids)).map fun _ => ids.filterMap fun id =>
        (nfa.state? id).map fun found =>
          (Projection.stateName (toString id) found.isFinal,
            nfa.projectionEntries found) := by
    induction ids with
    | nil => rfl
    | cons id ids looksUp =>
        rw [List.mapM_cons, looksUp, List.filterMap_cons, lookedUp_cons,
          require_cons, require_append, projectionRow, state, Nfa.successors]
        cases nfa.state? id with
        | none => rfl
        | some found =>
            dsimp only [Option.map_some, Option.getD_some, bind, Except.bind]
            rw [projectionEntries_eq]
            cases require nfa found.successors with
            | error missing => rfl
            | ok => cases require nfa (nfa.lookedUp ids) <;> rfl
  rw [projection, looksUp, Nfa.projection]
  cases require nfa (nfa.lookedUp nfa.breadthFirst) <;> rfl

end Checked

end PatternAutomata.Nfa
