import PatternAutomata.Proofs.Dfa.Representation
import PatternAutomata.Proofs.MissingState
import PatternAutomata.Proofs.Text.Reading

/-!
# Projections can be read back

A projection is about a graph: states with an identity and a flag, and labelled
edges between them.  Identities are written with digits and commas, so the
first at sign ends them.  A label that is a character is followed by an at sign
at once, and this tells it from the text of the empty label, whatever the
character is.  Hence names and entries can be read back, different states have
different names, and no state is lost when they are collected by name.
-/

namespace PatternAutomata.Projection

/-- What the name of a state tells. -/
structure Node where
  /-- The number of the state, or its members. -/
  identity : List Nat
  /-- The state is accepting. -/
  isFinal : Bool
deriving DecidableEq, Repr

/-- What the entry of a transition tells. -/
structure Arrow where
  /-- What the transition reads. -/
  label : Label
  /-- The state that the transition leads to. -/
  target : Node
deriving DecidableEq, Repr

/-! ## Reading names and entries -/

/-- The numbers before the first at sign, and what follows it. -/
def readIdentity (text : List Char) : List Nat × List Char :=
  (Text.readNumbers ',' (text.takeWhile (· != '@')),
    (text.dropWhile (· != '@')).drop 1)

/-- A flag that is a whole text. -/
def readFlag (text : List Char) : Option Bool :=
  [true, false].find? fun flag => (toString flag).toList = text

/-- The label before an at sign, and what follows the sign. -/
def readLabel : List Char → Option (Label × List Char)
  | character :: '@' :: rest => some (.char character, rest)
  | text => do
      let rest ← Text.readText "epsilon@" text
      return (.epsilon, rest)

/-- What the name of a state tells. -/
def readName (name : String) : Option Node := do
  let (identity, rest) := readIdentity name.toList
  let isFinal ← readFlag rest
  return ⟨identity, isFinal⟩

/-- What the entry of a transition tells. -/
def readEntry (entry : String) : Option Arrow := do
  let (identity, rest) := readIdentity entry.toList
  let (label, rest) ← readLabel rest
  let isFinal ← readFlag rest
  return ⟨label, identity, isFinal⟩

theorem toList_comma : ",".toList = [','] := by simp

theorem readIdentity_append (identity : List Nat) (rest : List Char) :
    readIdentity ((Text.numbers "," identity).toList ++ '@' :: rest) =
      (identity, rest) := by
  have before : ∀ character ∈ (Text.numbers "," identity).toList,
      (character != '@') = true := by
    intro character member
    rcases Text.mem_toList_numbers toList_comma member with digit | rfl
    · apply bne_iff_ne.2
      rintro rfl
      exact absurd digit (by decide)
    · decide
  have read : Text.readNumbers ',' (Text.numbers "," identity).toList =
      identity :=
    Text.readNumbers_numbers toList_comma (by decide) identity
  have ended : ∀ character ∈ ('@' :: rest).head?,
      (character != '@') = false := by
    simp
  rcases Text.takeWhile_dropWhile_append before ended with ⟨taken, dropped⟩
  rw [readIdentity, taken, dropped, read]
  rfl

theorem readFlag_toString (flag : Bool) :
    readFlag (toString flag).toList = some flag := by
  cases flag <;> decide

theorem readLabel_text (label : Label) (rest : List Char) :
    readLabel (label.text.toList ++ '@' :: rest) = some (label, rest) := by
  cases label with
  | epsilon => simp [Label.text, readLabel, Text.readText, List.dropPrefix?]
  | char character => simp [Label.text, readLabel]

theorem readName_stateName (node : Node) :
    readName (stateName (Text.numbers "," node.identity) node.isFinal) =
      some node := by
  simp [readName, stateName, readIdentity_append, readFlag_toString]

theorem readEntry_entry (label : Label) (target : Node) :
    readEntry (entry (Text.numbers "," target.identity) label.text
      target.isFinal) = some ⟨label, target⟩ := by
  simp [readEntry, entry, readIdentity_append, readLabel_text,
    readFlag_toString]

/-! ## Projections of graphs -/

/-- What a projection is about. -/
structure Graph where
  /-- The number belongs to a state. -/
  IsState : Nat → Prop
  /-- What names a state. -/
  identity : Nat → List Nat
  /-- A state is accepting. -/
  isFinal : Nat → Bool
  /-- An edge with a label leads from one state to another. -/
  Leads : Nat → Label → Nat → Prop

namespace Graph

/-- What the name of a state is to tell. -/
def node (graph : Graph) (id : Nat) : Node :=
  ⟨graph.identity id, graph.isFinal id⟩

/-- A name gives the identity of a state. -/
def Names (graph : Graph) (name : String) (id : Nat) : Prop :=
  (readName name).map Node.identity = some (graph.identity id)

/-- All edges from a state, by label and then by target. -/
structure Lists (graph : Graph) (source : Nat)
    (edges : List (Label × Nat)) : Prop where
  /-- The edges from the state are listed, and no others. -/
  mem_iff : ∀ label target,
    (label, target) ∈ edges ↔ graph.Leads source label target
  /-- They are ordered by label, then ascending. -/
  ordered : edges.Pairwise fun first second =>
    first.1.rank < second.1.rank ∨
      first.1 = second.1 ∧ first.2 < second.2

end Graph

/-- A projection shows all of a graph and nothing else. -/
structure IsFaithful (projection : Projection) (graph : Graph) : Prop where
  /-- Every name is that of one state. -/
  existsUnique_state : ∀ name ∈ projection,
    ∃! id, graph.IsState id ∧ graph.Names name id
  /-- Every state has one name. -/
  existsUnique_name : ∀ id, graph.IsState id →
    ∃! name, name ∈ projection ∧ graph.Names name id
  /-- The name tells the state and its flag. -/
  readName_eq : ∀ name ∈ projection, ∀ id, graph.IsState id →
    graph.Names name id → readName name = some (graph.node id)
  /-- The entries tell the edges, in their order. -/
  readEntries_eq : ∀ name entries, projection[name]? = some entries →
    ∀ id, graph.IsState id → graph.Names name id →
      ∃ edges, graph.Lists id edges ∧
        entries.mapM readEntry =
          some (edges.map fun edge => ⟨edge.1, graph.node edge.2⟩)

/-! ### Rows -/

theorem ofRows_append_singleton (rows : List (String × List String))
    (row : String × List String) :
    ofRows (rows ++ [row]) = (ofRows rows).insert row.1 row.2 := by
  simp [ofRows]

theorem mem_ofRows_iff {rows : List (String × List String)} {name : String} :
    name ∈ ofRows rows ↔ ∃ row ∈ rows, row.1 = name := by
  induction rows using List.reverseRecOn with
  | nil => simp [ofRows]
  | append_singleton rows row collected =>
      simp only [ofRows_append_singleton, Std.ExtTreeMap.mem_insert,
        Std.LawfulEqCmp.compare_eq_iff_eq, collected, List.mem_append,
        List.mem_singleton, or_and_right, exists_or, exists_eq_left]
      exact or_comm

/-- If every name has one row, its entries are those of the row. -/
theorem getElem?_ofRows {rows : List (String × List String)}
    (functional : ∀ row ∈ rows, ∀ other ∈ rows, row.1 = other.1 → row = other)
    {row : String × List String} (member : row ∈ rows) :
    (ofRows rows)[row.1]? = some row.2 := by
  induction rows using List.reverseRecOn with
  | nil => simp at member
  | append_singleton rows last collected =>
      rw [ofRows_append_singleton, Std.ExtTreeMap.getElem?_insert]
      by_cases same : last.1 = row.1
      · have whole : last = row := functional last (by simp) row member same
        simp [whole]
      · have earlier : row ∈ rows := by
          rcases List.mem_append.1 member with earlier | here
          · exact earlier
          · exact absurd (List.mem_singleton.1 here ▸ rfl) same
        have kept := collected (fun first firstMember second secondMember =>
          functional first (by simp [firstMember]) second
            (by simp [secondMember])) earlier
        simpa [same] using kept

/-- The name and the entries of a state. -/
def Graph.row (graph : Graph) (edges : Nat → List (Label × Nat)) (id : Nat) :
    String × List String :=
  (stateName (Text.numbers "," (graph.identity id)) (graph.isFinal id),
    (edges id).map fun edge =>
      entry (Text.numbers "," (graph.identity edge.2)) edge.1.text
        (graph.isFinal edge.2))

namespace Graph

variable {graph : Graph} {edges : Nat → List (Label × Nat)} {id other : Nat}

theorem readName_row : readName (graph.row edges id).1 = some (graph.node id) :=
  readName_stateName (graph.node id)

theorem names_row_iff :
    graph.Names (graph.row edges id).1 other ↔
      graph.identity id = graph.identity other := by
  simp [Names, readName_row, node]

theorem readEntries_row :
    (graph.row edges id).2.mapM readEntry =
      some ((edges id).map fun edge => ⟨edge.1, graph.node edge.2⟩) := by
  rw [row, List.mapM_map]
  induction edges id with
  | nil => rfl
  | cons edge rest read =>
      have first := readEntry_entry edge.1 (graph.node edge.2)
      simp only [node] at first
      simp [first, node, read]

end Graph

/-- The projection with one row for each state of a graph is faithful. -/
theorem isFaithful_ofRows {graph : Graph} (edges : Nat → List (Label × Nat))
    {rows : List (String × List String)}
    (injective : ∀ first second, graph.IsState first → graph.IsState second →
      graph.identity first = graph.identity second → first = second)
    (lists : ∀ id, graph.IsState id → graph.Lists id (edges id))
    (mem_rows : ∀ row, row ∈ rows ↔
      ∃ id, graph.IsState id ∧ graph.row edges id = row) :
    (ofRows rows).IsFaithful graph := by
  have named : ∀ name, name ∈ ofRows rows ↔
      ∃ id, graph.IsState id ∧ (graph.row edges id).1 = name := by
    intro name
    simp only [mem_ofRows_iff, mem_rows]
    constructor
    · rintro ⟨row, ⟨id, isState, rfl⟩, same⟩
      exact ⟨id, isState, same⟩
    · rintro ⟨id, isState, same⟩
      exact ⟨_, ⟨id, isState, rfl⟩, same⟩
  -- A state is determined by its name, and so is its row.
  have determined : ∀ first second, graph.IsState first →
      graph.IsState second → graph.Names (graph.row edges first).1 second →
        first = second := fun first second isFirst isSecond names =>
    injective first second isFirst isSecond (Graph.names_row_iff.1 names)
  have functional : ∀ row ∈ rows, ∀ other ∈ rows,
      row.1 = other.1 → row = other := by
    intro row member other otherMember same
    rcases (mem_rows row).1 member with ⟨first, isFirst, rfl⟩
    rcases (mem_rows other).1 otherMember with ⟨second, isSecond, rfl⟩
    have names : graph.Names (graph.row edges first).1 second :=
      same ▸ Graph.names_row_iff.2 rfl
    rw [determined first second isFirst isSecond names]
  constructor
  case existsUnique_state =>
    intro name member
    rcases (named name).1 member with ⟨id, isState, rfl⟩
    exact ⟨id, ⟨isState, Graph.names_row_iff.2 rfl⟩,
      fun other ⟨isOther, names⟩ =>
        (determined id other isState isOther names).symm⟩
  case existsUnique_name =>
    intro id isState
    refine ⟨(graph.row edges id).1,
      ⟨(named _).2 ⟨id, isState, rfl⟩, Graph.names_row_iff.2 rfl⟩, ?_⟩
    rintro name ⟨member, names⟩
    rcases (named name).1 member with ⟨other, isOther, rfl⟩
    rw [determined other id isOther isState names]
  case readName_eq =>
    intro name member id isState names
    rcases (named name).1 member with ⟨other, isOther, rfl⟩
    rw [determined other id isOther isState names]
    exact Graph.readName_row
  case readEntries_eq =>
    intro name entries found id isState names
    have member : name ∈ ofRows rows :=
      Std.ExtTreeMap.mem_iff_isSome_getElem?.2 (by simp [found])
    rcases (named name).1 member with ⟨other, isOther, rfl⟩
    have same := determined other id isOther isState names
    subst same
    have row := getElem?_ofRows functional
      ((mem_rows _).2 ⟨other, isOther, rfl⟩)
    rw [row, Option.some.injEq] at found
    exact ⟨edges other, lists other isState, found ▸ Graph.readEntries_row⟩

end PatternAutomata.Projection

/-! ## Nondeterministic automata -/

namespace PatternAutomata.Nfa

variable {nfa : Nfa}

/-- The reachable states of an automaton, named by their numbers. -/
def graph (nfa : Nfa) : Projection.Graph where
  IsState id := nfa.Reachable id ∧ nfa.contains id = true
  identity id := [id]
  isFinal := nfa.isFinal
  Leads source label target := target ∈ nfa.targets source label

/-- The edges from a state, by label and then ascending. -/
def State.labelledEdges (state : State) : List (Label × StateId) :=
  state.edges.toList.flatMap fun entry =>
    entry.2.toList.map fun target => (entry.1, target)

theorem State.mem_labelledEdges_iff {state : State} {label : Label}
    {target : StateId} :
    (label, target) ∈ state.labelledEdges ↔ target ∈ state.targets label := by
  simp only [labelledEdges, targets, List.mem_flatMap, List.mem_map,
    Prod.mk.injEq, Prod.exists, Std.ExtTreeSet.mem_toList,
    Std.ExtTreeMap.mem_toList_iff_getElem?_eq_some]
  constructor
  · rintro ⟨read, targets, found, inside, member, rfl, rfl⟩
    simpa [found] using member
  · intro member
    cases found : state.edges[label]? with
    | none => simp [found] at member
    | some targets =>
        exact ⟨label, targets, found, target, by simpa [found] using member,
          rfl, rfl⟩

theorem State.pairwise_labelledEdges (state : State) :
    state.labelledEdges.Pairwise fun first second =>
      first.1.rank < second.1.rank ∨
        first.1 = second.1 ∧ first.2 < second.2 := by
  rw [labelledEdges, List.pairwise_flatMap]
  constructor
  · intro entry _
    rw [List.pairwise_map]
    exact (StateSet.pairwise_toList _).imp fun below => .inr ⟨rfl, below⟩
  · apply Std.ExtTreeMap.ordered_keys_toList.imp
    intro first second below edge member other otherMember
    rcases List.mem_map.1 member with ⟨target, -, rfl⟩
    rcases List.mem_map.1 otherMember with ⟨target, -, rfl⟩
    exact .inl (Nat.compare_eq_lt.1 below)

theorem projectionEntries_eq (nfa : Nfa) (state : State) :
    nfa.projectionEntries state = state.labelledEdges.map fun edge =>
      Projection.entry (Text.numbers "," [edge.2]) edge.1.text
        (nfa.isFinal edge.2) := by
  simp [projectionEntries, State.labelledEdges, List.map_flatMap,
    Function.comp_def, Text.numbers]

/-- The edges from a number, none for a number without state. -/
def labelledEdges (nfa : Nfa) (id : StateId) : List (Label × StateId) :=
  ((nfa.state? id).map State.labelledEdges).getD []

theorem lists_labelledEdges (nfa : Nfa) (id : StateId) :
    nfa.graph.Lists id (nfa.labelledEdges id) := by
  constructor
  · intro label target
    change _ ↔ target ∈ nfa.targets id label
    rw [labelledEdges, targets]
    cases nfa.state? id with
    | none => simp
    | some state => exact State.mem_labelledEdges_iff
  · rw [labelledEdges]
    cases nfa.state? id with
    | none => exact .nil
    | some state => exact state.pairwise_labelledEdges

theorem row_graph {id : StateId} {state : State}
    (found : nfa.state? id = some state) :
    nfa.graph.row nfa.labelledEdges id =
      (Projection.stateName (toString id) state.isFinal,
        nfa.projectionEntries state) := by
  simp [Projection.Graph.row, graph, labelledEdges, found, isFinal,
    projectionEntries_eq, Text.numbers]

/-- The walk visits the states that the projection is about. -/
theorem mem_breadthFirst_iff_isState
    (only : nfa.isEmpty = true ∨ nfa.ReachesOnlyStates) {id : StateId}
    (present : nfa.contains id = true) :
    id ∈ nfa.breadthFirst ↔ nfa.graph.IsState id := by
  rcases only with stateless | only
  · simp [contains, state?_eq_none_of_isEmpty stateless] at present
  · simp [mem_breadthFirst_iff only, graph, present]

/-- If only states can be reached, the projection shows all of them. -/
theorem isFaithful_projection
    (only : nfa.isEmpty = true ∨ nfa.ReachesOnlyStates) :
    nfa.projection.IsFaithful nfa.graph := by
  apply Projection.isFaithful_ofRows nfa.labelledEdges
  · intro first second _ _ same
    exact List.singleton_inj.1 same
  · intro id _
    exact nfa.lists_labelledEdges id
  · intro row
    simp only [List.mem_filterMap, Option.map_eq_some_iff]
    constructor
    · rintro ⟨id, visited, state, found, rfl⟩
      have present : nfa.contains id = true := by simp [contains, found]
      exact ⟨id, (mem_breadthFirst_iff_isState only present).1 visited,
        row_graph found⟩
    · rintro ⟨id, isState, rfl⟩
      rcases Option.isSome_iff_exists.1 isState.2 with ⟨state, found⟩
      exact ⟨id, (mem_breadthFirst_iff_isState only isState.2).2 isState,
        state, found, (row_graph found).symm⟩

theorem Checked.projection_eq_ok_of_no_missing
    (only : nfa.isEmpty = true ∨ nfa.ReachesOnlyStates) :
    projection nfa = .ok nfa.projection := by
  rcases only with stateless | only
  · rw [projection_eq, breadthFirst_of_isEmpty stateless]
    rfl
  · exact projection_eq_ok only

end PatternAutomata.Nfa

/-! ## Deterministic automata -/

namespace PatternAutomata.Dfa

variable {dfa : Dfa}

/-- The states of an automaton, named by their members. -/
def graph (dfa : Dfa) : Projection.Graph where
  IsState id := id < dfa.size
  identity id := (dfa.members id).toList
  isFinal := dfa.isFinal
  Leads source label target := ∃ character,
    label = .char character ∧ dfa.target? source character = some target

/-- The transitions from a state as labelled edges. -/
def labelledEdges (dfa : Dfa) (id : Nat) : List (Label × Nat) :=
  (dfa.row id).map fun transition => (.char transition.1, transition.2)

theorem lists_labelledEdges (dfa : Dfa) (id : Nat) :
    dfa.graph.Lists id (dfa.labelledEdges id) := by
  constructor
  · intro label target
    simp only [labelledEdges, List.mem_map, Prod.exists, mem_row_iff,
      Prod.mk.injEq, graph]
    constructor
    · rintro ⟨character, reached, edge, rfl, rfl⟩
      exact ⟨character, rfl, edge⟩
    · rintro ⟨character, rfl, edge⟩
      exact ⟨character, target, edge, rfl, rfl⟩
  · rw [labelledEdges, List.pairwise_map]
    exact (dfa.pairwise_row id).imp fun below =>
      .inl (Nat.succ_lt_succ below)

theorem row_graph {id : Nat} {state : State}
    (consistent : dfa.IsConsistent) (found : dfa.states[id]? = some state) :
    dfa.graph.row dfa.labelledEdges id =
      (Projection.stateName state.members.text state.isFinal,
        dfa.projectionEntries state.id) := by
  simp [Projection.Graph.row, graph, labelledEdges, projectionEntries, row,
    members_of_states found, isFinal, found, consistent.id_eq found,
    StateSet.text, Label.text, Function.comp_def]

/-- If the tables agree, the projection shows all states. -/
theorem IsConsistent.isFaithful_projection (consistent : dfa.IsConsistent) :
    dfa.projection.IsFaithful dfa.graph := by
  apply Projection.isFaithful_ofRows dfa.labelledEdges
  · intro first second firstInside secondInside same
    exact consistent.eq_of_members_eq firstInside secondInside
      (Std.ExtTreeSet.toList_inj.1 same)
  · intro id _
    exact dfa.lists_labelledEdges id
  · intro row
    simp only [List.mem_map, Array.mem_toList_iff, Array.mem_iff_getElem?]
    constructor
    · rintro ⟨state, ⟨id, found⟩, rfl⟩
      exact ⟨id, lt_size_iff.2 ⟨state, found⟩, row_graph consistent found⟩
    · rintro ⟨id, inside, rfl⟩
      rcases lt_size_iff.1 inside with ⟨state, found⟩
      exact ⟨state, ⟨id, found⟩, (row_graph consistent found).symm⟩

end PatternAutomata.Dfa

namespace PatternAutomata.Projection

/-- Projections tell all of an automaton: names and entries can be read back,
names are those of the states, one for each, and entries those of the edges.
An automaton that is asked for its projection has one unless a missing state
can be reached. -/
theorem projections_isFaithful :
    (∀ nfa : Nfa, nfa.isEmpty = true ∨ nfa.ReachesOnlyStates →
      ∃ projection, Nfa.Checked.projection nfa = .ok projection ∧
        projection.IsFaithful nfa.graph) ∧
    ∀ dfa : Dfa, dfa.Constructed → dfa.projection.IsFaithful dfa.graph := by
  constructor
  · intro nfa only
    exact ⟨nfa.projection, Nfa.Checked.projection_eq_ok_of_no_missing only,
      Nfa.isFaithful_projection only⟩
  · intro dfa constructed
    exact constructed.isCoherent.consistent.isFaithful_projection

/-- Labels that are parts of names and of entries themselves. -/
def separators : Nfa :=
  ((((Nfa.empty.addState 0).addState 0).addState 0).addEdges
    [⟨0, .epsilon, 1⟩, ⟨0, .char 'e', 1⟩, ⟨0, .char '@', 2⟩,
      ⟨0, .char '@', 1⟩, ⟨1, .char ',', 0⟩, ⟨1, .char '2', 2⟩,
      ⟨2, .epsilon, 0⟩]).markTerminals

theorem projections_isFaithful_separators :
    separators.ReachesOnlyStates ∧
      Nfa.Checked.projection separators = .ok separators.projection ∧
      separators.projection.IsFaithful separators.graph ∧
      separators.projection["0@true"]? =
        some ["1@epsilon@false", "1@@@false", "2@@@false", "1@e@false"] ∧
      (Dfa.ofNfa separators).Constructed ∧
      (Dfa.ofNfa separators).projection.IsFaithful
        (Dfa.ofNfa separators).graph ∧
      (Dfa.ofNfa separators).projection["0,1,2@true"]? =
        some ["0,1@,@true", "0,1,2@2@true", "0,1,2@@@true", "1@e@false"] := by
  have only : separators.ReachesOnlyStates := by
    apply (Nfa.reachesOnlyStates_iff (by decide +kernel)).2
    decide +kernel
  have built : separators.Built :=
    (Nfa.Built.addEdges (((Nfa.Built.empty.addState 0).addState 0).addState 0)
      _).markTerminals
  have constructed : (Dfa.ofNfa separators).Constructed :=
    .ofNfa built (.inr only)
  rcases projections_isFaithful.1 separators (.inr only) with
    ⟨projection, found, faithful⟩
  have same : Nfa.Checked.projection separators =
      .ok separators.projection := by decide +kernel
  obtain rfl : projection = separators.projection :=
    Except.ok.inj (found.symm.trans same)
  refine ⟨only, same, faithful, ?_, constructed,
    projections_isFaithful.2 _ constructed, ?_⟩
  · decide +kernel
  · decide +kernel

end PatternAutomata.Projection
