import Mathlib.Data.List.Pairwise
import Mathlib.Logic.Relation
import PatternAutomata.Proofs.Nfa.Checked
import PatternAutomata.Proofs.Nfa.Shape

/-!
# Fragments in one automaton

All fragments of an assembly share its automaton.  Every operation takes the
fragments that it composes from those which are pending and leaves its own
fragment in their place.  It adds edges between the states of these fragments
and its new states only.  So the words of the other pending fragments stay the
same, and every pending fragment has the words of the expression that it was
made from, in whatever order the operations come.
-/

namespace PatternAutomata

/-! ## Assemblies -/

namespace Assembly

/-- The supply goes on where the numbers of the states end. -/
def IsOrderly (assembly : Assembly) : Prop :=
  assembly.nfa.nextId assembly.supply.next = assembly.supply.next

/-- The fragment that is about to be added. -/
def nextFragment (assembly : Assembly) : Fragment :=
  ⟨assembly.supply.next, assembly.supply.next + 1⟩

variable {assembly : Assembly}

theorem isOrderly_start (supply : IdSupply) :
    (Assembly.start supply).IsOrderly :=
  rfl

namespace IsOrderly

theorem lt_next (orderly : assembly.IsOrderly) {id : StateId}
    (contains : assembly.nfa.contains id = true) :
    id < assembly.supply.next :=
  orderly ▸ Nfa.lt_nextId contains assembly.supply.next

theorem addEdges (orderly : assembly.IsOrderly) (edges : List Edge) :
    (assembly.addEdges edges).IsOrderly :=
  (Nfa.nextId_addEdges edges _).trans orderly

theorem newState (orderly : assembly.IsOrderly) :
    assembly.newState.2.IsOrderly := by
  change (assembly.nfa.addState assembly.supply.next).nextId _ =
    assembly.supply.next + 1
  rw [Nfa.nextId_addState, orderly]

theorem contains_newState (orderly : assembly.IsOrderly) (id : StateId) :
    assembly.newState.2.nfa.contains id = true ↔
      assembly.nfa.contains id = true ∨ id = assembly.supply.next := by
  change (assembly.nfa.addState assembly.supply.next).contains id = true ↔ _
  rw [Nfa.contains_addState, orderly]

theorem compose (orderly : assembly.IsOrderly)
    (edges : Fragment → List Edge) :
    (assembly.compose edges).2.IsOrderly :=
  orderly.newState.newState.addEdges _

theorem contains_compose (orderly : assembly.IsOrderly)
    (edges : Fragment → List Edge) (id : StateId) :
    (assembly.compose edges).2.nfa.contains id = true ↔
      assembly.nfa.contains id = true ∨
        id = assembly.supply.next ∨ id = assembly.supply.next + 1 := by
  change (assembly.newState.2.newState.2.nfa.addEdges _).contains id = true ↔ _
  rw [Nfa.contains_addEdges, orderly.newState.contains_newState,
    orderly.contains_newState, or_assoc]
  rfl

/-- A composition adds a fragment between two new states, if its edges start
at states. -/
theorem isComposed (orderly : assembly.IsOrderly)
    (edges : Fragment → List Edge)
    (sources : ∀ edge ∈ edges assembly.nextFragment,
      assembly.nfa.contains edge.source = true ∨
        edge.source = assembly.supply.next ∨
          edge.source = assembly.supply.next + 1) :
    assembly.nextFragment.IsComposed assembly.nfa
      (edges assembly.nextFragment) (assembly.compose edges).2.nfa where
  start contains := Nat.lt_irrefl _ (orderly.lt_next contains)
  final contains :=
    Nat.lt_irrefl _ (Nat.lt_of_succ_lt (orderly.lt_next contains))
  distinct := (Nat.succ_ne_self _).symm
  contains := orderly.contains_compose edges
  grows source label target := by
    change target ∈ (assembly.newState.2.newState.2.nfa.addEdges
      (edges assembly.nextFragment)).targets source label ↔ _
    have bare : assembly.newState.2.newState.2.nfa.targets source label =
        assembly.nfa.targets source label :=
      (Nfa.targets_addState _ _ _).trans (Nfa.targets_addState _ _ _)
    rw [Nfa.mem_targets_addEdges, bare]
    refine or_congr_right (and_iff_left_of_imp fun new => ?_)
    rw [orderly.newState.contains_newState, orderly.contains_newState,
      or_assoc]
    exact sources _ new

/-- A composition whose edges start at states is not refused. -/
theorem checked_compose (orderly : assembly.IsOrderly)
    (edges : Fragment → List Edge)
    (sources : ∀ edge ∈ edges assembly.nextFragment,
      assembly.nfa.contains edge.source = true ∨
        edge.source = assembly.supply.next ∨
          edge.source = assembly.supply.next + 1) :
    Checked.compose edges assembly = .ok (assembly.compose edges) := by
  have connected : Checked.addEdges (edges assembly.nextFragment)
      assembly.newState.2.newState.2 = .ok (assembly.compose edges).2 := by
    apply Checked.addEdges_eq_ok
    intro edge added
    rw [orderly.newState.contains_newState, orderly.contains_newState,
      or_assoc]
    exact sources edge added
  change (Checked.addEdges (edges assembly.nextFragment)
    assembly.newState.2.newState.2).bind _ = _
  rw [connected]
  rfl

end IsOrderly

end Assembly

/-! ## Fragments with their states -/

/-- A fragment with the expression that it was made from and the states that
were added for it. -/
structure Piece where
  /-- What the fragment was made from. -/
  regex : Regex
  /-- Where the fragment is entered and left. -/
  fragment : Fragment
  /-- The states between them. -/
  states : Set StateId

namespace Piece

/-- The states of several fragments. -/
def statesOf (pieces : List Piece) : Set StateId :=
  {id | ∃ piece ∈ pieces, id ∈ piece.states}

theorem statesOf_nil : statesOf [] = ∅ := by
  simp [statesOf]

theorem statesOf_singleton (piece : Piece) :
    statesOf [piece] = piece.states := by
  simp [statesOf]

theorem statesOf_pair (left right : Piece) :
    statesOf [left, right] = left.states ∪ right.states := by
  ext id
  simp [statesOf]

/-- A fragment that is made of others has their states and its own terminals. -/
def ofOperands (operands : List Piece) (regex : Regex) (whole : Fragment) :
    Piece :=
  ⟨regex, whole, statesOf operands ∪ {whole.start, whole.final}⟩

/-- What holds of a fragment as long as it is pending. -/
structure Stands (piece : Piece) (nfa : Nfa) : Prop where
  /-- No edge leads out of the fragment. -/
  spans : piece.fragment.Spans nfa piece.states
  /-- The fragment has the words of its expression. -/
  language : piece.fragment.language nfa = piece.regex.language
  /-- No edge enters the start or leaves the final state. -/
  isSealed : piece.fragment.IsSealed nfa
  /-- Without empty classes every state is on a path through the fragment. -/
  isTrim : piece.regex.HasMembers → piece.fragment.IsTrim nfa piece.states

namespace Stands

variable {nfa grown : Nfa} {edges : List Edge} {piece left right body : Piece}
  {whole : Fragment}

/-- Edges between states of other fragments leave a fragment as it is. -/
theorem frame (stands : piece.Stands nfa) (grows : nfa.GrowsBy edges grown)
    (contains : ∀ id, nfa.contains id = true → grown.contains id = true)
    (elsewhere : ∀ edge ∈ edges,
      edge.source ∉ piece.states ∧ edge.target ∉ piece.states) :
    piece.Stands grown := by
  have same : ∀ id ∈ piece.states, ∀ label,
      grown.targets id label = nfa.targets id label := by
    intro id member
    apply grows.targets_eq
    rintro edge added rfl
    exact (elsewhere edge added).1 member
  refine ⟨stands.spans.transfer contains same, ?_, ?_, ?_⟩
  · rw [stands.spans.language_eq same, stands.language]
  · apply stands.isSealed.grow grows
    intro edge added
    constructor
    · exact fun equal =>
        (elsewhere edge added).1 (equal ▸ stands.spans.final_mem)
    · exact fun equal =>
        (elsewhere edge added).2 (equal ▸ stands.spans.start_mem)
  · exact fun hasMembers =>
      (stands.isTrim hasMembers).transfer stands.spans same

theorem characters {members : CharacterClass} {regex : Regex}
    (composed :
      whole.IsComposed nfa (Fragment.characterEdges members whole) grown)
    (fresh : ∀ source label, whole.start ∉ nfa.targets source label)
    (language : regex.language =
      {word | ∃ character ∈ members, word = [character]})
    (occupied : regex.HasMembers → members ≠ ∅) :
    (Piece.mk regex whole {whole.start, whole.final}).Stands grown where
  spans := Fragment.spans_characterEdges composed
  language := (Fragment.language_characterEdges composed).trans language.symm
  isSealed := composed.isSealed_of_characters fresh
  isTrim hasMembers :=
    Fragment.isTrim_characterEdges composed (occupied hasMembers)

theorem concatenate (leftStands : left.Stands nfa)
    (rightStands : right.Stands nfa)
    (disjoint : Disjoint left.states right.states)
    (grows : nfa.GrowsBy
      (Fragment.concatenationEdges left.fragment right.fragment) grown)
    (contains : ∀ id, nfa.contains id = true → grown.contains id = true) :
    (Piece.mk (.concatenation left.regex right.regex)
      ⟨left.fragment.start, right.fragment.final⟩
      (left.states ∪ right.states)).Stands grown where
  spans := leftStands.spans.concatenate rightStands.spans grows contains
  language := by
    rw [Fragment.language_concatenate leftStands.spans rightStands.spans
      disjoint grows, leftStands.language, rightStands.language]
    rfl
  isSealed := leftStands.isSealed.concatenate rightStands.isSealed
    leftStands.spans rightStands.spans disjoint grows
  isTrim := by
    rintro ⟨leftMembers, rightMembers⟩
    exact (leftStands.isTrim leftMembers).concatenate
      (rightStands.isTrim rightMembers) leftStands.isSealed leftStands.spans
      rightStands.spans grows

theorem alternate (leftStands : left.Stands nfa)
    (rightStands : right.Stands nfa)
    (disjoint : Disjoint left.states right.states)
    (composed : whole.IsComposed nfa
      (Fragment.alternationEdges left.fragment right.fragment whole) grown)
    (fresh : ∀ source label, whole.start ∉ nfa.targets source label) :
    (Piece.mk (.alternation left.regex right.regex) whole
      (left.states ∪ right.states ∪
        {whole.start, whole.final})).Stands grown where
  spans := leftStands.spans.alternate rightStands.spans composed
  language := by
    rw [Fragment.language_alternate leftStands.spans rightStands.spans
      disjoint composed, leftStands.language, rightStands.language]
    rfl
  isSealed := composed.isSealed_of_alternation leftStands.spans
    rightStands.spans fresh
  isTrim := by
    rintro ⟨leftMembers, rightMembers⟩
    exact (leftStands.isTrim leftMembers).alternate
      (rightStands.isTrim rightMembers) leftStands.isSealed
      rightStands.isSealed leftStands.spans rightStands.spans composed

theorem repeated {repetition : Repetition} (stands : body.Stands nfa)
    (composed : whole.IsComposed nfa
      (Fragment.repetitionEdges body.fragment whole repetition) grown)
    (fresh : ∀ source label, whole.start ∉ nfa.targets source label) :
    (Piece.mk (.repeated repetition body.regex) whole
      (body.states ∪ {whole.start, whole.final})).Stands grown where
  spans := stands.spans.repeat composed
  language := by
    rw [Fragment.language_repeat stands.spans composed, stands.language]
    rfl
  isSealed := composed.isSealed_of_repetition stands.spans fresh
  isTrim hasMembers :=
    (stands.isTrim hasMembers).repeat stands.isSealed stands.spans composed

end Stands

end Piece

/-! ## Operations on pending fragments -/

/-- An assembly with the fragments that no operation has taken yet. -/
structure Bench where
  /-- The automaton of all fragments, with its supply. -/
  assembly : Assembly
  /-- The fragments that are pending. -/
  pending : List Piece

namespace Bench

/-- Nothing has been put together. -/
def start (supply : IdSupply) : Bench := ⟨.start supply, []⟩

/-- The operations, with their operands, the expression of what they make and
their result. -/
inductive Makes (assembly : Assembly) :
    List Piece → Regex → Fragment × Assembly → Prop
  | literal (character : Char) :
      Makes assembly [] (.literal character) (assembly.literal character)
  | oneOf (members : CharacterClass) :
      Makes assembly [] (.oneOf members) (assembly.oneOf members)
  | concatenate (left right : Piece) :
      Makes assembly [left, right] (.concatenation left.regex right.regex)
        (assembly.concatenate left.fragment right.fragment)
  | alternate (left right : Piece) :
      Makes assembly [left, right] (.alternation left.regex right.regex)
        (assembly.alternate left.fragment right.fragment)
  | repeated (repetition : Repetition) (body : Piece) :
      Makes assembly [body] (.repeated repetition body.regex)
        (assembly.repeated repetition body.fragment)

/-- An operation takes pending fragments, wherever they are, and its own
fragment becomes pending. -/
inductive Step : Bench → Bench → Prop
  | make {assembly : Assembly} {pending rest : List Piece} {regex : Regex}
      {made : Fragment × Assembly} (operands : List Piece)
      (taken : pending.Perm (operands ++ rest))
      (makes : Makes assembly operands regex made) :
      Step ⟨assembly, pending⟩
        ⟨made.2, .ofOperands operands regex made.1 :: rest⟩

/-- The pending fragments are parts of the automaton that share nothing and
leave nothing out. -/
structure Holds (bench : Bench) : Prop where
  orderly : bench.assembly.IsOrderly
  stands : ∀ piece ∈ bench.pending, piece.Stands bench.assembly.nfa
  disjoint : bench.pending.Pairwise fun piece other =>
    Disjoint piece.states other.states
  covers : ∀ id, bench.assembly.nfa.contains id = true ↔
    id ∈ Piece.statesOf bench.pending

namespace Holds

variable {bench : Bench} {assembly grown : Assembly}
  {pending operands rest : List Piece} {edges : List Edge} {piece : Piece}

theorem perm (holds : Holds ⟨assembly, pending⟩)
    {other : List Piece} (perm : pending.Perm other) :
    Holds ⟨assembly, other⟩ where
  orderly := holds.orderly
  stands piece member := holds.stands piece (perm.mem_iff.2 member)
  disjoint := (perm.pairwise_iff (fun apart => apart.symm)).1 holds.disjoint
  covers id := by
    rw [holds.covers]
    exact exists_congr fun piece => and_congr_left' perm.mem_iff

/-- Edges lead to states of pending fragments. -/
theorem contains_of_mem_targets (holds : bench.Holds) {source target : StateId}
    {label : Label}
    (edge : target ∈ bench.assembly.nfa.targets source label) :
    bench.assembly.nfa.contains target = true := by
  rcases (holds.covers source).1 (Nfa.contains_of_mem_targets edge) with
    ⟨piece, member, inside⟩
  exact (holds.covers target).2 ⟨piece, member,
    (holds.stands piece member).spans.closed source inside label target edge⟩

/-- No edge leads to the states that are added next. -/
theorem fresh (holds : bench.Holds) (source : StateId) (label : Label) :
    bench.assembly.nextFragment.start ∉
      bench.assembly.nfa.targets source label := fun edge =>
  Nat.lt_irrefl _ (holds.orderly.lt_next (holds.contains_of_mem_targets edge))

/-- The states of the only pending fragment are all there are. -/
theorem contains_iff (holds : Holds ⟨assembly, [piece]⟩) (id : StateId) :
    assembly.nfa.contains id = true ↔ id ∈ piece.states := by
  rw [← Piece.statesOf_singleton]
  exact holds.covers id

theorem contains_of_operand (holds : Holds ⟨assembly, operands ++ rest⟩)
    {id : StateId} (member : id ∈ Piece.statesOf operands) :
    assembly.nfa.contains id = true := by
  rcases member with ⟨operand, taken, inside⟩
  exact (holds.covers id).2
    ⟨operand, List.mem_append_left rest taken, inside⟩

/-- A fragment of the states of operands and new ones has no states of the
other fragments. -/
theorem disjoint_of_adds (holds : Holds ⟨assembly, operands ++ rest⟩)
    (adds : ∀ id ∈ piece.states, id ∈ Piece.statesOf operands ∨
      ¬assembly.nfa.contains id = true) :
    ∀ other ∈ rest, Disjoint piece.states other.states := by
  rcases List.pairwise_append.1 holds.disjoint with ⟨-, -, apart⟩
  intro other member
  rw [Set.disjoint_left]
  intro id inside
  rcases adds id inside with ⟨operand, taken, inOperand⟩ | new
  · exact Set.disjoint_left.1 (apart operand taken other member) inOperand
  · intro inOther
    exact new ((holds.covers id).2
      ⟨other, List.mem_append_right operands member, inOther⟩)

/-- Operands may be replaced by a fragment of their states and new ones, if the
added edges start in it. -/
theorem replace (holds : Holds ⟨assembly, operands ++ rest⟩)
    (orderly : grown.IsOrderly)
    (grows : assembly.nfa.GrowsBy edges grown.nfa)
    (contains : ∀ id, grown.nfa.contains id = true ↔
      assembly.nfa.contains id = true ∨ id ∈ piece.states)
    (takes : Piece.statesOf operands ⊆ piece.states)
    (adds : ∀ id ∈ piece.states, id ∈ Piece.statesOf operands ∨
      ¬assembly.nfa.contains id = true)
    (sources : ∀ edge ∈ edges, edge.source ∈ piece.states)
    (stands : piece.Stands grown.nfa) :
    Holds ⟨grown, piece :: rest⟩ := by
  have separate := holds.disjoint_of_adds adds
  have restApart := (List.pairwise_append.1 holds.disjoint).2.1
  have inside : ∀ edge ∈ edges,
      edge.source ∈ piece.states ∧ edge.target ∈ piece.states := by
    rintro ⟨source, label, target⟩ added
    have starts := sources _ added
    exact ⟨starts, stands.spans.closed source starts label target
      ((grows source label target).2 (.inr added))⟩
  refine ⟨orderly, ?_, List.pairwise_cons.2 ⟨separate, restApart⟩, ?_⟩
  · intro other member
    rcases List.mem_cons.1 member with rfl | later
    · exact stands
    · refine (holds.stands other (List.mem_append_right _ later)).frame grows
        (fun id old => (contains id).2 (.inl old)) ?_
      intro edge added
      have outside := Set.disjoint_left.1 (separate other later)
      exact ⟨outside (inside edge added).1, outside (inside edge added).2⟩
  · intro id
    rw [contains, holds.covers]
    constructor
    · rintro (⟨other, member, within⟩ | within)
      · rcases List.mem_append.1 member with taken | later
        · exact ⟨piece, .head _, takes ⟨other, taken, within⟩⟩
        · exact ⟨other, .tail _ later, within⟩
      · exact ⟨piece, .head _, within⟩
    · rintro ⟨other, member, within⟩
      rcases List.mem_cons.1 member with rfl | later
      · exact .inr within
      · exact .inl ⟨other, List.mem_append_right _ later, within⟩

/-- Operands may be replaced by a fragment between two new states. -/
theorem compose (holds : Holds ⟨assembly, operands ++ rest⟩)
    (edges : Fragment → List Edge) (regex : Regex)
    (sources : ∀ edge ∈ edges assembly.nextFragment,
      edge.source ∈ Piece.statesOf operands ∪
        {assembly.nextFragment.start, assembly.nextFragment.final})
    (stands : assembly.nextFragment.IsComposed assembly.nfa
        (edges assembly.nextFragment) (assembly.compose edges).2.nfa →
      (Piece.ofOperands operands regex assembly.nextFragment).Stands
        (assembly.compose edges).2.nfa) :
    Holds ⟨(assembly.compose edges).2,
      .ofOperands operands regex assembly.nextFragment :: rest⟩ := by
  have composed : assembly.nextFragment.IsComposed assembly.nfa
      (edges assembly.nextFragment) (assembly.compose edges).2.nfa := by
    apply holds.orderly.isComposed
    intro edge added
    exact (sources edge added).imp_left holds.contains_of_operand
  refine holds.replace (holds.orderly.compose edges) composed.grows ?_
    Set.subset_union_left ?_ sources (stands composed)
  · intro id
    rw [composed.contains]
    constructor
    · exact Or.imp_right .inr
    · rintro (old | within | new)
      · exact .inl old
      · exact .inl (holds.contains_of_operand within)
      · exact .inr new
  · rintro id (within | rfl | rfl)
    · exact .inl within
    · exact .inr composed.start
    · exact .inr composed.final

theorem characters (holds : Holds ⟨assembly, [] ++ rest⟩)
    (members : CharacterClass) {regex : Regex}
    (language : regex.language =
      {word | ∃ character ∈ members, word = [character]})
    (occupied : regex.HasMembers → members ≠ ∅) :
    Holds ⟨(assembly.oneOf members).2,
      .ofOperands [] regex assembly.nextFragment :: rest⟩ := by
  apply holds.compose
  · rintro ⟨source, label, target⟩ added
    exact .inr (.inl (Fragment.mem_characterEdges_iff.1 added).1)
  · intro composed
    rw [Piece.ofOperands, Piece.statesOf_nil, Set.empty_union]
    exact .characters composed holds.fresh language occupied

variable {left right body : Piece}

theorem concatenate (holds : Holds ⟨assembly, [left, right] ++ rest⟩) :
    Holds ⟨(assembly.concatenate left.fragment right.fragment).2,
      .ofOperands [left, right] (.concatenation left.regex right.regex)
        ⟨left.fragment.start, right.fragment.final⟩ :: rest⟩ := by
  have leftStands := holds.stands left (.head _)
  have rightStands := holds.stands right (.tail _ (.head _))
  have apart : Disjoint left.states right.states :=
    (List.pairwise_cons.1 holds.disjoint).1 right (.head _)
  have terminals : ({left.fragment.start, right.fragment.final} :
      Set StateId) ⊆ left.states ∪ right.states := by
    rintro id (rfl | rfl)
    · exact .inl leftStands.spans.start_mem
    · exact .inr rightStands.spans.final_mem
  have grows : assembly.nfa.GrowsBy
      (Fragment.concatenationEdges left.fragment right.fragment)
      (assembly.concatenate left.fragment right.fragment).2.nfa := by
    intro source label target
    refine Nfa.mem_targets_addEdges.trans
      (or_congr_right (and_iff_left_of_imp ?_))
    intro added
    rcases Fragment.mem_concatenationEdges_iff.1 added with ⟨rfl, -, -⟩
    exact leftStands.spans.contains _ leftStands.spans.final_mem
  have contains (id : StateId) :
      (assembly.concatenate left.fragment right.fragment).2.nfa.contains id =
        assembly.nfa.contains id :=
    Nfa.contains_addEdges _ id
  rw [Piece.ofOperands, Piece.statesOf_pair, Set.union_eq_left.2 terminals]
  refine holds.replace (holds.orderly.addEdges _) grows ?_ ?_ ?_ ?_ ?_
  · intro id
    rw [contains, iff_self_or, ← Piece.statesOf_pair]
    exact holds.contains_of_operand
  · exact (Piece.statesOf_pair left right).subset
  · intro id within
    exact .inl ((Piece.statesOf_pair left right).symm.subset within)
  · rintro ⟨source, label, target⟩ added
    rcases Fragment.mem_concatenationEdges_iff.1 added with ⟨rfl, -, -⟩
    exact .inl leftStands.spans.final_mem
  · exact leftStands.concatenate rightStands apart grows
      fun id => (contains id).trans

theorem alternate (holds : Holds ⟨assembly, [left, right] ++ rest⟩) :
    Holds ⟨(assembly.alternate left.fragment right.fragment).2,
      .ofOperands [left, right] (.alternation left.regex right.regex)
        assembly.nextFragment :: rest⟩ := by
  have leftStands := holds.stands left (.head _)
  have rightStands := holds.stands right (.tail _ (.head _))
  have apart : Disjoint left.states right.states :=
    (List.pairwise_cons.1 holds.disjoint).1 right (.head _)
  apply holds.compose
  · intro edge added
    rw [Piece.statesOf_pair]
    rcases Fragment.source_of_mem_alternationEdges added with
      same | same | same
    · exact .inr (.inl same)
    · exact .inl (.inl (same ▸ leftStands.spans.final_mem))
    · exact .inl (.inr (same ▸ rightStands.spans.final_mem))
  · intro composed
    rw [Piece.ofOperands, Piece.statesOf_pair]
    exact leftStands.alternate rightStands apart composed holds.fresh

theorem repeated (holds : Holds ⟨assembly, [body] ++ rest⟩)
    (repetition : Repetition) :
    Holds ⟨(assembly.repeated repetition body.fragment).2,
      .ofOperands [body] (.repeated repetition body.regex)
        assembly.nextFragment :: rest⟩ := by
  have stands := holds.stands body (.head _)
  apply holds.compose
  · intro edge added
    rw [Piece.statesOf_singleton]
    rcases Fragment.source_of_mem_repetitionEdges added with same | same
    · exact .inr (.inl same)
    · exact .inl (same ▸ stands.spans.final_mem)
  · intro composed
    rw [Piece.ofOperands, Piece.statesOf_singleton]
    exact stands.repeated composed holds.fresh

theorem step {next : Bench} (holds : bench.Holds) (step : Step bench next) :
    next.Holds := by
  rcases step with ⟨_, taken, makes⟩
  have arranged := holds.perm taken
  cases makes with
  | literal character =>
      apply arranged.characters {character}
      · ext word
        change word = [character] ↔
          ∃ member ∈ ({character} : CharacterClass), word = [member]
        simp [Std.ExtTreeSet.singleton_eq_insert]
      · intro _
        rw [Std.ExtTreeSet.singleton_eq_insert]
        exact Std.ExtTreeSet.insert_ne_empty
  | oneOf members => exact arranged.characters members rfl id
  | concatenate left right => exact arranged.concatenate
  | alternate left right => exact arranged.alternate
  | repeated repetition body => exact arranged.repeated repetition

theorem of_steps {supply : IdSupply}
    (steps : Relation.ReflTransGen Step (start supply) bench) :
    bench.Holds := by
  induction steps with
  | refl =>
      refine ⟨Assembly.isOrderly_start supply, ?_, .nil, ?_⟩
      · exact fun piece member => nomatch member
      · intro id
        simp [start, Assembly.start, Nfa.contains, Nfa.state?, Nfa.empty,
          Piece.statesOf_nil]
  | tail _ step holds => exact holds.step step

end Holds

/-! ## Composing pending fragments -/

/-- No edge leads from a state of one fragment to a state of the other. -/
def NoEdge (nfa : Nfa) (piece other : Piece) : Prop :=
  ∀ source ∈ piece.states, ∀ label, ∀ target ∈ nfa.targets source label,
    target ∉ other.states

/-- The pending fragments can be composed: each has the words of its expression
between its terminals, and they do not touch one another. -/
structure IsComposable (bench : Bench) : Prop where
  /-- The paths through a fragment spell the words of its expression. -/
  language : ∀ piece ∈ bench.pending, ∀ word,
    bench.assembly.nfa.Path piece.fragment.start word piece.fragment.final ↔
      word ∈ piece.regex.language
  /-- No edge enters the start of a fragment. -/
  entry : ∀ piece ∈ bench.pending, ∀ source label,
    piece.fragment.start ∉ bench.assembly.nfa.targets source label
  /-- No edge leaves the final state of a fragment. -/
  exit : ∀ piece ∈ bench.pending, ∀ label,
    bench.assembly.nfa.targets piece.fragment.final label = ∅
  /-- Both are states of the fragment. -/
  terminals : ∀ piece ∈ bench.pending,
    piece.fragment.start ∈ piece.states ∧ piece.fragment.final ∈ piece.states
  /-- The states of the automaton are those of the fragments. -/
  covers : ∀ id, bench.assembly.nfa.contains id = true ↔
    ∃ piece ∈ bench.pending, id ∈ piece.states
  /-- Fragments have no common states and no edges between them. -/
  apart : bench.pending.Pairwise fun piece other =>
    Disjoint piece.states other.states ∧
      NoEdge bench.assembly.nfa piece other ∧
        NoEdge bench.assembly.nfa other piece
  /-- A class is never refused. -/
  reads : ∀ members,
    Assembly.Checked.compose (Fragment.characterEdges members)
        bench.assembly =
      .ok (bench.assembly.oneOf members)
  /-- Joining two fragments is never refused. -/
  joins : ∀ left ∈ bench.pending, ∀ right ∈ bench.pending,
    Assembly.Checked.concatenate left.fragment right.fragment
          bench.assembly =
        .ok (bench.assembly.concatenate left.fragment right.fragment) ∧
      Assembly.Checked.alternate left.fragment right.fragment
          bench.assembly =
        .ok (bench.assembly.alternate left.fragment right.fragment)
  /-- Repeating a fragment is never refused. -/
  repeats : ∀ body ∈ bench.pending, ∀ repetition,
    Assembly.Checked.repeated repetition body.fragment bench.assembly =
      .ok (bench.assembly.repeated repetition body.fragment)

namespace Holds

variable {bench : Bench} {piece other left right body : Piece}

theorem noEdge (holds : bench.Holds) (member : piece ∈ bench.pending)
    (disjoint : Disjoint piece.states other.states) :
    NoEdge bench.assembly.nfa piece other := by
  intro source inside label target edge
  have spans := (holds.stands piece member).spans
  exact Set.disjoint_left.1 disjoint
    (spans.closed source inside label target edge)

theorem contains_final (holds : bench.Holds)
    (member : piece ∈ bench.pending) :
    bench.assembly.nfa.contains piece.fragment.final = true :=
  (holds.covers _).2
    ⟨piece, member, (holds.stands piece member).spans.final_mem⟩

theorem checked_concatenate (holds : bench.Holds)
    (member : left ∈ bench.pending) :
    Assembly.Checked.concatenate left.fragment right.fragment
        bench.assembly =
      .ok (bench.assembly.concatenate left.fragment right.fragment) := by
  have connected : Assembly.Checked.addEdges
      (Fragment.concatenationEdges left.fragment right.fragment)
      bench.assembly =
        .ok (bench.assembly.concatenate left.fragment right.fragment).2 := by
    apply Assembly.Checked.addEdges_eq_ok
    intro edge added
    rw [List.mem_singleton.1 added]
    exact holds.contains_final member
  rw [Assembly.Checked.concatenate, connected]
  rfl

theorem checked_alternate (holds : bench.Holds)
    (leftMember : left ∈ bench.pending)
    (rightMember : right ∈ bench.pending) :
    Assembly.Checked.alternate left.fragment right.fragment bench.assembly =
      .ok (bench.assembly.alternate left.fragment right.fragment) := by
  apply holds.orderly.checked_compose
  intro edge added
  rcases Fragment.source_of_mem_alternationEdges added with
    same | same | same
  · exact .inr (.inl same)
  · exact .inl (same ▸ holds.contains_final leftMember)
  · exact .inl (same ▸ holds.contains_final rightMember)

theorem checked_repeated (holds : bench.Holds)
    (member : body ∈ bench.pending) (repetition : Repetition) :
    Assembly.Checked.repeated repetition body.fragment bench.assembly =
      .ok (bench.assembly.repeated repetition body.fragment) := by
  apply holds.orderly.checked_compose
  intro edge added
  rcases Fragment.source_of_mem_repetitionEdges added with same | same
  · exact .inr (.inl same)
  · exact .inl (same ▸ holds.contains_final member)

theorem checked_characters (holds : bench.Holds) (members : CharacterClass) :
    Assembly.Checked.compose (Fragment.characterEdges members)
        bench.assembly =
      .ok (bench.assembly.oneOf members) := by
  apply holds.orderly.checked_compose
  rintro ⟨source, label, target⟩ added
  exact .inr (.inl (Fragment.mem_characterEdges_iff.1 added).1)

end Holds

/-- After any operations on fragments of one automaton, each of which takes
fragments that are pending, all pending fragments can be composed. -/
theorem isComposable_of_steps {supply : IdSupply} {bench : Bench}
    (steps : Relation.ReflTransGen Step (start supply) bench) :
    bench.IsComposable := by
  have holds := Holds.of_steps steps
  constructor
  · intro piece member word
    rw [← (holds.stands piece member).language]
    exact Fragment.mem_language_iff.symm
  · exact fun piece member => (holds.stands piece member).isSealed.entry
  · exact fun piece member => (holds.stands piece member).isSealed.exit
  · intro piece member
    have spans := (holds.stands piece member).spans
    exact ⟨spans.start_mem, spans.final_mem⟩
  · exact holds.covers
  · apply holds.disjoint.imp_of_mem
    intro piece other member otherMember disjoint
    exact ⟨disjoint, holds.noEdge member disjoint,
      holds.noEdge otherMember disjoint.symm⟩
  · exact holds.checked_characters
  · intro left leftMember right rightMember
    exact ⟨holds.checked_concatenate leftMember,
      holds.checked_alternate leftMember rightMember⟩
  · exact fun body member => holds.checked_repeated member

/-- Two letters are joined and repeated across a class that has no members and
stays pending. -/
theorem isComposable_of_steps_interleaved :
    ∃ bench, Relation.ReflTransGen Step (start (.startingAt 3)) bench ∧
      bench.pending.map Piece.regex =
        [.repeated .zeroOrMore (.alternation (.literal 'a') (.literal 'b')),
          .oneOf ∅] ∧
      bench.IsComposable := by
  have steps := Relation.ReflTransGen.refl (r := Step)
    (a := start (.startingAt 3))
    |>.tail (.make [] (.refl _) (.literal 'a'))
    |>.tail (.make [] (.refl _) (.oneOf ∅))
    |>.tail (.make [] (.refl _) (.literal 'b'))
    |>.tail (.make [_, _] (List.perm_append_singleton _ [_, _])
      (.alternate _ _))
    |>.tail (.make [_] (.refl _) (.repeated .zeroOrMore _))
  exact ⟨_, steps, rfl, isComposable_of_steps steps⟩

end Bench

end PatternAutomata
