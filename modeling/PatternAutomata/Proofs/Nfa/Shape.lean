import PatternAutomata.Proofs.Nfa.Fragment

/-!
# The shape of composed fragments

Compositions add edges at the starts and the final states of their operands
only, and those have no other edges there.  So no edge enters the start of a
fragment and none leaves its final state.  If the classes in it have members,
every state lies on a path through the fragment, and every state but the final
one either reads characters, with one target, or has one or two empty edges.
-/

namespace PatternAutomata

namespace Nfa

variable {nfa grown : Nfa} {edges : List Edge} {id : StateId}

/-- All edges of the state read characters, and they lead to one target. -/
def IsReader (nfa : Nfa) (id : StateId) : Prop :=
  nfa.targets id .epsilon = ∅ ∧
    ∃ target, (∃ character, target ∈ nfa.targets id (.char character)) ∧
      ∀ character, ∀ other ∈ nfa.targets id (.char character), other = target

/-- All edges of the state are empty, and there are one or two. -/
def IsSwitch (nfa : Nfa) (id : StateId) : Prop :=
  (∀ character, nfa.targets id (.char character) = ∅) ∧
    ((nfa.targets id .epsilon).size = 1 ∨ (nfa.targets id .epsilon).size = 2)

/-- The edges of the state are of one kind, with one target or two. -/
def IsJunction (nfa : Nfa) (id : StateId) : Prop :=
  nfa.IsReader id ∨ nfa.IsSwitch id

theorem targets_eq_empty (new : ¬nfa.contains id = true) (label : Label) :
    nfa.targets id label = ∅ :=
  Std.ExtTreeSet.eq_empty_iff_forall_not_mem.2 fun _ edge =>
    new (contains_of_mem_targets edge)

theorem IsJunction.transfer (junction : nfa.IsJunction id)
    (same : ∀ label, grown.targets id label = nfa.targets id label) :
    grown.IsJunction id := by
  simp only [IsJunction, IsReader, IsSwitch, same]
  exact junction

end Nfa

theorem StateSet.size_of_pair {states : StateSet} {first second : StateId}
    (pair : ∀ id, id ∈ states ↔ id = first ∨ id = second) :
    states.size = 1 ∨ states.size = 2 := by
  have whole : states = ((∅ : StateSet).insert second).insert first := by
    ext id
    simp [pair, eq_comm (a := id)]
  rw [whole, Std.ExtTreeSet.size_insert, Std.ExtTreeSet.size_insert]
  split <;> simp

/-- A state without edges becomes a switch when empty edges to one or two
targets are added. -/
theorem Nfa.GrowsBy.isSwitch {nfa grown : Nfa} {edges : List Edge}
    (grows : nfa.GrowsBy edges grown) {id : StateId}
    (bare : ∀ label, nfa.targets id label = ∅) (first second : StateId)
    (added : ∀ label target, ⟨id, label, target⟩ ∈ edges ↔
      label = .epsilon ∧ (target = first ∨ target = second)) :
    grown.IsSwitch id := by
  have mem_iff (label : Label) (target : StateId) :
      target ∈ grown.targets id label ↔
        label = .epsilon ∧ (target = first ∨ target = second) := by
    rw [grows, bare, added]
    exact or_iff_right Std.ExtTreeSet.not_mem_empty
  constructor
  · intro character
    rw [Std.ExtTreeSet.eq_empty_iff_forall_not_mem]
    intro target edge
    exact nomatch ((mem_iff _ target).1 edge).1
  · apply StateSet.size_of_pair
    intro target
    rw [mem_iff]
    exact and_iff_right rfl

namespace Fragment

/-- No edge enters the start of the fragment, and none leaves its final
state. -/
structure IsSealed (fragment : Fragment) (nfa : Nfa) : Prop where
  /-- No edge enters the start. -/
  entry : ∀ source label, fragment.start ∉ nfa.targets source label
  /-- No edge leaves the final state. -/
  exit : ∀ label, nfa.targets fragment.final label = ∅

/-- The states of a part lie on paths through the fragment, and they have edges
of one kind each, except for the final state. -/
structure IsTrim (fragment : Fragment) (nfa : Nfa) (part : Set StateId) :
    Prop where
  /-- From the start a path leads to every state of the part. -/
  feeds : ∀ id ∈ part, ∃ word, nfa.Path fragment.start word id
  /-- From every state of the part a path leads to the final state. -/
  drains : fragment.Drains nfa part
  /-- A state of the part either reads or is a switch. -/
  junction : ∀ id ∈ part, id ≠ fragment.final → nfa.IsJunction id

variable {nfa grown : Nfa} {edges : List Edge} {part : Set StateId}
  {fragment left right body whole : Fragment}
  {leftPart rightPart : Set StateId} {repetition : Repetition}
  {members : CharacterClass}

/-! ## Other automata -/

theorem IsSealed.grow (isSealed : fragment.IsSealed nfa)
    (grows : nfa.GrowsBy edges grown)
    (untouched : ∀ edge ∈ edges,
      edge.source ≠ fragment.final ∧ edge.target ≠ fragment.start) :
    fragment.IsSealed grown where
  entry source label edge := by
    rcases (grows source label _).1 edge with old | new
    · exact isSealed.entry source label old
    · exact (untouched _ new).2 rfl
  exit label := by
    rw [grows.targets_eq (fun edge member => (untouched edge member).1)]
    exact isSealed.exit label

theorem IsTrim.transfer (trim : fragment.IsTrim nfa part)
    (spans : fragment.Spans nfa part)
    (same : ∀ id ∈ part, ∀ label,
      grown.targets id label = nfa.targets id label) :
    fragment.IsTrim grown part where
  feeds id member := by
    rcases trim.feeds id member with ⟨word, path⟩
    exact ⟨word, (spans.path_iff same spans.start_mem).2 path⟩
  drains := trim.drains.transfer spans same
  junction id member inner :=
    (trim.junction id member inner).transfer (same id member)

/-! ## Sealed compositions -/

theorem IsSealed.concatenate (leftSealed : left.IsSealed nfa)
    (rightSealed : right.IsSealed nfa)
    (leftSpans : left.Spans nfa leftPart)
    (rightSpans : right.Spans nfa rightPart)
    (disjoint : Disjoint leftPart rightPart)
    (grows : nfa.GrowsBy (concatenationEdges left right) grown) :
    (Fragment.mk left.start right.final).IsSealed grown := by
  have outer : (Fragment.mk left.start right.final).IsSealed nfa :=
    ⟨leftSealed.entry, rightSealed.exit⟩
  apply outer.grow grows
  rintro ⟨source, label, target⟩ member
  rcases mem_concatenationEdges_iff.1 member with ⟨rfl, -, rfl⟩
  have apart := Set.disjoint_iff_forall_ne.1 disjoint
  exact ⟨apart leftSpans.final_mem rightSpans.final_mem,
    (apart leftSpans.start_mem rightSpans.start_mem).symm⟩

/-- A fragment between two new states is sealed if no added edge enters its
start or leaves its final state. -/
theorem IsComposed.isSealed (composed : whole.IsComposed nfa edges grown)
    (fresh : ∀ source label, whole.start ∉ nfa.targets source label)
    (enters : ∀ edge ∈ edges, edge.target ≠ whole.start)
    (stuck : ∀ edge ∈ edges, edge.source ≠ whole.final) :
    whole.IsSealed grown := by
  have bare : whole.IsSealed nfa :=
    ⟨fresh, Nfa.targets_eq_empty composed.final⟩
  exact bare.grow composed.grows fun edge member =>
    ⟨stuck edge member, enters edge member⟩

theorem IsComposed.isSealed_of_characters
    (composed : whole.IsComposed nfa (characterEdges members whole) grown)
    (fresh : ∀ source label, whole.start ∉ nfa.targets source label) :
    whole.IsSealed grown := by
  refine composed.isSealed fresh ?_ composed.stuck_of_characters
  rintro ⟨source, label, target⟩ member rfl
  exact composed.distinct (mem_characterEdges_iff.1 member).2.1

theorem IsComposed.isSealed_of_alternation
    (leftSpans : left.Spans nfa leftPart)
    (rightSpans : right.Spans nfa rightPart)
    (composed :
      whole.IsComposed nfa (alternationEdges left right whole) grown)
    (fresh : ∀ source label, whole.start ∉ nfa.targets source label) :
    whole.IsSealed grown := by
  refine composed.isSealed fresh ?_
    (composed.stuck_of_alternation leftSpans rightSpans)
  rintro ⟨source, label, target⟩ member rfl
  rcases (mem_alternationEdges_iff.1 member).2 with
    ⟨-, same | same⟩ | ⟨-, same⟩
  · exact composed.start_not_mem leftSpans.toIsClosed
      (same ▸ leftSpans.start_mem)
  · exact composed.start_not_mem rightSpans.toIsClosed
      (same ▸ rightSpans.start_mem)
  · exact composed.distinct same

theorem IsComposed.isSealed_of_repetition (spans : body.Spans nfa part)
    (composed :
      whole.IsComposed nfa (repetitionEdges body whole repetition) grown)
    (fresh : ∀ source label, whole.start ∉ nfa.targets source label) :
    whole.IsSealed grown := by
  have outside := composed.start_not_mem spans.toIsClosed
  refine composed.isSealed fresh ?_ (composed.stuck_of_repetition spans)
  rintro ⟨source, label, target⟩ member rfl
  rcases (mem_repetitionEdges_iff.1 member).2 with
    ⟨-, same | ⟨-, same⟩⟩ | ⟨-, same | ⟨-, same⟩⟩
  · exact outside (same ▸ spans.start_mem)
  · exact composed.distinct same
  · exact composed.distinct same
  · exact outside (same ▸ spans.start_mem)

/-! ## Trim compositions -/

theorem IsTrim.concatenate (leftTrim : left.IsTrim nfa leftPart)
    (rightTrim : right.IsTrim nfa rightPart)
    (leftSealed : left.IsSealed nfa) (leftSpans : left.Spans nfa leftPart)
    (rightSpans : right.Spans nfa rightPart)
    (grows : nfa.GrowsBy (concatenationEdges left right) grown) :
    (Fragment.mk left.start right.final).IsTrim grown
      (leftPart ∪ rightPart) where
  feeds := by
    rintro id (inLeft | inRight)
    · rcases leftTrim.feeds id inLeft with ⟨word, path⟩
      exact ⟨word, grows.grow_path path⟩
    · rcases leftTrim.feeds _ leftSpans.final_mem with ⟨front, begins⟩
      rcases rightTrim.feeds id inRight with ⟨back, ends⟩
      refine ⟨front ++ back,
        (grows.grow_path begins).trans (.empty ?_ (grows.grow_path ends))⟩
      exact (grows _ _ _).2
        (.inr (mem_concatenationEdges_iff.2 ⟨rfl, rfl, rfl⟩))
  drains := leftTrim.drains.concatenate rightSpans rightTrim.drains grows
  junction id member inner := by
    by_cases joint : id = left.final
    · subst joint
      refine .inr (grows.isSwitch leftSealed.exit right.start right.start ?_)
      intro label target
      rw [mem_concatenationEdges_iff, or_self]
      exact and_iff_right rfl
    · have untouched : ∀ edge ∈ concatenationEdges left right,
          edge.source ≠ id := by
        rintro ⟨source, label, target⟩ added rfl
        exact joint (mem_concatenationEdges_iff.1 added).1
      have junction : nfa.IsJunction id :=
        member.elim (fun inLeft => leftTrim.junction id inLeft joint)
          fun inRight => rightTrim.junction id inRight inner
      exact junction.transfer (grows.targets_eq untouched)

/-- Paths lead to all states of a composition by empty edges, if they do within
the operands. -/
theorem IsComposed.feeds (composed : whole.IsComposed nfa edges grown)
    (enters : ∀ id ∈ part, ∃ operand : Fragment,
      ⟨whole.start, .epsilon, operand.start⟩ ∈ edges ∧
        ∃ word, nfa.Path operand.start word id)
    (leaves : ∃ id ∈ part, ⟨id, .epsilon, whole.final⟩ ∈ edges) :
    ∀ id ∈ part ∪ {whole.start, whole.final},
      ∃ word, grown.Path whole.start word id := by
  have inner (id : StateId) (member : id ∈ part) :
      ∃ word, grown.Path whole.start word id := by
    rcases enters id member with ⟨operand, added, word, path⟩
    exact ⟨word, .empty ((composed.grows _ _ _).2 (.inr added))
      (composed.grows.grow_path path)⟩
  rintro id (member | rfl | rfl)
  · exact inner id member
  · exact ⟨[], .done _⟩
  · rcases leaves with ⟨id, member, added⟩
    rcases inner id member with ⟨word, path⟩
    exact ⟨word ++ [], path.trans
      (.ofEmptyEdge ((composed.grows _ _ _).2 (.inr added)))⟩

theorem IsTrim.alternate (leftTrim : left.IsTrim nfa leftPart)
    (rightTrim : right.IsTrim nfa rightPart)
    (leftSealed : left.IsSealed nfa) (rightSealed : right.IsSealed nfa)
    (leftSpans : left.Spans nfa leftPart)
    (rightSpans : right.Spans nfa rightPart)
    (composed :
      whole.IsComposed nfa (alternationEdges left right whole) grown) :
    whole.IsTrim grown
      (leftPart ∪ rightPart ∪ {whole.start, whole.final}) where
  feeds := by
    apply composed.feeds
    · rintro id (inLeft | inRight)
      · exact ⟨left,
          mem_alternationEdges_iff.2 ⟨rfl, .inl ⟨rfl, .inl rfl⟩⟩,
          leftTrim.feeds id inLeft⟩
      · exact ⟨right,
          mem_alternationEdges_iff.2 ⟨rfl, .inl ⟨rfl, .inr rfl⟩⟩,
          rightTrim.feeds id inRight⟩
    · exact ⟨left.final, .inl leftSpans.final_mem,
        mem_alternationEdges_iff.2 ⟨rfl, .inr ⟨.inl rfl, rfl⟩⟩⟩
  drains := leftTrim.drains.alternate leftSpans rightTrim.drains composed
  junction id member inner := by
    have leftOut := composed.start_not_mem leftSpans.toIsClosed
    have rightOut := composed.start_not_mem rightSpans.toIsClosed
    by_cases opens : id = whole.start
    · subst opens
      refine .inr (composed.grows.isSwitch
        (Nfa.targets_eq_empty composed.start) left.start right.start ?_)
      intro label target
      have notLeft : whole.start ≠ left.final := fun same =>
        leftOut (same ▸ leftSpans.final_mem)
      have notRight : whole.start ≠ right.final := fun same =>
        rightOut (same ▸ rightSpans.final_mem)
      simp [mem_alternationEdges_iff, notLeft, notRight]
    · by_cases joint : id = left.final ∨ id = right.final
      · have bare (label : Label) : nfa.targets id label = ∅ := by
          rcases joint with rfl | rfl
          · exact leftSealed.exit label
          · exact rightSealed.exit label
        refine .inr (composed.grows.isSwitch bare whole.final whole.final ?_)
        intro label target
        simp [mem_alternationEdges_iff, opens, joint]
      · have untouched : ∀ edge ∈ alternationEdges left right whole,
            edge.source ≠ id := by
          rintro edge added rfl
          exact (source_of_mem_alternationEdges added).elim opens joint
        have junction : nfa.IsJunction id := by
          rcases member with (inLeft | inRight) | same | same
          · exact leftTrim.junction id inLeft (not_or.1 joint).1
          · exact rightTrim.junction id inRight (not_or.1 joint).2
          · exact absurd same opens
          · exact absurd same inner
        exact junction.transfer (composed.grows.targets_eq untouched)

theorem IsTrim.repeat (trim : body.IsTrim nfa part)
    (isSealed : body.IsSealed nfa) (spans : body.Spans nfa part)
    (composed :
      whole.IsComposed nfa (repetitionEdges body whole repetition) grown) :
    whole.IsTrim grown (part ∪ {whole.start, whole.final}) where
  feeds := by
    apply composed.feeds
    · intro id inside
      exact ⟨body, mem_repetitionEdges_iff.2 ⟨rfl, .inl ⟨rfl, .inl rfl⟩⟩,
        trim.feeds id inside⟩
    · exact ⟨body.final, spans.final_mem,
        mem_repetitionEdges_iff.2 ⟨rfl, .inr ⟨rfl, .inl rfl⟩⟩⟩
  drains := trim.drains.repeat spans composed
  junction id member inner := by
    have apart : whole.start ≠ body.final := fun same =>
      composed.start_not_mem spans.toIsClosed (same ▸ spans.final_mem)
    by_cases opens : id = whole.start
    · subst opens
      refine .inr (composed.grows.isSwitch
        (Nfa.targets_eq_empty composed.start) body.start
        (if repetition = .oneOrMore then body.start else whole.final) ?_)
      intro label target
      cases repetition <;> simp [mem_repetitionEdges_iff, apart]
    · by_cases joint : id = body.final
      · subst joint
        refine .inr (composed.grows.isSwitch isSealed.exit whole.final
          (if repetition = .zeroOrOne then whole.final else body.start) ?_)
        intro label target
        cases repetition <;> simp [mem_repetitionEdges_iff, opens]
      · have untouched : ∀ edge ∈ repetitionEdges body whole repetition,
            edge.source ≠ id := by
          rintro edge added rfl
          exact (source_of_mem_repetitionEdges added).elim opens joint
        have junction : nfa.IsJunction id := by
          rcases member with inside | same | same
          · exact trim.junction id inside joint
          · exact absurd same opens
          · exact absurd same inner
        exact junction.transfer (composed.grows.targets_eq untouched)

theorem isTrim_characterEdges
    (composed : whole.IsComposed nfa (characterEdges members whole) grown)
    (occupied : members ≠ ∅) :
    whole.IsTrim grown {whole.start, whole.final} := by
  have drains := drains_characterEdges composed occupied
  have edge_iff (label : Label) (target : StateId) :
      target ∈ grown.targets whole.start label ↔
        target = whole.final ∧
          ∃ character ∈ members, label = .char character := by
    rw [composed.grows, Nfa.targets_eq_empty composed.start,
      mem_characterEdges_iff, or_iff_right Std.ExtTreeSet.not_mem_empty]
    exact and_iff_right rfl
  refine ⟨?_, drains, ?_⟩
  · rintro id (rfl | rfl)
    · exact ⟨[], .done _⟩
    · exact drains _ (.inl rfl)
  · rintro id (rfl | rfl) inner
    · refine .inl ⟨?_, whole.final, ?_, ?_⟩
      · rw [Std.ExtTreeSet.eq_empty_iff_forall_not_mem]
        intro target edge
        rcases (edge_iff _ target).1 edge with ⟨-, character, -, same⟩
        exact nomatch same
      · rcases CharacterClass.exists_mem occupied with ⟨character, member⟩
        exact ⟨character, (edge_iff _ _).2 ⟨rfl, character, member, rfl⟩⟩
      · intro character other edge
        exact ((edge_iff _ other).1 edge).1
    · exact absurd rfl inner

end Fragment

end PatternAutomata
