import Mathlib.Order.CompletePartialOrder
import PatternAutomata.Proofs.Nfa.Building
import PatternAutomata.Proofs.Pattern.Denotation

/-!
# The languages of composed fragments

A fragment spans a part of an automaton if no edge leads out of the part.  The
words of a fragment are those of the paths from its start to its final state.
When edges are added at the final state only, a path that leaves the part
begins with a path to the final state; this determines the words of each
composition from the words of its parts.
-/

namespace PatternAutomata

open scoped Computability

/-- The second automaton has the edges of the first one and the given ones. -/
def Nfa.GrowsBy (nfa : Nfa) (edges : List Edge) (grown : Nfa) : Prop :=
  ∀ source label target, target ∈ grown.targets source label ↔
    target ∈ nfa.targets source label ∨ ⟨source, label, target⟩ ∈ edges

theorem Nfa.Path.grow {nfa grown : Nfa} {first last : StateId}
    {word : List Char}
    (larger : ∀ source label target, target ∈ nfa.targets source label →
      target ∈ grown.targets source label)
    (path : nfa.Path first word last) : grown.Path first word last := by
  induction path with
  | done => exact .done _
  | empty edge _ rest => exact .empty (larger _ _ _ edge) rest
  | read edge _ rest => exact .read (larger _ _ _ edge) rest

/-- Automata with the same edges have the same paths. -/
theorem Nfa.Path.iff_of_targets_eq {nfa grown : Nfa}
    (same : ∀ id label, grown.targets id label = nfa.targets id label)
    {first last : StateId} {word : List Char} :
    grown.Path first word last ↔ nfa.Path first word last := by
  constructor
  · apply Nfa.Path.grow
    intro source label target edge
    exact same source label ▸ edge
  · apply Nfa.Path.grow
    intro source label target edge
    exact (same source label).symm ▸ edge

theorem Nfa.GrowsBy.grow_path {nfa grown : Nfa} {edges : List Edge}
    (grows : nfa.GrowsBy edges grown) {first last : StateId}
    {word : List Char} (path : nfa.Path first word last) :
    grown.Path first word last :=
  path.grow fun source label target edge =>
    (grows source label target).2 (.inl edge)

theorem Nfa.GrowsBy.targets_eq {nfa grown : Nfa} {edges : List Edge}
    (grows : nfa.GrowsBy edges grown) {id : StateId}
    (untouched : ∀ edge ∈ edges, edge.source ≠ id) (label : Label) :
    grown.targets id label = nfa.targets id label := by
  apply Std.ExtTreeSet.ext_mem
  intro target
  rw [grows, or_iff_left]
  intro new
  exact untouched _ new rfl

/-- A path in a larger automaton stays a path in the smaller one as long as it
keeps to a part without new edges. -/
theorem Nfa.Path.restrict {nfa grown : Nfa} {part : Set StateId}
    (edges : ∀ source ∈ part, ∀ label, ∀ target ∈ grown.targets source label,
      target ∈ nfa.targets source label ∧ target ∈ part)
    {first last : StateId} {word : List Char} (inside : first ∈ part)
    (path : grown.Path first word last) : nfa.Path first word last := by
  induction path with
  | done => exact .done _
  | empty edge _ rest =>
      rcases edges _ inside _ _ edge with ⟨old, inside⟩
      exact .empty old (rest inside)
  | read edge _ rest =>
      rcases edges _ inside _ _ edge with ⟨old, inside⟩
      exact .read old (rest inside)

/-- A part of the automaton that no edge leaves. -/
structure Nfa.IsClosed (nfa : Nfa) (part : Set StateId) : Prop where
  /-- The part consists of states. -/
  contains : ∀ id ∈ part, nfa.contains id = true
  /-- No edge leaves the part. -/
  closed : ∀ source ∈ part, ∀ label, ∀ target ∈ nfa.targets source label,
    target ∈ part

namespace Nfa.IsClosed

variable {nfa grown : Nfa} {part other : Set StateId} {edges : List Edge}

theorem empty (nfa : Nfa) : nfa.IsClosed ∅ where
  contains _ member := member.elim
  closed _ member := member.elim

theorem union (closed : nfa.IsClosed part) (otherClosed : nfa.IsClosed other) :
    nfa.IsClosed (part ∪ other) where
  contains id member :=
    member.elim (closed.contains id) (otherClosed.contains id)
  closed source member label target edge :=
    member.imp (fun inside => closed.closed source inside label target edge)
      fun inside => otherClosed.closed source inside label target edge

theorem grow (closed : nfa.IsClosed part) (grows : nfa.GrowsBy edges grown)
    (contains : ∀ id, nfa.contains id = true → grown.contains id = true)
    (inside : ∀ edge ∈ edges, edge.target ∈ part) : grown.IsClosed part where
  contains id member := contains id (closed.contains id member)
  closed source member label target edge :=
    ((grows source label target).1 edge).elim
      (closed.closed source member label target)
      fun new => inside _ new

end Nfa.IsClosed

namespace Fragment

/-- The words that lead through the fragment. -/
def language (fragment : Fragment) (nfa : Nfa) : Language Char :=
  {word | nfa.Path fragment.start word fragment.final}

theorem mem_language_iff {fragment : Fragment} {nfa : Nfa}
    {word : List Char} :
    word ∈ fragment.language nfa ↔
      nfa.Path fragment.start word fragment.final :=
  Iff.rfl

/-- The fragment lies in a part of the automaton that no edge leaves. -/
structure Spans (fragment : Fragment) (nfa : Nfa) (part : Set StateId) :
    Prop extends nfa.IsClosed part where
  /-- The start belongs to the part. -/
  start_mem : fragment.start ∈ part
  /-- The final state belongs to the part. -/
  final_mem : fragment.final ∈ part

/-- From every state of the part a path leads to the final state. -/
def Drains (fragment : Fragment) (nfa : Nfa) (part : Set StateId) : Prop :=
  ∀ id ∈ part, ∃ word, nfa.Path id word fragment.final

variable {nfa grown : Nfa} {part : Set StateId} {fragment : Fragment}

/-! ## Other automata with the same part -/

theorem Spans.transfer (spans : fragment.Spans nfa part)
    (contains : ∀ id, nfa.contains id = true → grown.contains id = true)
    (same : ∀ id ∈ part, ∀ label,
      grown.targets id label = nfa.targets id label) :
    fragment.Spans grown part where
  contains id member := contains id (spans.contains id member)
  closed source member label target edge :=
    spans.closed source member label target (same source member label ▸ edge)
  start_mem := spans.start_mem
  final_mem := spans.final_mem

theorem Spans.path_iff (spans : fragment.Spans nfa part)
    (same : ∀ id ∈ part, ∀ label,
      grown.targets id label = nfa.targets id label)
    {first last : StateId} {word : List Char} (inside : first ∈ part) :
    grown.Path first word last ↔ nfa.Path first word last := by
  constructor
  · apply Nfa.Path.restrict ?_ inside
    intro source member label target edge
    rw [same source member] at edge
    exact ⟨edge, spans.closed source member label target edge⟩
  · apply Nfa.Path.restrict ?_ inside
    intro source member label target edge
    rw [same source member]
    exact ⟨edge, spans.closed source member label target edge⟩

theorem Spans.language_eq (spans : fragment.Spans nfa part)
    (same : ∀ id ∈ part, ∀ label,
      grown.targets id label = nfa.targets id label) :
    fragment.language grown = fragment.language nfa := by
  ext word
  exact spans.path_iff same spans.start_mem

theorem Drains.transfer (drains : fragment.Drains nfa part)
    (spans : fragment.Spans nfa part)
    (same : ∀ id ∈ part, ∀ label,
      grown.targets id label = nfa.targets id label) :
    fragment.Drains grown part := by
  intro id member
  rcases drains id member with ⟨word, path⟩
  exact ⟨word, (spans.path_iff same member).2 path⟩

/-! ## Composition -/

/-- A path in a larger automaton that leaves the part of a fragment begins
with a path to its final state.  What it spells then belongs to a language
that has the words after leaving and takes in the words of the fragment where
an added edge leads back to its start. -/
theorem Spans.exists_path_of_path (spans : fragment.Spans nfa part)
    (exits : Set StateId) (rest : Language Char) {goal : StateId}
    (outside : goal ∉ part)
    (edges : ∀ source ∈ part, ∀ label target,
      target ∈ grown.targets source label →
        target ∈ nfa.targets source label ∨
          source = fragment.final ∧ label = .epsilon ∧ target ∈ exits)
    (leaves : ∀ target ∈ exits, target ∉ part → ∀ word,
      grown.Path target word goal → word ∈ rest)
    (loops : ∀ target ∈ exits, target ∈ part →
      target = fragment.start ∧ fragment.language nfa * rest ≤ rest)
    {first : StateId} {word : List Char} (inside : first ∈ part)
    (path : grown.Path first word goal) :
    ∃ front back, word = front ++ back ∧
      nfa.Path first front fragment.final ∧ back ∈ rest := by
  induction path with
  | done => exact absurd inside outside
  | @empty source next target word edge path found =>
      rcases edges source inside _ next edge with old | ⟨rfl, -, exit⟩
      · rcases found outside leaves (spans.closed _ inside _ _ old) with
          ⟨front, back, rfl, begins, member⟩
        exact ⟨front, back, rfl, .empty old begins, member⟩
      · refine ⟨[], word, rfl, .done _, ?_⟩
        by_cases back : next ∈ part
        · rcases loops next exit back with ⟨rfl, absorbed⟩
          rcases found outside leaves back with
            ⟨front, back, rfl, begins, member⟩
          exact absorbed (Language.append_mem_mul begins member)
        · exact leaves next exit back word path
  | @read source next target character word edge path found =>
      rcases edges source inside _ next edge with old | ⟨-, absurdity, -⟩
      · rcases found outside leaves (spans.closed _ inside _ _ old) with
          ⟨front, back, rfl, begins, member⟩
        exact ⟨character :: front, back, rfl, .read old begins, member⟩
      · exact nomatch absurdity

/-- A fragment between two new states, with edges that are added together with
them. -/
structure IsComposed (whole : Fragment) (nfa : Nfa) (edges : List Edge)
    (grown : Nfa) : Prop where
  /-- The start is new. -/
  start : ¬nfa.contains whole.start = true
  /-- The final state is new. -/
  final : ¬nfa.contains whole.final = true
  /-- The new states are different. -/
  distinct : whole.start ≠ whole.final
  /-- The edges are added. -/
  grows : nfa.GrowsBy edges grown
  /-- The two states are added. -/
  contains : ∀ id, grown.contains id = true ↔
    nfa.contains id = true ∨ id = whole.start ∨ id = whole.final

namespace IsComposed

variable {whole : Fragment} {edges : List Edge}

theorem edge_of_start (composed : whole.IsComposed nfa edges grown)
    {label : Label} {target : StateId}
    (edge : target ∈ grown.targets whole.start label) :
    ⟨whole.start, label, target⟩ ∈ edges := by
  rcases (composed.grows _ _ _).1 edge with old | new
  · exact absurd (nfa.contains_of_mem_targets old) composed.start
  · exact new

theorem edge_of_final (composed : whole.IsComposed nfa edges grown)
    {label : Label} {target : StateId}
    (edge : target ∈ grown.targets whole.final label) :
    ⟨whole.final, label, target⟩ ∈ edges := by
  rcases (composed.grows _ _ _).1 edge with old | new
  · exact absurd (nfa.contains_of_mem_targets old) composed.final
  · exact new

/-- Where no added edge leaves the final state, nothing does. -/
theorem eq_nil_of_path (composed : whole.IsComposed nfa edges grown)
    (stuck : ∀ edge ∈ edges, edge.source ≠ whole.final)
    {last : StateId} {word : List Char}
    (path : grown.Path whole.final word last) : word = [] := by
  cases path with
  | done => rfl
  | empty edge => exact absurd rfl (stuck _ (composed.edge_of_final edge))
  | read edge => exact absurd rfl (stuck _ (composed.edge_of_final edge))

theorem isClosed (composed : whole.IsComposed nfa edges grown)
    (closed : nfa.IsClosed part)
    (inside : ∀ edge ∈ edges,
      edge.target ∈ part ∪ {whole.start, whole.final}) :
    grown.IsClosed (part ∪ {whole.start, whole.final}) where
  contains id member :=
    (composed.contains id).2 (member.imp_left (closed.contains id))
  closed source member label target edge := by
    rcases (composed.grows source label target).1 edge with old | new
    · rcases member with inPart | rfl | rfl
      · exact .inl (closed.closed source inPart label target old)
      · exact absurd (nfa.contains_of_mem_targets old) composed.start
      · exact absurd (nfa.contains_of_mem_targets old) composed.final
    · exact inside _ new

theorem spans (composed : whole.IsComposed nfa edges grown)
    (closed : nfa.IsClosed part)
    (inside : ∀ edge ∈ edges,
      edge.target ∈ part ∪ {whole.start, whole.final}) :
    whole.Spans grown (part ∪ {whole.start, whole.final}) where
  toIsClosed := composed.isClosed closed inside
  start_mem := .inr (.inl rfl)
  final_mem := .inr (.inr rfl)

theorem final_not_mem (composed : whole.IsComposed nfa edges grown)
    (closed : nfa.IsClosed part) : whole.final ∉ part :=
  fun member => composed.final (closed.contains _ member)

theorem start_not_mem (composed : whole.IsComposed nfa edges grown)
    (closed : nfa.IsClosed part) : whole.start ∉ part :=
  fun member => composed.start (closed.contains _ member)

/-- The words of a composition by empty edges are what paths spell after its
first edge. -/
theorem mem_language_iff (composed : whole.IsComposed nfa edges grown)
    (silent : ∀ edge ∈ edges, edge.label = .epsilon) {word : List Char} :
    word ∈ whole.language grown ↔
      ∃ next, ⟨whole.start, .epsilon, next⟩ ∈ edges ∧
        grown.Path next word whole.final := by
  constructor
  · intro path
    rcases path.exists_first_edge composed.distinct with
      ⟨label, next, rest, edge, rfl, onward⟩
    have new := composed.edge_of_start edge
    cases silent _ new
    exact ⟨next, new, onward⟩
  · rintro ⟨next, new, path⟩
    exact .empty ((composed.grows _ _ _).2 (.inr new)) path

/-- A path through one of the fragments of a composition to the new final state
comes by the final state of that fragment.  From there an added edge leads on
to the new final state or back to the start of the fragment. -/
theorem exists_path (composed : whole.IsComposed nfa edges grown)
    (stuck : ∀ edge ∈ edges, edge.source ≠ whole.final)
    (spans : fragment.Spans nfa part) (rest : Language Char)
    (nil_mem : [] ∈ rest)
    (leaves : ∀ edge ∈ edges, edge.source ∈ part →
      edge.source = fragment.final ∧ edge.label = .epsilon ∧
        (edge.target = whole.final ∨
          edge.target = fragment.start ∧
            fragment.language nfa * rest ≤ rest))
    {first : StateId} {word : List Char} (inside : first ∈ part)
    (path : grown.Path first word whole.final) :
    ∃ front back, word = front ++ back ∧
      nfa.Path first front fragment.final ∧ back ∈ rest := by
  refine spans.exists_path_of_path
    {target | target = whole.final ∨ target = fragment.start ∧
      fragment.language nfa * rest ≤ rest}
    rest (composed.final_not_mem spans.toIsClosed) ?_ ?_ ?_ inside path
  · intro source member label target edge
    exact ((composed.grows source label target).1 edge).imp_right
      fun new => leaves _ new member
  · rintro target (rfl | ⟨rfl, -⟩) outside word path
    · rw [composed.eq_nil_of_path stuck path]
      exact nil_mem
    · exact absurd spans.start_mem outside
  · rintro target (rfl | looped) member
    · exact absurd member (composed.final_not_mem spans.toIsClosed)
    · exact looped

end IsComposed

/-! ## Concatenation -/

section Concatenation

variable {left right : Fragment} {leftPart rightPart : Set StateId}

theorem mem_concatenationEdges_iff {source target : StateId} {label : Label} :
    ⟨source, label, target⟩ ∈ concatenationEdges left right ↔
      source = left.final ∧ label = .epsilon ∧ target = right.start := by
  simp [concatenationEdges, emptyEdge]

theorem Spans.concatenate (leftSpans : left.Spans nfa leftPart)
    (rightSpans : right.Spans nfa rightPart)
    (grows : nfa.GrowsBy (concatenationEdges left right) grown)
    (contains : ∀ id, nfa.contains id = true → grown.contains id = true) :
    (Fragment.mk left.start right.final).Spans grown
      (leftPart ∪ rightPart) where
  start_mem := .inl leftSpans.start_mem
  final_mem := .inr rightSpans.final_mem
  toIsClosed := by
    refine (leftSpans.union rightSpans.toIsClosed).grow grows contains ?_
    intro edge member
    rw [List.mem_singleton.1 member]
    exact .inr rightSpans.start_mem

/-- The words of a concatenation are those of the left fragment followed by
those of the right one. -/
theorem language_concatenate (leftSpans : left.Spans nfa leftPart)
    (rightSpans : right.Spans nfa rightPart)
    (disjoint : Disjoint leftPart rightPart)
    (grows : nfa.GrowsBy (concatenationEdges left right) grown) :
    (Fragment.mk left.start right.final).language grown =
      left.language nfa * right.language nfa := by
  ext word
  rw [Language.mem_mul]
  constructor
  · intro path
    have outside : right.final ∉ leftPart :=
      Set.disjoint_right.1 disjoint rightSpans.final_mem
    have restricted : ∀ source ∈ rightPart, ∀ label,
        ∀ target ∈ grown.targets source label,
          target ∈ nfa.targets source label ∧ target ∈ rightPart := by
      intro source member label target edge
      rcases (grows source label target).1 edge with old | new
      · exact ⟨old, rightSpans.closed source member label target old⟩
      · rcases mem_concatenationEdges_iff.1 new with ⟨rfl, -, -⟩
        exact absurd leftSpans.final_mem
          (Set.disjoint_right.1 disjoint member)
    rcases leftSpans.exists_path_of_path {right.start}
        (right.language nfa) outside
        (fun source _ label target edge =>
          ((grows source label target).1 edge).imp_right
            mem_concatenationEdges_iff.1)
        (fun target exit _ word path => by
          rw [Set.mem_singleton_iff.1 exit] at path
          exact path.restrict restricted rightSpans.start_mem)
        (fun target exit inside => by
          rw [Set.mem_singleton_iff.1 exit] at inside
          exact absurd inside
            (Set.disjoint_right.1 disjoint rightSpans.start_mem))
        leftSpans.start_mem path with
      ⟨front, back, rfl, begins, member⟩
    exact ⟨front, begins, back, member, rfl⟩
  · rintro ⟨front, begins, back, ends, rfl⟩
    refine (grows.grow_path begins).trans (.empty ?_ (grows.grow_path ends))
    exact (grows _ _ _).2
      (.inr (mem_concatenationEdges_iff.2 ⟨rfl, rfl, rfl⟩))

theorem Drains.concatenate (leftDrains : left.Drains nfa leftPart)
    (rightSpans : right.Spans nfa rightPart)
    (rightDrains : right.Drains nfa rightPart)
    (grows : nfa.GrowsBy (concatenationEdges left right) grown) :
    (Fragment.mk left.start right.final).Drains grown
      (leftPart ∪ rightPart) := by
  rintro id (inLeft | inRight)
  · rcases leftDrains id inLeft with ⟨front, begins⟩
    rcases rightDrains _ rightSpans.start_mem with ⟨back, ends⟩
    refine ⟨front ++ back,
      (grows.grow_path begins).trans (.empty ?_ (grows.grow_path ends))⟩
    exact (grows _ _ _).2
      (.inr (mem_concatenationEdges_iff.2 ⟨rfl, rfl, rfl⟩))
  · rcases rightDrains id inRight with ⟨word, path⟩
    exact ⟨word, grows.grow_path path⟩

end Concatenation

/-! ## Alternation -/

section Alternation

variable {left right whole : Fragment} {leftPart rightPart : Set StateId}

theorem mem_alternationEdges_iff {source target : StateId} {label : Label} :
    ⟨source, label, target⟩ ∈ alternationEdges left right whole ↔
      label = .epsilon ∧
        (source = whole.start ∧ (target = left.start ∨ target = right.start) ∨
          (source = left.final ∨ source = right.final) ∧
            target = whole.final) := by
  simp only [alternationEdges, emptyEdge, List.mem_cons, Edge.mk.injEq,
    List.not_mem_nil, or_false]
  tauto

theorem source_of_mem_alternationEdges {edge : Edge}
    (added : edge ∈ alternationEdges left right whole) :
    edge.source = whole.start ∨ edge.source = left.final ∨
      edge.source = right.final :=
  (mem_alternationEdges_iff.1 added).2.imp And.left And.left

theorem Spans.alternate (leftSpans : left.Spans nfa leftPart)
    (rightSpans : right.Spans nfa rightPart)
    (composed :
      whole.IsComposed nfa (alternationEdges left right whole) grown) :
    whole.Spans grown
      (leftPart ∪ rightPart ∪ {whole.start, whole.final}) := by
  refine composed.spans (leftSpans.union rightSpans.toIsClosed) ?_
  rintro ⟨source, label, target⟩ member
  rcases (mem_alternationEdges_iff.1 member).2 with
    ⟨-, rfl | rfl⟩ | ⟨-, rfl⟩
  · exact .inl (.inl leftSpans.start_mem)
  · exact .inl (.inr rightSpans.start_mem)
  · exact .inr (.inr rfl)

theorem IsComposed.swap
    (composed :
      whole.IsComposed nfa (alternationEdges left right whole) grown) :
    whole.IsComposed nfa (alternationEdges right left whole) grown where
  start := composed.start
  final := composed.final
  distinct := composed.distinct
  contains := composed.contains
  grows source label target := by
    rw [composed.grows, mem_alternationEdges_iff, mem_alternationEdges_iff]
    tauto

/-- An alternation adds no edge at its final state. -/
theorem IsComposed.stuck_of_alternation (leftSpans : left.Spans nfa leftPart)
    (rightSpans : right.Spans nfa rightPart)
    (composed :
      whole.IsComposed nfa (alternationEdges left right whole) grown) :
    ∀ edge ∈ alternationEdges left right whole,
      edge.source ≠ whole.final := by
  intro edge added closes
  rcases source_of_mem_alternationEdges added with same | same | same <;>
    rw [closes] at same
  · exact composed.distinct same.symm
  · exact composed.final_not_mem leftSpans.toIsClosed
      (same ▸ leftSpans.final_mem)
  · exact composed.final_not_mem rightSpans.toIsClosed
      (same ▸ rightSpans.final_mem)

/-- In an alternation the paths on from the start of the left fragment spell
the words of this fragment. -/
theorem alternate_path_iff (leftSpans : left.Spans nfa leftPart)
    (rightSpans : right.Spans nfa rightPart)
    (disjoint : Disjoint leftPart rightPart)
    (composed :
      whole.IsComposed nfa (alternationEdges left right whole) grown)
    (word : List Char) :
    grown.Path left.start word whole.final ↔ word ∈ left.language nfa := by
  constructor
  · intro path
    have stuck := IsComposed.stuck_of_alternation leftSpans rightSpans composed
    have leaves : ∀ edge ∈ alternationEdges left right whole,
        edge.source ∈ leftPart →
          edge.source = left.final ∧ edge.label = .epsilon ∧
            (edge.target = whole.final ∨
              edge.target = left.start ∧ left.language nfa * 1 ≤ 1) := by
      rintro ⟨source, label, target⟩ member inside
      rcases mem_alternationEdges_iff.1 member with
        ⟨rfl, ⟨rfl, -⟩ | ⟨rfl | rfl, rfl⟩⟩
      · exact absurd inside (composed.start_not_mem leftSpans.toIsClosed)
      · exact ⟨rfl, rfl, .inl rfl⟩
      · exact absurd rightSpans.final_mem
          (Set.disjoint_left.1 disjoint inside)
    rcases composed.exists_path stuck leftSpans 1 Language.nil_mem_one leaves
        leftSpans.start_mem path with
      ⟨front, back, rfl, begins, ends⟩
    rw [(Language.mem_one back).1 ends, List.append_nil]
    exact begins
  · intro path
    have last : grown.Path left.final [] whole.final :=
      .ofEmptyEdge ((composed.grows _ _ _).2 (.inr
        (mem_alternationEdges_iff.2 ⟨rfl, .inr ⟨.inl rfl, rfl⟩⟩)))
    have whole := (composed.grows.grow_path path).trans last
    rwa [List.append_nil] at whole

/-- The words of an alternation are those of either fragment. -/
theorem language_alternate (leftSpans : left.Spans nfa leftPart)
    (rightSpans : right.Spans nfa rightPart)
    (disjoint : Disjoint leftPart rightPart)
    (composed :
      whole.IsComposed nfa (alternationEdges left right whole) grown) :
    whole.language grown = left.language nfa + right.language nfa := by
  have throughLeft :=
    alternate_path_iff leftSpans rightSpans disjoint composed
  have throughRight :=
    alternate_path_iff rightSpans leftSpans disjoint.symm composed.swap
  ext word
  rw [composed.mem_language_iff
    (fun _ member => (mem_alternationEdges_iff.1 member).1),
    Language.mem_add, ← throughLeft, ← throughRight]
  constructor
  · rintro ⟨next, new, path⟩
    rcases (mem_alternationEdges_iff.1 new).2 with
      ⟨-, rfl | rfl⟩ | ⟨same | same, -⟩
    · exact .inl path
    · exact .inr path
    · exact absurd (same ▸ leftSpans.final_mem)
        (composed.start_not_mem leftSpans.toIsClosed)
    · exact absurd (same ▸ rightSpans.final_mem)
        (composed.start_not_mem rightSpans.toIsClosed)
  · rintro (path | path)
    · exact ⟨left.start,
        mem_alternationEdges_iff.2 ⟨rfl, .inl ⟨rfl, .inl rfl⟩⟩, path⟩
    · exact ⟨right.start,
        mem_alternationEdges_iff.2 ⟨rfl, .inl ⟨rfl, .inr rfl⟩⟩, path⟩

theorem Drains.alternate (leftSpans : left.Spans nfa leftPart)
    (leftDrains : left.Drains nfa leftPart)
    (rightDrains : right.Drains nfa rightPart)
    (composed :
      whole.IsComposed nfa (alternationEdges left right whole) grown) :
    whole.Drains grown
      (leftPart ∪ rightPart ∪ {whole.start, whole.final}) := by
  have leave (fragment : Fragment)
      (either : fragment = left ∨ fragment = right) {id : StateId}
      {word : List Char} (path : nfa.Path id word fragment.final) :
      grown.Path id (word ++ []) whole.final := by
    refine (composed.grows.grow_path path).trans (.ofEmptyEdge ?_)
    exact (composed.grows _ _ _).2 (.inr (mem_alternationEdges_iff.2
      ⟨rfl, .inr ⟨either.imp (congrArg _) (congrArg _), rfl⟩⟩))
  rintro id ((inLeft | inRight) | rfl | rfl)
  · rcases leftDrains id inLeft with ⟨word, path⟩
    exact ⟨_, leave left (.inl rfl) path⟩
  · rcases rightDrains id inRight with ⟨word, path⟩
    exact ⟨_, leave right (.inr rfl) path⟩
  · rcases leftDrains _ leftSpans.start_mem with ⟨word, path⟩
    refine ⟨_, .empty ?_ (leave left (.inl rfl) path)⟩
    exact (composed.grows _ _ _).2 (.inr (mem_alternationEdges_iff.2
      ⟨rfl, .inl ⟨rfl, .inl rfl⟩⟩))
  · exact ⟨[], .done _⟩

end Alternation

/-! ## Repetition -/

section Repetition

variable {body whole : Fragment} {repetition : Repetition}

theorem mem_repetitionEdges_iff {source target : StateId} {label : Label} :
    ⟨source, label, target⟩ ∈ repetitionEdges body whole repetition ↔
      label = .epsilon ∧
        (source = whole.start ∧
            (target = body.start ∨
              repetition ≠ .oneOrMore ∧ target = whole.final) ∨
          source = body.final ∧
            (target = whole.final ∨
              repetition ≠ .zeroOrOne ∧ target = body.start)) := by
  cases repetition <;>
    simp only [repetitionEdges, emptyEdge, List.mem_cons, Edge.mk.injEq,
      List.not_mem_nil, or_false, ne_eq, reduceCtorEq, not_true,
      not_false_eq_true, true_and, false_and] <;>
    tauto

theorem source_of_mem_repetitionEdges {edge : Edge}
    (added : edge ∈ repetitionEdges body whole repetition) :
    edge.source = whole.start ∨ edge.source = body.final :=
  (mem_repetitionEdges_iff.1 added).2.imp And.left And.left

/-- What may follow one pass through the operand of a repetition. -/
def remainder (once : Language Char) : Repetition → Language Char
  | .zeroOrOne => 1
  | _ => once∗

theorem nil_mem_remainder (once : Language Char) (repetition : Repetition) :
    [] ∈ remainder once repetition := by
  cases repetition with
  | zeroOrOne => exact Language.nil_mem_one
  | zeroOrMore => exact Language.nil_mem_kstar once
  | oneOrMore => exact Language.nil_mem_kstar once

theorem mul_remainder_le (once : Language Char)
    (loops : repetition ≠ .zeroOrOne) :
    once * remainder once repetition ≤ remainder once repetition := by
  cases repetition with
  | zeroOrOne => exact absurd rfl loops
  | zeroOrMore => exact mul_kstar_le_kstar
  | oneOrMore => exact mul_kstar_le_kstar

/-- A repetition passes through its operand at least once or, if it may,
not at all. -/
theorem mem_language_iff_remainder {once : Language Char} {word : List Char} :
    word ∈ repetition.language once ↔
      word ∈ once * remainder once repetition ∨
        repetition ≠ .oneOrMore ∧ word = [] := by
  cases repetition with
  | zeroOrMore =>
      rw [Repetition.language, ← Language.one_add_self_mul_kstar_eq_kstar once,
        Language.mem_add, Language.mem_one, or_comm]
      simp [remainder]
  | oneOrMore => simp [Repetition.language, remainder]
  | zeroOrOne =>
      rw [Repetition.language, Language.mem_add, Language.mem_one, or_comm]
      simp [remainder]

theorem Spans.repeat (spans : body.Spans nfa part)
    (composed :
      whole.IsComposed nfa (repetitionEdges body whole repetition) grown) :
    whole.Spans grown (part ∪ {whole.start, whole.final}) := by
  refine composed.spans spans.toIsClosed ?_
  rintro ⟨source, label, target⟩ member
  rcases (mem_repetitionEdges_iff.1 member).2 with
    ⟨-, rfl | ⟨-, rfl⟩⟩ | ⟨-, rfl | ⟨-, rfl⟩⟩
  · exact .inl spans.start_mem
  · exact .inr (.inr rfl)
  · exact .inr (.inr rfl)
  · exact .inl spans.start_mem

/-- After one pass through the operand of a repetition the remaining passes
lead to the new final state. -/
theorem path_of_mem_remainder
    (composed :
      whole.IsComposed nfa (repetitionEdges body whole repetition) grown)
    {word : List Char}
    (member : word ∈ remainder (body.language nfa) repetition) :
    grown.Path body.final word whole.final := by
  have last : grown.Path body.final [] whole.final :=
    .ofEmptyEdge ((composed.grows _ _ _).2 (.inr
      (mem_repetitionEdges_iff.2 ⟨rfl, .inr ⟨rfl, .inl rfl⟩⟩)))
  by_cases loops : repetition = .zeroOrOne
  · subst loops
    exact (Language.mem_one word).1 member ▸ last
  · have passes : word ∈ (body.language nfa)∗ := by
      cases repetition with
      | zeroOrOne => exact absurd rfl loops
      | zeroOrMore => exact member
      | oneOrMore => exact member
    rcases Language.mem_kstar.1 passes with ⟨words, rfl, each⟩
    clear member passes
    induction words with
    | nil => exact last
    | cons head tail onward =>
        refine .empty ((composed.grows _ _ _).2 (.inr
          (mem_repetitionEdges_iff.2
            ⟨rfl, .inr ⟨rfl, .inr ⟨loops, rfl⟩⟩⟩))) ?_
        exact (composed.grows.grow_path (each head (.head _))).trans
          (onward fun word member => each word (.tail _ member))

/-- A repetition adds no edge at its final state. -/
theorem IsComposed.stuck_of_repetition (spans : body.Spans nfa part)
    (composed :
      whole.IsComposed nfa (repetitionEdges body whole repetition) grown) :
    ∀ edge ∈ repetitionEdges body whole repetition,
      edge.source ≠ whole.final := by
  intro edge added closes
  rcases source_of_mem_repetitionEdges added with same | same <;>
    rw [closes] at same
  · exact composed.distinct same.symm
  · exact composed.final_not_mem spans.toIsClosed (same ▸ spans.final_mem)

/-- The words of a repetition are the repetitions of the words of its
operand. -/
theorem language_repeat (spans : body.Spans nfa part)
    (composed :
      whole.IsComposed nfa (repetitionEdges body whole repetition) grown) :
    whole.language grown = repetition.language (body.language nfa) := by
  have stuck := IsComposed.stuck_of_repetition spans composed
  have leaves : ∀ edge ∈ repetitionEdges body whole repetition,
      edge.source ∈ part →
        edge.source = body.final ∧ edge.label = .epsilon ∧
          (edge.target = whole.final ∨ edge.target = body.start ∧
            body.language nfa * remainder (body.language nfa) repetition ≤
              remainder (body.language nfa) repetition) := by
    rintro ⟨source, label, target⟩ member inside
    rcases mem_repetitionEdges_iff.1 member with
      ⟨rfl, ⟨rfl, -⟩ | ⟨rfl, rfl | ⟨loops, rfl⟩⟩⟩
    · exact absurd inside (composed.start_not_mem spans.toIsClosed)
    · exact ⟨rfl, rfl, .inl rfl⟩
    · exact ⟨rfl, rfl, .inr ⟨rfl, mul_remainder_le _ loops⟩⟩
  ext word
  rw [composed.mem_language_iff
    (fun _ member => (mem_repetitionEdges_iff.1 member).1),
    mem_language_iff_remainder, Language.mem_mul]
  constructor
  · rintro ⟨next, new, path⟩
    rcases (mem_repetitionEdges_iff.1 new).2 with
      ⟨-, rfl | ⟨skips, rfl⟩⟩ | ⟨same, -⟩
    · rcases composed.exists_path stuck spans _ (nil_mem_remainder _ _)
          leaves spans.start_mem path with
        ⟨front, back, rfl, begins, ends⟩
      exact .inl ⟨front, begins, back, ends, rfl⟩
    · exact .inr ⟨skips, composed.eq_nil_of_path stuck path⟩
    · exact absurd (same ▸ spans.final_mem)
        (composed.start_not_mem spans.toIsClosed)
  · rintro (⟨front, begins, back, ends, rfl⟩ | ⟨skips, rfl⟩)
    · refine ⟨body.start,
        mem_repetitionEdges_iff.2 ⟨rfl, .inl ⟨rfl, .inl rfl⟩⟩, ?_⟩
      exact (composed.grows.grow_path begins).trans
        (path_of_mem_remainder composed ends)
    · exact ⟨whole.final, mem_repetitionEdges_iff.2
        ⟨rfl, .inl ⟨rfl, .inr ⟨skips, rfl⟩⟩⟩, .done _⟩

theorem Drains.repeat (spans : body.Spans nfa part)
    (drains : body.Drains nfa part)
    (composed :
      whole.IsComposed nfa (repetitionEdges body whole repetition) grown) :
    whole.Drains grown (part ∪ {whole.start, whole.final}) := by
  have leave {id : StateId} {word : List Char}
      (path : nfa.Path id word body.final) :
      grown.Path id (word ++ []) whole.final :=
    (composed.grows.grow_path path).trans
      (path_of_mem_remainder composed (nil_mem_remainder _ _))
  rintro id (inside | rfl | rfl)
  · rcases drains id inside with ⟨word, path⟩
    exact ⟨_, leave path⟩
  · rcases drains _ spans.start_mem with ⟨word, path⟩
    refine ⟨_, .empty ?_ (leave path)⟩
    exact (composed.grows _ _ _).2 (.inr (mem_repetitionEdges_iff.2
      ⟨rfl, .inl ⟨rfl, .inl rfl⟩⟩))
  · exact ⟨[], .done _⟩

end Repetition

/-! ## Characters -/

section Characters

variable {members : CharacterClass} {whole : Fragment}

theorem mem_characterEdges_iff {source target : StateId} {label : Label} :
    ⟨source, label, target⟩ ∈ characterEdges members whole ↔
      source = whole.start ∧ target = whole.final ∧
        ∃ character ∈ members, label = .char character := by
  simp only [characterEdges, List.mem_map, Std.ExtTreeSet.mem_toList,
    Edge.mk.injEq]
  constructor
  · rintro ⟨character, member, rfl, rfl, rfl⟩
    exact ⟨rfl, rfl, character, member, rfl⟩
  · rintro ⟨rfl, rfl, character, member, rfl⟩
    exact ⟨character, member, rfl, rfl, rfl⟩

theorem spans_characterEdges
    (composed : whole.IsComposed nfa (characterEdges members whole) grown) :
    whole.Spans grown {whole.start, whole.final} := by
  rw [← Set.empty_union {whole.start, whole.final}]
  refine composed.spans (.empty nfa) ?_
  rintro ⟨source, label, target⟩ member
  rcases mem_characterEdges_iff.1 member with ⟨-, rfl, -⟩
  exact .inr (.inr rfl)

/-- A class adds no edge at its final state. -/
theorem IsComposed.stuck_of_characters
    (composed : whole.IsComposed nfa (characterEdges members whole) grown) :
    ∀ edge ∈ characterEdges members whole, edge.source ≠ whole.final := by
  rintro ⟨source, label, target⟩ member rfl
  exact composed.distinct (mem_characterEdges_iff.1 member).1.symm

/-- The words of a class are the one-letter words of its members. -/
theorem language_characterEdges
    (composed : whole.IsComposed nfa (characterEdges members whole) grown) :
    whole.language grown =
      {word | ∃ character ∈ members, word = [character]} := by
  have stuck := IsComposed.stuck_of_characters composed
  ext word
  constructor
  · intro path
    rcases path.exists_first_edge composed.distinct with
      ⟨label, next, rest, edge, rfl, onward⟩
    rcases mem_characterEdges_iff.1 (composed.edge_of_start edge) with
      ⟨-, rfl, character, member, rfl⟩
    rw [composed.eq_nil_of_path stuck onward]
    exact ⟨character, member, rfl⟩
  · rintro ⟨character, member, rfl⟩
    exact .ofEdge ((composed.grows _ _ _).2 (.inr
      (mem_characterEdges_iff.2 ⟨rfl, rfl, character, member, rfl⟩)))

theorem drains_characterEdges
    (composed : whole.IsComposed nfa (characterEdges members whole) grown)
    (occupied : members ≠ ∅) :
    whole.Drains grown {whole.start, whole.final} := by
  rintro id (rfl | rfl)
  · rcases CharacterClass.exists_mem occupied with ⟨character, member⟩
    exact ⟨_, .ofEdge ((composed.grows _ _ _).2 (.inr
      (mem_characterEdges_iff.2 ⟨rfl, rfl, character, member, rfl⟩)))⟩
  · exact ⟨[], .done _⟩

end Characters

end Fragment

end PatternAutomata
