import PatternAutomata.Proofs.Dfa.Representation
import PatternAutomata.Proofs.Scanner.Program

/-!
# What skeletons do

The program that a skeleton is read back as has one case for every state of the
automaton, in the order of the states, and in each case the transitions of the
state.  So it takes the same steps as the automaton, with numbers that are
greater by one, and it enters the error where a transition is missing.
-/

namespace PatternAutomata.Scanner

variable {dfa : Dfa} {program : Program} {word : List Char}

/-! ## The parts of a program -/

/-- A program has the start, the states and the transitions of an automaton. -/
structure Program.Encodes (program : Program) (dfa : Dfa) : Prop where
  /-- The program starts in the start state, or in the error if there is no
  state. -/
  start_eq : program.start =
    if dfa.size = 0 then program.error else numberOf dfa.start
  /-- The error has the number minus one. -/
  error_eq : program.error = -1
  /-- There is one case for every state, in the order of the states. -/
  numbers_eq : program.branches.map Branch.number =
    (List.range dfa.size).map numberOf
  /-- The cases of the characters are in ascending order. -/
  ordered : ∀ branch ∈ program.branches,
    branch.transitions.Pairwise fun first second => first.1 < second.1
  /-- The case of a state has the transitions of the state. -/
  mem_transitions_iff : ∀ (id : Nat) (branch : Branch),
    program.branches[id]? = some branch →
      ∀ (character : Char) (number : Int),
        (character, number) ∈ branch.transitions ↔
          ∃ target, dfa.target? id character = some target ∧
            number = numberOf target
  /-- On other inputs the error is entered. -/
  otherwise_eq : ∀ branch ∈ program.branches,
    branch.otherwise = program.error

theorem map_id_states (consistent : dfa.IsConsistent) :
    dfa.states.toList.map Dfa.State.id = List.range dfa.size := by
  apply List.ext_getElem
  · simp [Dfa.size]
  · intro id inside bound
    rw [List.length_map, Array.length_toList] at inside
    simpa using consistent.id_eq (Array.getElem?_eq_getElem inside)

/-- The case at the place of a state is the one that is written for it. -/
theorem branches_programOf (consistent : dfa.IsConsistent) :
    (programOf dfa).branches = (List.range dfa.size).map (branchOf dfa) := by
  rw [← map_id_states consistent, List.map_map]
  rfl

theorem encodes_programOf (consistent : dfa.IsConsistent) :
    (programOf dfa).Encodes dfa where
  start_eq := by simp [programOf, Dfa.size, Array.isEmpty]
  error_eq := rfl
  numbers_eq := by
    rw [branches_programOf consistent, List.map_map]
    rfl
  ordered := by
    intro branch member
    rcases List.mem_map.1 member with ⟨state, -, rfl⟩
    exact List.pairwise_map.2 (dfa.pairwise_row state.id)
  mem_transitions_iff := by
    intro id branch found character number
    rw [branches_programOf consistent, List.getElem?_map,
      Option.map_eq_some_iff] at found
    rcases found with ⟨place, found, rfl⟩
    rcases List.getElem?_eq_some_iff.1 found with ⟨bound, rfl⟩
    rw [List.getElem_range]
    simp only [branchOf, List.mem_map, Prod.exists, Prod.mk.injEq]
    constructor
    · rintro ⟨read, target, member, rfl, rfl⟩
      exact ⟨target, Dfa.mem_row_iff.1 member, rfl⟩
    · rintro ⟨target, edge, rfl⟩
      exact ⟨character, target, Dfa.mem_row_iff.2 edge, rfl, rfl⟩
  otherwise_eq := by
    intro branch member
    rcases List.mem_map.1 member with ⟨state, -, rfl⟩
    rfl

/-! ## Steps -/

theorem passes_error (word : List Char) :
    program.passes program.error word = [program.error] := by
  cases word <;> simp [Program.passes]

namespace Program.Encodes

variable {id target : Nat} {branch : Branch} {character : Char}

theorem numberOf_ne_error (encodes : program.Encodes dfa) (id : Nat) :
    numberOf id ≠ program.error := by
  rw [encodes.error_eq, numberOf]
  omega

theorem number_eq (encodes : program.Encodes dfa)
    (found : program.branches[id]? = some branch) :
    branch.number = numberOf id := by
  have place := congrArg (·[id]?) encodes.numbers_eq
  simp only [List.getElem?_map, found, Option.map_some] at place
  rcases Option.map_eq_some_iff.1 place.symm with ⟨other, within, same⟩
  rcases List.getElem?_eq_some_iff.1 within with ⟨bound, rfl⟩
  rw [← same, List.getElem_range]

/-- The case that is chosen for a state is the one at its place. -/
theorem exists_find?_eq (encodes : program.Encodes dfa)
    (inside : id < dfa.size) :
    ∃ branch, program.branches[id]? = some branch ∧
      (program.branches.find? fun branch => branch.number = numberOf id) =
        some branch := by
  have length := congrArg List.length encodes.numbers_eq
  simp only [List.length_map, List.length_range] at length
  have bound : id < program.branches.length := length ▸ inside
  refine ⟨program.branches[id], List.getElem?_eq_getElem bound, ?_⟩
  rw [List.find?_eq_some_iff_getElem]
  refine ⟨?_, id, bound, rfl, ?_⟩
  · simpa using encodes.number_eq (List.getElem?_eq_getElem bound)
  · -- The cases before it have smaller numbers.
    intro earlier before
    have number := encodes.number_eq
      (List.getElem?_eq_getElem (before.trans bound))
    simp only [number, numberOf, Bool.not_eq_true', decide_eq_false_iff_not]
    omega

/-- A case enters the targets of the transitions, and else the error. -/
theorem next_eq (encodes : program.Encodes dfa)
    (found : program.branches[id]? = some branch) (character : Char) :
    branch.next character =
      ((dfa.target? id character).map numberOf).getD program.error := by
  have member := encodes.mem_transitions_iff id branch found character
  have known : branch ∈ program.branches := List.mem_of_getElem? found
  rw [Branch.next, encodes.otherwise_eq branch known]
  congr 1
  cases looked : branch.transitions.lookup character with
  | some number =>
      rcases List.lookup_eq_some_iff.1 looked with ⟨front, back, same, -⟩
      have listed : (character, number) ∈ branch.transitions := by simp [same]
      rcases (member number).1 listed with ⟨target, edge, rfl⟩
      rw [edge, Option.map_some]
  | none =>
      cases edge : dfa.target? id character with
      | none => rfl
      | some target =>
          have listed := (member _).2 ⟨target, edge, rfl⟩
          simpa using List.lookup_eq_none_iff.1 looked _ listed

theorem passes_cons (encodes : program.Encodes dfa) (inside : id < dfa.size)
    (character : Char) (rest : List Char) :
    program.passes (numberOf id) (character :: rest) =
      numberOf id :: program.passes
        (((dfa.target? id character).map numberOf).getD program.error)
        rest := by
  rcases encodes.exists_find?_eq inside with ⟨branch, place, chosen⟩
  rw [Program.passes, if_neg (encodes.numberOf_ne_error id)]
  simp only [chosen, encodes.next_eq place]

/-- A transition is one step. -/
theorem passes_cons_of_target (encodes : program.Encodes dfa)
    (consistent : dfa.IsConsistent)
    (edge : dfa.target? id character = some target) (rest : List Char) :
    program.passes (numberOf id) (character :: rest) =
      numberOf id :: program.passes (numberOf target) rest := by
  rw [encodes.passes_cons (consistent.lt_of_target edge).1, edge]
  rfl

/-- A missing transition is a step into the error, which is the last one. -/
theorem passes_cons_of_missing (encodes : program.Encodes dfa)
    (inside : id < dfa.size) (missing : dfa.target? id character = none)
    (rest : List Char) :
    program.passes (numberOf id) (character :: rest) =
      [numberOf id, program.error] := by
  rw [encodes.passes_cons inside, missing, Option.map_none, Option.getD_none,
    passes_error]

/-! ## Runs -/

/-- Along a run the program goes through the states of the run. -/
theorem passes_of_run? (encodes : program.Encodes dfa)
    (consistent : dfa.IsConsistent)
    (found : dfa.run? id word = some target) :
    (program.passes (numberOf id) word).map some =
      word.inits.map fun front =>
        (dfa.run? id front).map numberOf := by
  induction word generalizing id with
  | nil => rfl
  | cons character rest follows =>
      rw [Dfa.run?_cons, Option.bind_eq_some_iff] at found
      rcases found with ⟨middle, edge, found⟩
      rw [encodes.passes_cons_of_target consistent edge, List.map_cons,
        follows found]
      simp [Function.comp_def, edge]

/-- Where a run ends the program enters the error and stops. -/
theorem passes_append_of_missing (encodes : program.Encodes dfa)
    (consistent : dfa.IsConsistent) (inside : id < dfa.size)
    (found : dfa.run? id word = some target)
    (missing : dfa.target? target character = none) (rest : List Char) :
    program.passes (numberOf id) (word ++ character :: rest) =
      program.passes (numberOf id) word ++ [program.error] := by
  -- The induction goes forward from any state, as the program does.
  induction word generalizing id with
  | nil =>
      rw [Dfa.run?_nil, Option.some.injEq] at found
      subst found
      exact encodes.passes_cons_of_missing inside missing rest
  | cons read word follows =>
      rw [Dfa.run?_cons, Option.bind_eq_some_iff] at found
      rcases found with ⟨middle, edge, found⟩
      rw [List.cons_append, encodes.passes_cons_of_target consistent edge,
        encodes.passes_cons_of_target consistent edge,
        follows (consistent.lt_of_target edge).2 found, List.cons_append]

end Program.Encodes

/-- A program takes the steps of an automaton. -/
structure Program.Follows (program : Program) (dfa : Dfa) : Prop where
  /-- Along a run it goes through the numbers of the states of the run. -/
  execute_of_run? : 0 < dfa.size → ∀ (word : List Char) (reached : Nat),
    dfa.run? dfa.start word = some reached →
      (program.execute word).map some = word.inits.map fun front =>
        (dfa.run? dfa.start front).map numberOf
  /-- At the first missing transition it enters the error, and stops. -/
  execute_of_missing : 0 < dfa.size → ∀ (word : List Char) (reached : Nat)
    (character : Char) (rest : List Char),
    dfa.run? dfa.start word = some reached →
      dfa.target? reached character = none →
        program.execute (word ++ character :: rest) =
          program.execute word ++ [-1]
  /-- Without states it is in the error from the start. -/
  execute_of_empty : dfa.size = 0 → ∀ word, program.execute word = [-1]

theorem Program.Encodes.follows (encodes : program.Encodes dfa)
    (consistent : dfa.IsConsistent) (hasStart : dfa.HasStart) :
    program.Follows dfa where
  execute_of_run? := by
    intro nonempty word reached found
    rw [Program.execute, encodes.start_eq, if_neg nonempty.ne']
    exact encodes.passes_of_run? consistent found
  execute_of_missing := by
    intro nonempty word reached character rest found missing
    rw [Program.execute, Program.execute, encodes.start_eq,
      if_neg nonempty.ne', ← encodes.error_eq]
    exact encodes.passes_append_of_missing consistent
      (hasStart.start_lt nonempty) found missing rest
  execute_of_empty := by
    intro empty word
    rw [Program.execute, encodes.start_eq, if_pos empty, passes_error,
      encodes.error_eq]

/-- The text of a skeleton tells the automaton: it is read back as a program
that has the states and the transitions of the automaton and takes its
steps. -/
theorem skeleton_tells_automaton (constructed : dfa.Constructed) :
    ∃ program, Program.read? (skeleton dfa) = some program ∧
      program.Encodes dfa ∧ program.Follows dfa := by
  have consistent := constructed.isCoherent.consistent
  have encodes := encodes_programOf consistent
  exact ⟨programOf dfa, read?_skeleton dfa, encodes,
    encodes.follows consistent constructed.isCoherent.hasStart⟩

/-- Characters that end a line, indent it, end the label of a case, quote, or
are a digit. -/
def lookalikes : Dfa :=
  .ofRecords [.new 0 {0} true false, .new 1 {1} false true]
    [⟨{0}, '\n', {1}⟩, ⟨{0}, ':', {0}⟩, ⟨{1}, '"', {1}⟩,
      ⟨{1}, '\t', {0}⟩, ⟨{1}, '2', {0}⟩]

theorem skeleton_tells_automaton_lookalikes :
    lookalikes.Constructed ∧
      ∃ program, Program.read? (skeleton lookalikes) = some program ∧
        program.Encodes lookalikes ∧ program.Follows lookalikes ∧
        program.execute ['\n', '"', '\t', ':'] = [1, 2, 2, 1, 1] ∧
        program.execute ['\n', '"', '\t', ':', '2', ':'] =
          [1, 2, 2, 1, 1, -1] := by
  have constructed : lookalikes.Constructed := .ofRecords _ _
  rcases skeleton_tells_automaton constructed with
    ⟨program, read, encodes, follows⟩
  have nonempty : 0 < lookalikes.size := by decide +kernel
  have run : lookalikes.run? lookalikes.start ['\n', '"', '\t', ':'] =
      some 0 := by decide +kernel
  have steps := follows.execute_of_run? nonempty _ _ run
  have front : program.execute ['\n', '"', '\t', ':'] =
      [1, 2, 2, 1, 1] := by
    apply List.map_injective_iff.2 (Option.some_injective _)
    rw [steps]
    decide +kernel
  have last := follows.execute_of_missing nonempty _ _ '2' [':'] run
    (by decide +kernel)
  rw [front] at last
  exact ⟨constructed, program, read, encodes, follows, front, last⟩

end PatternAutomata.Scanner
