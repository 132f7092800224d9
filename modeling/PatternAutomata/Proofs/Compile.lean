import PatternAutomata.Compile
import PatternAutomata.Proofs.Dfa.Isomorphism
import PatternAutomata.Proofs.Nfa.Thompson
import PatternAutomata.Proofs.Pattern.Parser

/-!
# What patterns compile to

A pattern compiles if the grammar derives it, and then it has one syntax tree.
The three compilations accept the words that the tree denotes, and among the
deterministic automata with these words the minimal one has the fewest states.
Patterns with the same words have the same minimal automaton, up to the numbers
of its states.
-/

namespace PatternAutomata

open Pattern

variable {pattern : String} {nfa : Nfa} {dfa : Dfa}

/-! ## Patterns that compile -/

theorem Nfa.ofPattern_eq_ok_iff {pattern : List Char} {supply : IdSupply} :
    (Nfa.ofPattern pattern supply).1 = .ok nfa ↔
      ∃ tree, Derives .expression pattern tree ∧
        nfa = (Nfa.ofRegex tree supply).1 := by
  constructor
  · intro parsed
    rcases Nfa.exists_regex_of_ofPattern parsed with ⟨tree, read, same⟩
    exact ⟨tree, Parser.parse_eq_ok_iff.1 read, same⟩
  · rintro ⟨tree, derived, rfl⟩
    rw [Nfa.ofPattern, Parser.parse_eq_ok_iff.2 derived]

/-- The reader succeeds on the patterns that are derived from the grammar,
whatever number comes next. -/
theorem Nfa.ofPattern_succeeds_iff_derives (pattern : List Char)
    (supply : IdSupply) :
    (∃ nfa, (Nfa.ofPattern pattern supply).1 = .ok nfa) ↔
      ∃ tree, Derives .expression pattern tree := by
  simp only [Nfa.ofPattern_eq_ok_iff]
  constructor
  · rintro ⟨nfa, tree, derived, -⟩
    exact ⟨tree, derived⟩
  · rintro ⟨tree, derived⟩
    exact ⟨_, tree, derived, rfl⟩

theorem map_eq_ok_iff {ε α β : Type} {first : Except ε α} {next : α → β}
    {result : β} :
    first.map next = .ok result ↔
      ∃ value, first = .ok value ∧ next value = result := by
  cases first <;> simp [Except.map]

theorem compileNfa_eq_ok_iff :
    compileNfa pattern = .ok nfa ↔
      ∃ tree, Derives .expression pattern.toList tree ∧
        nfa = (Nfa.ofRegex tree .fresh).1.markTerminals := by
  rw [compileNfa, map_eq_ok_iff]
  simp only [Nfa.ofPattern_eq_ok_iff]
  constructor
  · rintro ⟨bare, ⟨tree, derived, rfl⟩, rfl⟩
    exact ⟨tree, derived, rfl⟩
  · rintro ⟨tree, derived, rfl⟩
    exact ⟨_, ⟨tree, derived, rfl⟩, rfl⟩

theorem compileDfa_eq_ok_iff :
    compileDfa pattern = .ok dfa ↔
      ∃ nfa, compileNfa pattern = .ok nfa ∧ Dfa.ofNfa nfa = dfa := by
  rw [compileDfa, map_eq_ok_iff]

theorem compile_eq_ok_iff :
    compile pattern = .ok dfa ↔
      ∃ nfa, compileNfa pattern = .ok nfa ∧
        (Dfa.ofNfa nfa).minimize = dfa := by
  rw [compile, map_eq_ok_iff]
  simp only [compileDfa_eq_ok_iff]
  constructor
  · rintro ⟨subsets, ⟨nfa, compiled, rfl⟩, rfl⟩
    exact ⟨nfa, compiled, rfl⟩
  · rintro ⟨nfa, compiled, rfl⟩
    exact ⟨_, ⟨nfa, compiled, rfl⟩, rfl⟩

/-! ## Words of patterns -/

/-- The automaton comes about by flagging the terminals of the automaton of an
expression without empty classes. -/
structure Nfa.IsMarked (nfa : Nfa) (tree : Regex) : Prop where
  realizes : nfa.Realizes tree
  hasMembers : tree.HasMembers
  built : nfa.Built
  isFinal : ∀ id, nfa.isFinal id = true ↔ id = nfa.final

theorem isMarked_of_compileNfa (compiled : compileNfa pattern = .ok nfa) :
    ∃ tree, Derives .expression pattern.toList tree ∧ nfa.IsMarked tree := by
  rcases compileNfa_eq_ok_iff.1 compiled with ⟨tree, derived, rfl⟩
  have realizes := Nfa.realizes_ofRegex tree .fresh
  refine ⟨tree, derived, realizes.markTerminals,
    Parser.hasMembers_of_derives derived, ?_, ?_⟩
  · exact .markTerminals
      (.parsed (Nfa.ofPattern_eq_ok_iff.2 ⟨tree, derived, rfl⟩))
  · intro id
    rw [Nfa.isFinal_markTerminals, Nfa.final_markTerminals]
    apply and_iff_left_of_imp
    rintro rfl
    exact realizes.final

namespace Nfa.IsMarked

variable {tree : Regex} {word : List Char}

theorem exists_path_iff (marked : nfa.IsMarked tree) :
    (∃ id, nfa.Path nfa.start word id ∧ nfa.isFinal id = true) ↔
      word ∈ tree.language := by
  simp only [marked.isFinal, exists_eq_right, marked.realizes.language]

theorem isSubsetAutomaton (marked : nfa.IsMarked tree) :
    (Dfa.ofNfa nfa).IsSubsetAutomaton nfa :=
  Dfa.isSubsetAutomaton_ofNfa marked.realizes.only

theorem isTrim (marked : nfa.IsMarked tree) : (Dfa.ofNfa nfa).IsTrim := by
  apply marked.isSubsetAutomaton.isTrim marked.realizes.only
  intro source contains
  rcases marked.realizes.drains marked.hasMembers source contains with
    ⟨word, path⟩
  exact ⟨word, nfa.final, path, (marked.isFinal _).2 rfl⟩

theorem accepts_ofNfa_iff (marked : nfa.IsMarked tree) :
    (Dfa.ofNfa nfa).accepts word = true ↔ word ∈ tree.language := by
  rw [marked.isSubsetAutomaton.accepts_iff marked.realizes.only]
  exact marked.exists_path_iff

theorem accepts_minimize (marked : nfa.IsMarked tree) (word : List Char) :
    (Dfa.ofNfa nfa).minimize.accepts word = (Dfa.ofNfa nfa).accepts word :=
  marked.isSubsetAutomaton.accepts_minimize marked.realizes.only marked.built
    word

/-- Simulation refuses nothing and agrees with the automaton of subsets. -/
theorem accepts_eq_ok (marked : nfa.IsMarked tree) (word : List Char) :
    Nfa.Checked.accepts nfa word = .ok ((Dfa.ofNfa nfa).accepts word) :=
  marked.isSubsetAutomaton.checked_accepts_eq_ok marked.realizes.only word

end Nfa.IsMarked

/-- A pattern that compiles has one syntax tree, and each of its automata
accepts the words that the tree denotes. -/
theorem compiled_accept_denotation (pattern : String) (nfa : Nfa)
    (compiled : compileNfa pattern = .ok nfa) :
    ∃ tree dfa minimal,
      (∀ other, Derives .expression pattern.toList other ↔ other = tree) ∧
      compileDfa pattern = .ok dfa ∧ compile pattern = .ok minimal ∧
      ∀ word, ∃ answer : Bool, (answer = true ↔ word ∈ tree.language) ∧
        Nfa.Checked.accepts nfa word = .ok answer ∧
        dfa.accepts word = answer ∧ minimal.accepts word = answer := by
  rcases isMarked_of_compileNfa compiled with ⟨tree, derived, marked⟩
  refine ⟨tree, Dfa.ofNfa nfa, (Dfa.ofNfa nfa).minimize, ?_, ?_, ?_, ?_⟩
  · intro other
    constructor
    · exact Parser.tree_unique derived
    · rintro rfl
      exact derived
  · exact compileDfa_eq_ok_iff.2 ⟨nfa, compiled, rfl⟩
  · exact compile_eq_ok_iff.2 ⟨nfa, compiled, rfl⟩
  · intro word
    exact ⟨(Dfa.ofNfa nfa).accepts word, marked.accepts_ofNfa_iff,
      marked.accepts_eq_ok word, rfl, marked.accepts_minimize word⟩

/-- The tree of the pattern `(a|b)*[c-e]&d+|f?`. -/
def mixedTree : Regex :=
  .alternation
    (.concatenation
      (.concatenation
        (.repeated .zeroOrMore (.alternation (.literal 'a') (.literal 'b')))
        (.oneOf (CharacterClass.insertRange 'c' 'e' ∅)))
      (.repeated .oneOrMore (.literal 'd')))
    (.repeated .zeroOrOne (.literal 'f'))

theorem compiled_accept_denotation_mixed :
    ∃ nfa, compileNfa "(a|b)*[c-e]&d+|f?" = .ok nfa ∧
      ∃ tree dfa minimal,
        (∀ other, Derives .expression "(a|b)*[c-e]&d+|f?".toList other ↔
          other = tree) ∧
        compileDfa "(a|b)*[c-e]&d+|f?" = .ok dfa ∧
        compile "(a|b)*[c-e]&d+|f?" = .ok minimal ∧
        ∀ word, ∃ answer : Bool, (answer = true ↔ word ∈ tree.language) ∧
          Nfa.Checked.accepts nfa word = .ok answer ∧
          dfa.accepts word = answer ∧ minimal.accepts word = answer := by
  have read : Parser.parse "(a|b)*[c-e]&d+|f?".toList = .ok mixedTree := by
    decide +kernel
  have compiled : compileNfa "(a|b)*[c-e]&d+|f?" =
      .ok (Nfa.ofRegex mixedTree .fresh).1.markTerminals :=
    compileNfa_eq_ok_iff.2 ⟨mixedTree, Parser.parse_eq_ok_iff.1 read, rfl⟩
  exact ⟨_, compiled, compiled_accept_denotation _ _ compiled⟩

/-! ## The number of states -/

/-- No automaton with the same words has fewer states than the one that a
pattern compiles to. -/
theorem compile_has_fewest_states {σ : Type*} [Fintype σ] (pattern : String)
    (dfa : Dfa) (compiled : compile pattern = .ok dfa)
    (automaton : Acceptor σ)
    (same : ∀ word, automaton.Accepts word ↔ dfa.accepts word = true) :
    dfa.size ≤ Fintype.card σ := by
  rcases compile_eq_ok_iff.1 compiled with ⟨nfa, compiledNfa, rfl⟩
  rcases isMarked_of_compileNfa compiledNfa with ⟨tree, -, marked⟩
  apply marked.isSubsetAutomaton.size_minimize_le_card marked.realizes.only
    marked.isTrim
  intro word
  rw [same, marked.accepts_minimize]

/-- Two states that alternate while the letter `a` is read, and accept. -/
def alternating : Acceptor Bool where
  start := false
  step state character := if character = 'a' then some (!state) else none
  accepting := Set.univ

theorem alternating_acceptsFrom_iff (state : Bool) (word : List Char) :
    alternating.AcceptsFrom state word ↔ ∀ letter ∈ word, letter = 'a' := by
  induction word generalizing state with
  | nil => simp [Acceptor.AcceptsFrom, Acceptor.run?, alternating]
  | cons letter word accepts =>
      rw [List.forall_mem_cons, ← accepts (!state)]
      by_cases same : letter = 'a' <;>
        simp [Acceptor.AcceptsFrom, Acceptor.run?, alternating, same]

theorem mem_language_star_iff (character : Char) (word : List Char) :
    word ∈ (Regex.repeated .zeroOrMore (.literal character)).language ↔
      ∀ letter ∈ word, letter = character := by
  change word ∈ KStar.kstar ({[character]} : Language Char) ↔ _
  rw [Language.mem_kstar]
  constructor
  · rintro ⟨parts, rfl, single⟩ letter member
    rcases List.mem_flatten.1 member with ⟨part, inside, member⟩
    rw [single part inside] at member
    exact List.mem_singleton.1 member
  · intro same
    refine ⟨word.map fun letter => [letter], ?_, ?_⟩
    · rw [← List.flatMap_def, List.flatMap_singleton']
    · intro part inside
      rcases List.mem_map.1 inside with ⟨letter, member, rfl⟩
      rw [same letter member]
      rfl

theorem compile_has_fewest_states_star :
    ∃ dfa, compile "a*" = .ok dfa ∧ dfa.size = 1 ∧
      (∀ word, alternating.Accepts word ↔ dfa.accepts word = true) ∧
      dfa.size ≤ Fintype.card Bool := by
  have read : Parser.parse "a*".toList =
      .ok (.repeated .zeroOrMore (.literal 'a')) := by
    decide +kernel
  have derived := Parser.parse_eq_ok_iff.1 read
  have compiledNfa : compileNfa "a*" = .ok (Nfa.ofRegex
      (.repeated .zeroOrMore (.literal 'a')) .fresh).1.markTerminals :=
    compileNfa_eq_ok_iff.2 ⟨_, derived, rfl⟩
  rcases isMarked_of_compileNfa compiledNfa with
    ⟨tree, treeDerived, marked⟩
  have compiled := compile_eq_ok_iff.2 ⟨_, compiledNfa, rfl⟩
  have same (word : List Char) : alternating.Accepts word ↔
      (Dfa.ofNfa (Nfa.ofRegex (.repeated .zeroOrMore (.literal 'a'))
        .fresh).1.markTerminals).minimize.accepts word = true := by
    rw [marked.accepts_minimize, marked.accepts_ofNfa_iff,
      Parser.tree_unique derived treeDerived, mem_language_star_iff]
    exact alternating_acceptsFrom_iff _ word
  refine ⟨_, compiled, ?_, same, ?_⟩
  · decide +kernel
  · exact compile_has_fewest_states "a*" _ compiled alternating same

/-! ## One automaton for the same words -/

theorem isReduced_of_compile (compiled : compile pattern = .ok dfa) :
    dfa.IsReduced := by
  rcases compile_eq_ok_iff.1 compiled with ⟨nfa, compiledNfa, rfl⟩
  rcases isMarked_of_compileNfa compiledNfa with ⟨tree, -, marked⟩
  exact marked.isSubsetAutomaton.isReduced_minimize marked.realizes.only
    marked.built marked.isTrim

/-- Patterns with the same words compile to isomorphic automata. -/
theorem compile_isomorphic_of_same_words (first second : String)
    (dfa other : Dfa) (compiled : compile first = .ok dfa)
    (otherCompiled : compile second = .ok other)
    (same : ∀ word, dfa.accepts word = other.accepts word) :
    ∃ image, dfa.IsIsomorphism other image :=
  (isReduced_of_compile compiled).exists_isIsomorphism
    (isReduced_of_compile otherCompiled) same

theorem exists_compile_of_derives {tree : Regex}
    (derived : Derives .expression pattern.toList tree) :
    ∃ dfa, compile pattern = .ok dfa ∧
      ∀ word, dfa.accepts word = true ↔ word ∈ tree.language := by
  have compiledNfa := compileNfa_eq_ok_iff.2 ⟨tree, derived, rfl⟩
  rcases isMarked_of_compileNfa compiledNfa with ⟨other, otherDerived, marked⟩
  rw [Parser.tree_unique derived otherDerived] at marked
  refine ⟨_, compile_eq_ok_iff.2 ⟨_, compiledNfa, rfl⟩, ?_⟩
  intro word
  rw [marked.accepts_minimize, marked.accepts_ofNfa_iff]

/-- A letter and any number of it are one or more of it. -/
theorem compile_isomorphic_of_same_words_plus :
    ∃ dfa other, compile "aa*" = .ok dfa ∧ compile "a+" = .ok other ∧
      (∀ word, dfa.accepts word = other.accepts word) ∧
      ∃ image, dfa.IsIsomorphism other image := by
  have read : Parser.parse "aa*".toList = .ok (.concatenation (.literal 'a')
      (.repeated .zeroOrMore (.literal 'a'))) := by
    decide +kernel
  have otherRead : Parser.parse "a+".toList =
      .ok (.repeated .oneOrMore (.literal 'a')) := by
    decide +kernel
  rcases exists_compile_of_derives (Parser.parse_eq_ok_iff.1 read) with
    ⟨dfa, compiled, accepts⟩
  rcases exists_compile_of_derives (Parser.parse_eq_ok_iff.1 otherRead) with
    ⟨other, otherCompiled, otherAccepts⟩
  have same (word : List Char) : dfa.accepts word = other.accepts word := by
    rw [Bool.eq_iff_iff, accepts, otherAccepts]
    rfl
  exact ⟨dfa, other, compiled, otherCompiled, same,
    compile_isomorphic_of_same_words "aa*" "a+" dfa other compiled
      otherCompiled same⟩

end PatternAutomata
