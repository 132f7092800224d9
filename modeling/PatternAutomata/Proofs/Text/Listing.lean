import PatternAutomata.Proofs.Dfa.Rebuilding
import PatternAutomata.Proofs.Text.Escape
import PatternAutomata.Text.Listing

/-!
# Listings can be read back

A listing gives no lengths, and some of its characters may look like a part of
its structure.  Still it is clear where everything ends.  A number ends before
the first character that is no digit, and a list of numbers before the first
one that is no separator either.  A character of an edge stands between a space
and a colon, and no colon is second in the name of the empty label.  In an
alphabet every character has a space or the end of the line after it; if there
is none, the end of the line comes first, and a letter follows.  So a listing
can be read back whatever the characters are, and automata with the same
listing have the same states and transitions.
-/

namespace PatternAutomata

namespace Text

theorem readText_lineEnd (rest : List Char) :
    readText "\n" ('\n' :: rest) = some rest :=
  readText_append "\n" rest

/-! ## Lists of numbers -/

/-- The numbers at the beginning of a text, with what follows them. -/
def readNumberList (sign : Char) (text : List Char) : List Nat × List Char :=
  let belongs := fun character : Char => character.isDigit || character == sign
  (readNumbers sign (text.takeWhile belongs), text.dropWhile belongs)

/-- A list of numbers is read back if neither a digit nor a separator follows
it. -/
theorem readNumberList_append {separator : String} {sign : Char}
    (single : separator.toList = [sign]) (apart : sign.isDigit = false)
    (ids : List Nat) {rest : List Char}
    (ended : ∀ character ∈ rest.head?,
      character.isDigit = false ∧ character ≠ sign) :
    readNumberList sign ((numbers separator ids).toList ++ rest) =
      (ids, rest) := by
  have inside : ∀ character ∈ (numbers separator ids).toList,
      (character.isDigit || character == sign) = true := by
    intro character member
    rw [Bool.or_eq_true, beq_iff_eq]
    exact mem_toList_numbers single member
  have outside : ∀ character ∈ rest.head?,
      (character.isDigit || character == sign) = false := by
    intro character next
    rw [Bool.or_eq_false_iff, beq_eq_false_iff_ne]
    exact ended character next
  rcases takeWhile_dropWhile_append inside outside with ⟨taken, dropped⟩
  rw [readNumberList, taken, dropped, readNumbers_numbers single apart]

/-- The numbers in a line, which follow a heading. -/
def readNumberLine (heading : String) (text : List Char) :
    Option (List Nat × List Char) := do
  let text ← readText heading text
  let (ids, text) := readNumberList ' ' text
  let text ← readText "\n" text
  return (ids, text)

theorem readNumberLine_append (heading : String) (ids : List Nat)
    (rest : List Char) :
    readNumberLine heading
        ((line (heading ++ numbers " " ids)).toList ++ rest) =
      some (ids, rest) := by
  have text : (line (heading ++ numbers " " ids)).toList ++ rest =
      heading.toList ++ ((numbers " " ids).toList ++ '\n' :: rest) := by
    simp [line]
  have space : " ".toList = [' '] := by simp
  have ended : ∀ character ∈ ('\n' :: rest).head?,
      character.isDigit = false ∧ character ≠ ' ' := by
    simp
  rw [text, readNumberLine]
  simp only [readText_append, readText_lineEnd, Option.bind_eq_bind,
    Option.bind_some, readNumberList_append space (by decide) ids ended]
  rfl

/-! ## Flags -/

/-- Whether a flag begins a text, and what follows it. -/
def readFlag (flag : String) (text : List Char) : Bool × List Char :=
  match readText flag text with
  | some rest => (true, rest)
  | none => (false, text)

/-- The flags at the beginning of a text, with what follows them. -/
def readFlags (text : List Char) : (Bool × Bool) × List Char :=
  let (isStart, text) := readFlag " start" text
  let (isFinal, text) := readFlag " accepting" text
  ((isStart, isFinal), text)

theorem readFlags_append (isStart isFinal : Bool) (rest : List Char) :
    readFlags ((flags isStart isFinal).toList ++ '\n' :: rest) =
      ((isStart, isFinal), '\n' :: rest) := by
  cases isStart <;> cases isFinal <;>
    simp [readFlags, readFlag, flags, readText, List.dropPrefix?]

/-! ## Rows -/

/-- An entry of a row ends here. -/
def EndsEntry (rest : List Char) : Prop :=
  ∀ character ∈ rest.head?, character = ' ' ∨ character = '\n'

theorem EndsEntry.endsNumber {rest : List Char} (ends : EndsEntry rest) :
    EndsNumber rest := by
  intro character next
  rcases ends character next with rfl | rfl <;> decide

theorem EndsEntry.endsNumbers {rest : List Char} (ends : EndsEntry rest) :
    ∀ character ∈ rest.head?,
      character.isDigit = false ∧ character ≠ ',' := by
  intro character next
  rcases ends character next with rfl | rfl <;> decide

/-- The number and the entries of a row. -/
def readRow {α : Type} (readEntry : List Char → Option (α × List Char))
    (text : List Char) : Option ((Nat × List α) × List Char) := do
  let (id, text) := readNumber text
  let text ← readText " ->" text
  let (entries, text) := readMany readEntry text
  let text ← readText "\n" text
  return ((id, entries), text)

/-- A row with a number and entries. -/
def rowText {β : Type} (write : β → String) (row : Nat × List β) : String :=
  line (toString row.1 ++ " ->" ++ String.join (row.2.map write))

/-- A row is read back if its entries are, each of which begins with a
space. -/
theorem ReadsBefore.readRow {α β : Type}
    {readEntry : List Char → Option (α × List Char)} {write : β → String}
    {value : β → α}
    (reads : ReadsBefore EndsEntry readEntry
      (fun entry => (write entry).toList) value)
    (spaced : ∀ entry, (write entry).toList.head? = some ' ')
    (ended : ∀ rest, readEntry ('\n' :: rest) = none) :
    Reads (Text.readRow readEntry) (fun row => (rowText write row).toList)
      fun row => (row.1, row.2.map value) := by
  intro row rest
  have starts (entry : β) (rest : List Char) :
      EndsEntry ((write entry).toList ++ rest) := by
    intro character next
    rw [List.head?_append, spaced] at next
    exact .inl (Option.some.inj next).symm
  have finishes : EndsEntry ('\n' :: rest) := by simp [EndsEntry]
  have entries := reads.readMany starts finishes (ended rest) row.2
  have text : (rowText write row).toList ++ rest =
      (toString row.1).toList ++ (" ->".toList ++
        (row.2.flatMap (fun entry => (write entry).toList) ++
          '\n' :: rest)) := by
    simp [rowText, line, List.flatMap_map]
  have arrow : EndsNumber (" ->".toList ++
      (row.2.flatMap (fun entry => (write entry).toList) ++
        '\n' :: rest)) := by
    simp [EndsNumber]
  dsimp only
  rw [text, Text.readRow]
  simp only [readNumber_append row.1 arrow, readText_append, entries,
    readText_lineEnd, Option.bind_eq_bind, Option.bind_some]
  rfl

/-- No row is left at the end of a text. -/
theorem readRow_nil {α : Type}
    (readEntry : List Char → Option (α × List Char)) :
    readRow readEntry [] = none :=
  rfl

/-! ## Characters of an alphabet -/

/-- The characters before the end of a line, with spaces between them, and what
follows the line. -/
def readSpaced : List Char → Option (List Char × List Char)
  | character :: '\n' :: rest => some ([character], rest)
  | character :: ' ' :: rest => do
      let (characters, rest) ← readSpaced rest
      return (character :: characters, rest)
  | '\n' :: rest => some ([], rest)
  | _ => none

/-- Characters are read back if the next line begins with no space and is not
empty. -/
theorem readSpaced_append (characters : List Char) {rest : List Char}
    (apart : ∀ next ∈ rest.head?, next ≠ ' ' ∧ next ≠ '\n') :
    readSpaced ((" ".intercalate (characters.map String.singleton)).toList ++
        '\n' :: rest) =
      some (characters, rest) := by
  induction characters with
  | nil =>
      rw [List.map_nil, String.intercalate_nil, String.toList_empty,
        List.nil_append]
      cases rest with
      | nil => rfl
      | cons next rest =>
          rcases apart next rfl with ⟨noSpace, noEnd⟩
          rw [readSpaced] <;> grind
  | cons character characters others =>
      cases characters with
      | nil => simp [readSpaced]
      | cons second characters =>
          have text : (" ".intercalate
                ((character :: second :: characters).map
                  String.singleton)).toList ++ '\n' :: rest =
              character :: ' ' ::
                ((" ".intercalate ((second :: characters).map
                  String.singleton)).toList ++ '\n' :: rest) := by
            simp
          rw [text, readSpaced, others]
          rfl

example : readSpaced "\n   \n\nAccepting".toList =
    some (['\n', ' ', '\n'], "Accepting".toList) := by
  decide

end Text

/-- Entries tell a map if what they tell of a value is its own. -/
theorem map_toList_eq_iff {κ τ υ : Type} [Ord κ] [Std.TransOrd κ]
    {tell : τ → υ} (injective : Function.Injective tell)
    {first second : Std.ExtTreeMap κ τ} :
    (first.toList.map fun entry => (entry.1, tell entry.2)) =
        (second.toList.map fun entry => (entry.1, tell entry.2)) ↔
      first = second := by
  have entries : Function.Injective fun entry : κ × τ =>
      (entry.1, tell entry.2) :=
    Function.injective_id.prodMap injective
  rw [(List.map_injective_iff.2 entries).eq_iff, Std.ExtTreeMap.toList_inj]

/-! ## Automata with empty edges -/

namespace Nfa

/-- What the listing of an automaton tells. -/
structure Content where
  /-- The states with their flags. -/
  states : List (StateId × Bool × Bool)
  /-- The targets by label, for the states that have any. -/
  rows : List (StateId × List (Label × List StateId))
deriving DecidableEq, Repr

/-- The line of a state. -/
def readState (text : List Char) :
    Option ((StateId × Bool × Bool) × List Char) := do
  let (id, text) := Text.readNumber text
  let text ← Text.readText ":" text
  let (flags, text) := Text.readFlags text
  let text ← Text.readText "\n" text
  return ((id, flags), text)

/-- The label before a colon, and what follows the colon. -/
def readLabel : List Char → Option (Label × List Char)
  | character :: ':' :: rest => some (.char character, rest)
  | text => do
      let rest ← Text.readText "epsilon:" text
      return (.epsilon, rest)

/-- The edges with one label. -/
def readEdges (text : List Char) :
    Option ((Label × List StateId) × List Char) := do
  let text ← Text.readText " " text
  let (label, text) ← readLabel text
  let (targets, text) := Text.readNumberList ',' text
  return ((label, targets), text)

/-- What a listing tells. -/
def Content.read? (listing : String) : Option Content := do
  let text ← Text.readText (Text.line "NFA" ++ Text.line "States:")
    listing.toList
  let (states, text) := Text.readMany readState text
  let text ← Text.readText (Text.line "Transitions:") text
  let (rows, text) := Text.readMany (Text.readRow readEdges) text
  if text.isEmpty then return ⟨states, rows⟩ else none

/-- The targets of a state by label, as they are written. -/
def State.entries (state : State) : List (Label × List StateId) :=
  state.edges.toList.map fun entry => (entry.1, entry.2.toList)

/-- The rows of the states that have edges. -/
def rowsOf (states : List (StateId × State)) :
    List (StateId × List (Label × List StateId)) :=
  (states.filter fun numbered => !numbered.2.edges.isEmpty).map
    fun numbered => (numbered.1, numbered.2.entries)

/-- The content of the listing of an automaton. -/
def content (nfa : Nfa) : Content where
  states := nfa.numberedStates.map fun numbered =>
    (numbered.1, numbered.2.isStart, numbered.2.isFinal)
  rows := rowsOf nfa.numberedStates

theorem reads_state :
    Text.Reads readState
      (fun numbered : StateId × State =>
        (stateLine numbered.1 numbered.2).toList)
      fun numbered => (numbered.1, numbered.2.isStart, numbered.2.isFinal) := by
  rintro ⟨id, state⟩ rest
  have text : (stateLine id state).toList ++ rest =
      (toString id).toList ++ (":".toList ++
        ((Text.flags state.isStart state.isFinal).toList ++
          '\n' :: rest)) := by
    simp [stateLine, Text.line]
  have ended : Text.EndsNumber (":".toList ++
      ((Text.flags state.isStart state.isFinal).toList ++ '\n' :: rest)) := by
    simp [Text.EndsNumber]
  dsimp only
  rw [text, readState]
  simp only [Text.readNumber_append id ended, Text.readText_append,
    Text.readFlags_append, Text.readText_lineEnd, Option.bind_eq_bind,
    Option.bind_some]
  rfl

/-- The colon tells a label that is a character from the empty one. -/
theorem readLabel_text (label : Label) (rest : List Char) :
    readLabel (label.text.toList ++ ':' :: rest) = some (label, rest) := by
  cases label with
  | epsilon => simp [Label.text, readLabel, Text.readText, List.dropPrefix?]
  | char character => simp [Label.text, readLabel]

theorem readsBefore_edges :
    Text.ReadsBefore Text.EndsEntry readEdges
      (fun entry : Label × StateSet => (edgesText entry.1 entry.2).toList)
      fun entry => (entry.1, entry.2.toList) := by
  rintro ⟨label, targets⟩ rest ends
  have text : (edgesText label targets).toList ++ rest =
      " ".toList ++ (label.text.toList ++ ':' ::
        ((Text.numbers "," targets.toList).toList ++ rest)) := by
    simp [edgesText, StateSet.text]
  have comma : ",".toList = [','] := by simp
  have numbers := Text.readNumberList_append comma (by decide) targets.toList
    ends.endsNumbers
  dsimp only
  rw [text, readEdges]
  simp only [Text.readText_append, readLabel_text, numbers,
    Option.bind_eq_bind, Option.bind_some]
  rfl

theorem reads_edgesLine :
    Text.Reads (Text.readRow readEdges)
      (fun numbered : StateId × State =>
        (edgesLine numbered.1 numbered.2).toList)
      fun numbered => (numbered.1, numbered.2.entries) := by
  have rows := readsBefore_edges.readRow (by simp [edgesText])
    (by simp [readEdges, Text.readText, List.dropPrefix?])
  exact fun numbered rest => rows (numbered.1, numbered.2.edges.toList) rest

theorem readState_transitions (rest : List Char) :
    readState ((Text.line "Transitions:").toList ++ rest) = none := by
  simp [readState, Text.readNumber, Text.line, Text.readText,
    List.dropPrefix?]

/-- A listing is read back. -/
theorem read?_listing (nfa : Nfa) :
    Content.read? nfa.listing = some nfa.content := by
  have text : nfa.listing.toList =
      (Text.line "NFA" ++ Text.line "States:").toList ++
        (nfa.numberedStates.flatMap (fun numbered =>
            (stateLine numbered.1 numbered.2).toList) ++
          ((Text.line "Transitions:").toList ++
            ((nfa.numberedStates.filter fun numbered =>
                !numbered.2.edges.isEmpty).flatMap (fun numbered =>
                  (edgesLine numbered.1 numbered.2).toList) ++ []))) := by
    simp only [listing, String.toList_append, String.toList_join,
      List.flatMap_map, List.append_assoc, List.append_nil]
  have states (rest : List Char) :=
    reads_state.readMany (readState_transitions rest) nfa.numberedStates
  have rows := reads_edgesLine.readMany (Text.readRow_nil readEdges)
  rw [Content.read?, text]
  simp only [Text.readText_append, states, rows, Option.bind_eq_bind,
    Option.bind_some]
  rfl

/-! ### What the content tells -/

theorem State.entries_eq_iff {state other : State} :
    state.entries = other.entries ↔ state.edges = other.edges :=
  map_toList_eq_iff fun _ _ => Std.ExtTreeSet.toList_inj.1

theorem State.entries_of_isEmpty {state : State}
    (silent : state.edges.isEmpty = true) : state.entries = [] := by
  rw [entries, Std.ExtTreeMap.isEmpty_iff.1 silent]
  rfl

/-- The entries of a state are found in its row, if it has one. -/
theorem lookup_rowsOf {states : List (StateId × State)}
    (distinct : (states.map Prod.fst).Nodup) {numbered : StateId × State}
    (member : numbered ∈ states) :
    ((rowsOf states).lookup numbered.1).getD [] = numbered.2.entries := by
  induction states with
  | nil => exact nomatch member
  | cons first states found =>
      rw [List.map_cons, List.nodup_cons] at distinct
      rcases distinct with ⟨new, distinct⟩
      rcases List.mem_cons.1 member with rfl | later
      · cases silent : numbered.2.edges.isEmpty with
        | false => simp [rowsOf, silent]
        | true =>
            have missing : (rowsOf states).lookup numbered.1 = none := by
              rw [List.lookup_eq_none_iff]
              intro row inside
              rcases List.mem_map.1 inside with ⟨other, known, rfl⟩
              rw [bne_iff_ne]
              intro same
              exact new (same ▸ List.mem_map_of_mem (List.mem_filter.1 known).1)
            have skipped : rowsOf (numbered :: states) = rowsOf states := by
              simp [rowsOf, silent]
            rw [skipped, missing, State.entries_of_isEmpty silent]
            rfl
      · have other : (numbered.1 == first.1) = false := by
          rw [beq_eq_false_iff_ne]
          intro same
          exact new (same ▸ List.mem_map_of_mem later)
        rw [← found distinct later]
        cases silent : first.2.edges.isEmpty <;>
          simp [rowsOf, silent, List.lookup_cons, other]

theorem nodup_map_fst_numberedStates (nfa : Nfa) :
    (nfa.numberedStates.map Prod.fst).Nodup := by
  rw [numberedStates, List.map_fst_zip (by simp [ids, size])]
  exact List.nodup_range'

/-- Automata whose listings have the same content have the same states. -/
theorem numberedStates_eq_of_content_eq {first second : Nfa}
    (same : first.content = second.content) :
    first.numberedStates = second.numberedStates := by
  let written (numbered : StateId × State) :=
    ((numbered.1, numbered.2.isStart, numbered.2.isFinal), numbered.2.entries)
  have told (nfa : Nfa) : nfa.numberedStates.map written =
      nfa.content.states.map fun state =>
        (state, (nfa.content.rows.lookup state.1).getD []) := by
    rw [content, List.map_map]
    apply List.map_congr_left
    intro numbered member
    have entries := lookup_rowsOf nfa.nodup_map_fst_numberedStates member
    rw [Function.comp_apply, entries]
  have injective : Function.Injective written := by
    rintro ⟨id, state⟩ ⟨other, another⟩ equal
    simp only [written, Prod.mk.injEq, State.entries_eq_iff] at equal
    rcases equal with ⟨⟨rfl, isStart, isFinal⟩, edges⟩
    cases state
    cases another
    simp_all
  apply List.map_injective_iff.2 injective
  rw [told, told, same]

end Nfa

/-! ## Automata without empty edges -/

namespace Dfa

/-- What the listing of an automaton tells. -/
structure Content where
  /-- The states with their members and flags. -/
  states : List (Nat × List StateId × Bool × Bool)
  /-- The characters of the automaton. -/
  alphabet : List Char
  /-- The accepting states. -/
  accepting : List Nat
  /-- The other states. -/
  nonAccepting : List Nat
  /-- The targets by character, for the states that have a row. -/
  rows : List (Nat × List (Char × Nat))
deriving DecidableEq, Repr

/-- The line of a state. -/
def readState (text : List Char) :
    Option ((Nat × List StateId × Bool × Bool) × List Char) := do
  let (id, text) := Text.readNumber text
  let text ← Text.readText ": \x7b" text
  let (members, text) := Text.readNumberList ',' text
  let text ← Text.readText "\x7d" text
  let (flags, text) := Text.readFlags text
  let text ← Text.readText "\n" text
  return ((id, members, flags), text)

/-- The transition on one character. -/
def readTransition (text : List Char) :
    Option ((Char × Nat) × List Char) := do
  let text ← Text.readText " " text
  let (character, text) ← Text.readEscaped text
  let text ← Text.readText ":" text
  let (target, text) := Text.readNumber text
  return ((character, target), text)

/-- What a listing tells. -/
def Content.read? (listing : String) : Option Content := do
  let text ← Text.readText (Text.line "DFA" ++ Text.line "States:")
    listing.toList
  let (states, text) := Text.readMany readState text
  let text ← Text.readText "Alphabet: " text
  let (alphabet, text) ← Text.readSpaced text
  let (accepting, text) ← Text.readNumberLine "Accepting states: " text
  let (nonAccepting, text) ←
    Text.readNumberLine "Non-accepting states: " text
  let text ← Text.readText (Text.line "Transitions:") text
  let (rows, text) := Text.readMany (Text.readRow readTransition) text
  if text.isEmpty then
    return ⟨states, alphabet, accepting, nonAccepting, rows⟩
  else none

/-- A state as it is written. -/
def State.written (state : State) : Nat × List StateId × Bool × Bool :=
  (state.id, state.members.toList, state.isStart, state.isFinal)

/-- The content of the listing of an automaton. -/
def content (dfa : Dfa) : Content where
  states := dfa.states.toList.map State.written
  alphabet := dfa.alphabet
  accepting := dfa.accepting
  nonAccepting := dfa.nonAccepting
  rows := dfa.transitions.toList.map fun row => (row.1, row.2.toList)

theorem reads_state :
    Text.Reads readState (fun state => (stateLine state).toList)
      State.written := by
  intro state rest
  have text : (stateLine state).toList ++ rest =
      (toString state.id).toList ++ (": \x7b".toList ++
        ((Text.numbers "," state.members.toList).toList ++
          ("\x7d".toList ++
            ((Text.flags state.isStart state.isFinal).toList ++
              '\n' :: rest)))) := by
    simp [stateLine, StateSet.text, Text.line]
  have ended (rest : List Char) :
      Text.EndsNumber (": \x7b".toList ++ rest) := by
    simp [Text.EndsNumber]
  have comma : ",".toList = [','] := by simp
  have closed (rest : List Char) :
      ∀ character ∈ ("\x7d".toList ++ rest).head?,
        character.isDigit = false ∧ character ≠ ',' := by
    simp
  have members (rest : List Char) := Text.readNumberList_append comma
    (by decide) state.members.toList (closed rest)
  dsimp only
  rw [text, readState]
  simp only [Text.readNumber_append state.id (ended _), Text.readText_append,
    members, Text.readFlags_append, Text.readText_lineEnd, Option.bind_eq_bind,
    Option.bind_some]
  rfl

theorem readsBefore_transition :
    Text.ReadsBefore Text.EndsEntry readTransition
      (fun entry : Char × Nat => (transitionText entry.1 entry.2).toList)
      id := by
  rintro ⟨character, target⟩ rest ends
  have text : (transitionText character target).toList ++ rest =
      " ".toList ++ ((Text.escape character).toList ++ (":".toList ++
        ((toString target).toList ++ rest))) := by
    simp [transitionText]
  have escaped (rest : List Char) := Text.reads_escape character rest
  dsimp only at escaped ⊢
  rw [text, readTransition]
  simp only [Text.readText_append, escaped,
    Text.readNumber_append target ends.endsNumber, Option.bind_eq_bind,
    Option.bind_some]
  rfl

theorem reads_transitionsLine :
    Text.Reads (Text.readRow readTransition)
      (fun row : Nat × Std.ExtTreeMap Char Nat =>
        (transitionsLine row.1 row.2).toList)
      fun row => (row.1, row.2.toList) := by
  have rows := readsBefore_transition.readRow (by simp [transitionText])
    (by simp [readTransition, Text.readText, List.dropPrefix?])
  intro row rest
  have read := rows (row.1, row.2.toList) rest
  simp only [List.map_id] at read
  exact read

theorem readState_alphabet (rest : List Char) :
    readState ("Alphabet: ".toList ++ rest) = none := by
  simp [readState, Text.readNumber, Text.readText, List.dropPrefix?]

/-- A listing is read back. -/
theorem read?_listing (dfa : Dfa) :
    Content.read? dfa.listing = some dfa.content := by
  let classes (rest : List Char) : List Char :=
    (Text.line ("Accepting states: " ++
        Text.numbers " " dfa.accepting)).toList ++
      ((Text.line ("Non-accepting states: " ++
          Text.numbers " " dfa.nonAccepting)).toList ++ rest)
  have text : dfa.listing.toList =
      (Text.line "DFA" ++ Text.line "States:").toList ++
        (dfa.states.toList.flatMap (fun state => (stateLine state).toList) ++
          ("Alphabet: ".toList ++
            ((" ".intercalate (dfa.alphabet.map String.singleton)).toList ++
              '\n' :: classes ((Text.line "Transitions:").toList ++
                (dfa.transitions.toList.flatMap (fun row =>
                  (transitionsLine row.1 row.2).toList) ++ []))))) := by
    simp [listing, classes, Text.line, List.flatMap_map]
  have states (rest : List Char) :=
    reads_state.readMany (readState_alphabet rest) dfa.states.toList
  have apart (rest : List Char) :
      ∀ next ∈ (classes rest).head?, next ≠ ' ' ∧ next ≠ '\n' := by
    simp [classes, Text.line]
  have alphabet (rest : List Char) :=
    Text.readSpaced_append dfa.alphabet (apart rest)
  have rows := reads_transitionsLine.readMany
    (Text.readRow_nil readTransition)
  rw [Content.read?, text]
  simp only [Text.readText_append, states, alphabet, Option.bind_eq_bind,
    Option.bind_some]
  simp only [classes, Text.readNumberLine_append, Text.readText_append, rows,
    Option.bind_some]
  rfl

/-! ### What the content tells -/

/-- The automaton before any state is dealt with. -/
def unmarked (dfa : Dfa) : Dfa :=
  { dfa with states := dfa.states.map State.unmarked }

theorem State.written_eq_iff {state other : State} :
    state.written = other.written ↔ state.unmarked = other.unmarked := by
  simp [written, unmarked, Std.ExtTreeSet.toList_inj]

theorem map_written_eq_iff {first second : List State} :
    first.map State.written = second.map State.written ↔
      first.map State.unmarked = second.map State.unmarked := by
  simp only [List.ext_getElem?_iff, List.getElem?_map]
  apply forall_congr'
  intro place
  cases first[place]? <;> cases second[place]? <;>
    simp [State.written_eq_iff]

theorem listing_unmarked (dfa : Dfa) : dfa.unmarked.listing = dfa.listing := by
  have states : dfa.unmarked.states.toList.map stateLine =
      dfa.states.toList.map stateLine := by
    rw [unmarked, Array.toList_map, List.map_map]
    rfl
  rw [listing, states]
  rfl

theorem members_unmarked (dfa : Dfa) : dfa.unmarked.members = dfa.members := by
  funext id
  rw [members, unmarked, Array.getElem?_map, Option.map_map]
  rfl

theorem rebuild_eq_of_states_eq {first second : Dfa}
    (states : first.states = second.states)
    (transitions : first.transitions = second.transitions) :
    first.rebuild = second.rebuild := by
  have members : first.members = second.members := by
    funext id
    rw [Dfa.members, Dfa.members, states]
  rw [rebuild, rebuild, records, records, states, transitions, members]

/-- Building an automaton again does not depend on marks. -/
theorem rebuild_unmarked (dfa : Dfa) : dfa.unmarked.rebuild = dfa.rebuild := by
  have records : dfa.unmarked.records = dfa.records := by
    rw [Dfa.records, members_unmarked]
    rfl
  rw [rebuild, records, unmarked, Array.toList_map, ofRecords_map_unmarked]
  rfl

/-- Automata whose listings have the same content are the same but for marks.
What is not written is what building them again gives. -/
theorem unmarked_eq_of_content_eq {first second : Dfa}
    (constructed : first.Constructed) (otherConstructed : second.Constructed)
    (same : first.content = second.content) :
    first.unmarked = second.unmarked := by
  simp only [content, Content.mk.injEq] at same
  rcases same with ⟨written, alphabet, accepting, nonAccepting, rows⟩
  have states : first.unmarked.states = second.unmarked.states := by
    rw [← Array.toList_inj, unmarked, unmarked, Array.toList_map,
      Array.toList_map]
    exact map_written_eq_iff.1 written
  have transitions : first.transitions = second.transitions :=
    (map_toList_eq_iff fun _ _ => Std.ExtTreeMap.toList_inj.1).1 rows
  have rebuilt : first.rebuild = second.rebuild := by
    rw [← first.rebuild_unmarked, ← second.rebuild_unmarked]
    exact rebuild_eq_of_states_eq states transitions
  have copy := constructed.isCoherent.isCopy_rebuild
    constructed.start_eq_firstStart
  have otherCopy := otherConstructed.isCoherent.isCopy_rebuild
    otherConstructed.start_eq_firstStart
  rw [rebuilt] at copy
  have index := copy.index.symm.trans otherCopy.index
  have start := copy.start.symm.trans otherCopy.start
  have structural := copy.structural.symm.trans otherCopy.structural
  rw [unmarked, unmarked, Dfa.mk.injEq]
  exact ⟨states, index, start, transitions, structural, accepting,
    nonAccepting, alphabet⟩

end Dfa

/-! ## Listings -/

/-- Automata with the same listing have the same numbers, flags and edges.
Without empty edges they are the same but for the marks of exploration. -/
theorem listing_unambiguous :
    (∀ first second : Nfa,
        first.listing = second.listing ↔
          first.numberedStates = second.numberedStates) ∧
      ∀ first second : Dfa, first.Constructed → second.Constructed →
        (first.listing = second.listing ↔
          first.unmarked = second.unmarked) := by
  constructor
  · intro first second
    constructor
    · intro same
      have read := first.read?_listing
      rw [same, second.read?_listing] at read
      exact Nfa.numberedStates_eq_of_content_eq (Option.some.inj read).symm
    · intro same
      rw [Nfa.listing, same, Nfa.listing]
  · intro first second constructed otherConstructed
    constructor
    · intro same
      have read := first.read?_listing
      rw [same, second.read?_listing] at read
      exact Dfa.unmarked_eq_of_content_eq constructed otherConstructed
        (Option.some.inj read).symm
    · intro same
      rw [← first.listing_unmarked, same, second.listing_unmarked]

/-- Characters that look like parts of a listing. -/
def lookalikes : Nfa :=
  (((Nfa.empty.addState 0).addState 0).addEdges
    [⟨0, .char ' ', 1⟩, ⟨0, .char '\n', 1⟩, ⟨0, .char ':', 1⟩,
      ⟨0, .char '1', 1⟩, ⟨0, .char 'e', 1⟩, ⟨0, .epsilon, 0⟩]).markTerminals

/-- Only the marks tell the automaton of subsets from the minimal one. -/
theorem listing_unambiguous_lookalikes :
    lookalikes.listing =
        "NFA\nStates:\n0: start accepting\n1:\nTransitions:\n" ++
          "0 -> epsilon:0 \n:1  :1 1:1 ::1 e:1\n" ∧
      (Dfa.ofNfa lookalikes).Constructed ∧
      (Dfa.ofNfa lookalikes).minimize.Constructed ∧
      Dfa.ofNfa lookalikes ≠ (Dfa.ofNfa lookalikes).minimize ∧
      (Dfa.ofNfa lookalikes).listing =
        (Dfa.ofNfa lookalikes).minimize.listing ∧
      (Dfa.ofNfa lookalikes).unmarked =
        (Dfa.ofNfa lookalikes).minimize.unmarked := by
  have only : lookalikes.ReachesOnlyStates := by
    apply (Nfa.reachesOnlyStates_iff (by decide +kernel)).2
    decide +kernel
  have built : lookalikes.Built :=
    (Nfa.Built.addEdges ((Nfa.Built.empty.addState 0).addState 0)
      _).markTerminals
  have constructed : (Dfa.ofNfa lookalikes).Constructed :=
    .ofNfa built (.inr only)
  have same : (Dfa.ofNfa lookalikes).listing =
      (Dfa.ofNfa lookalikes).minimize.listing := by
    decide +kernel
  refine ⟨by decide +kernel, constructed, constructed.minimize,
    by decide +kernel, same, ?_⟩
  exact (listing_unambiguous.2 _ _ constructed constructed.minimize).1 same

end PatternAutomata
