import Mathlib.Data.Nat.Find
import PatternAutomata.Proofs.Pattern.Bracket

/-!
# Which bracket expressions are read

A bracket expression reaches up to the first closing bracket after its opening
one, and its body is what stands in between.  Without a closing bracket the
rest of the pattern takes the place of the body.  The reader succeeds if there
is a closing bracket and the body is not empty and has no descending range.
Otherwise it reports the leftmost problem: the first range that descends, or
else that the body is empty, or else that the closing bracket is missing.
-/

namespace PatternAutomata.Bracket

/-- The characters before the first closing bracket, all of them if there is
none. -/
def bodyOf (characters : List Char) : List Char :=
  characters.takeWhile fun character => character ≠ ']'

/-- The range that starts at a place of the body ends below its start. -/
structure DescendsAt (body : List Char) (place : Nat) (first last : Char) :
    Prop where
  dash : isRangeDash body (place + 1) = true
  starts : body[place]? = some first
  ends : body[place + 2]? = some last
  descends : last < first

/-- The first range of the body that descends. -/
structure DescendsFirst (body : List Char) (place : Nat) (first last : Char) :
    Prop where
  here : DescendsAt body place first last
  least : ∀ earlier lower upper,
    DescendsAt body earlier lower upper → place ≤ earlier

/-- No range of the body descends. -/
def Ascends (body : List Char) : Prop :=
  ∀ place first last, ¬DescendsAt body place first last

/-- The leftmost problem of a bracket expression, from the characters after
its opening bracket. -/
inductive Fails (opening : Nat) (characters : List Char) : SyntaxError → Prop
  | descendingRange {place : Nat} {first last : Char} :
      DescendsFirst (bodyOf characters) place first last →
      Fails opening characters
        (.descendingRange first last (opening + 1 + (place + 2)))
  | emptyClass : characters.head? = some ']' →
      Fails opening characters (.emptyClass opening)
  | unterminatedClass : Ascends (bodyOf characters) → ']' ∉ characters →
      Fails opening characters (.unterminatedClass opening)

/-- The first closing bracket after an opening one. -/
structure IsFirstClosing (pattern : List Char) (opening closing : Nat) :
    Prop where
  closes : pattern[closing]? = some ']'
  after : opening < closing
  least : ∀ place, opening < place → place < closing →
    pattern[place]? ≠ some ']'

variable {opening place : Nat} {expectation : Expectation}
  {members : CharacterClass} {characters body rest tail : List Char}
  {first last : Char}

/-! ## Bodies -/

theorem bodyOf_append_eq (unclosed : ']' ∉ body) (others : List Char) :
    bodyOf (body ++ others) = body ++ bodyOf others := by
  refine List.takeWhile_append_of_pos ?_
  rintro character member
  refine decide_eq_true ?_
  rintro rfl
  exact unclosed member

theorem bodyOf_append_closing (unclosed : ']' ∉ body) (others : List Char) :
    bodyOf (body ++ ']' :: others) = body := by
  rw [bodyOf_append_eq unclosed, bodyOf,
    List.takeWhile_cons_of_neg (by simp), List.append_nil]

theorem bodyOf_eq_self (unclosed : ']' ∉ characters) :
    bodyOf characters = characters := by
  have whole := bodyOf_append_eq unclosed []
  rw [List.append_nil] at whole
  exact whole.trans (List.append_nil _)

/-- A body goes on to its closing bracket or to the end of the pattern. -/
theorem bodyOf_cases (characters : List Char) :
    ']' ∉ bodyOf characters ∧
      ((']' ∉ characters ∧ characters = bodyOf characters) ∨
        ∃ others, characters = bodyOf characters ++ ']' :: others) := by
  by_cases closed : ']' ∈ characters
  · rcases List.eq_append_cons_of_mem closed with ⟨body, others, rfl, unclosed⟩
    rw [bodyOf_append_closing unclosed]
    exact ⟨unclosed, .inr ⟨others, rfl⟩⟩
  · rw [bodyOf_eq_self closed]
    exact ⟨closed, .inl ⟨closed, rfl⟩⟩

theorem ascending_iff :
    (∀ first last, HasRange body first last → first ≤ last) ↔
      Ascends body := by
  constructor
  · rintro ascending place first last ⟨dash, starts, ends, descends⟩
    exact Char.not_le.2 descends
      (ascending first last ⟨place, dash, starts, ends⟩)
  · rintro ascends first last ⟨place, dash, starts, ends⟩
    by_contra descends
    exact ascends place first last
      ⟨dash, starts, ends, Char.not_le.1 descends⟩

/-! ## Descending ranges -/

theorem DescendsAt.lt_length (descends : DescendsAt body place first last) :
    place + 2 < body.length :=
  (List.getElem?_eq_some_iff.1 descends.ends).1

theorem exists_of_fits_rangeEnd
    (fits : (Expectation.rangeEnd first).Fits body place) :
    ∃ start, place = start + 2 := by
  cases place with
  | zero => exact nomatch fits
  | succ place =>
      rcases fits with ⟨-, start, rfl, -⟩
      exact ⟨start, rfl⟩

/-- Where the end of a range is expected the range ends. -/
theorem descendsAt_iff_of_rangeEnd {start : Nat} {lower upper : Char}
    (fits : (Expectation.rangeEnd first).Fits body (start + 2))
    (found : body[start + 2]? = some last) :
    DescendsAt body start lower upper ↔
      lower = first ∧ upper = last ∧ last < first := by
  rcases fits with ⟨dash, earlier, same, starts⟩
  cases same
  constructor
  · rintro ⟨-, lowerFound, upperFound, descends⟩
    rw [starts] at lowerFound
    rw [found] at upperFound
    cases lowerFound
    cases upperFound
    exact ⟨rfl, rfl, descends⟩
  · rintro ⟨rfl, rfl, descends⟩
    exact ⟨dash, starts, found, descends⟩

/-- The character does not end a range that descends. -/
def GoesOn (expectation : Expectation) (character : Char) : Prop :=
  ∀ first, expectation = .rangeEnd first → ¬character < first

/-- A range that ends later than before a character ends after it, if the
character goes on. -/
theorem DescendsAt.passes {start : Nat} {character : Char}
    (fits : expectation.Fits body place)
    (found : body[place]? = some character)
    (goesOn : GoesOn expectation character)
    (descends : DescendsAt body start first last) (later : place ≤ start + 2) :
    place + 1 ≤ start + 2 := by
  refine Nat.lt_of_le_of_ne later ?_
  rintro rfl
  cases expectation with
  | rangeEnd begin =>
      rcases (descendsAt_iff_of_rangeEnd fits found).1 descends with
        ⟨-, -, ends⟩
      exact goesOn begin rfl ends
  | member previous =>
      have plain : isRangeDash body (start + 1) = false := fits.2
      exact nomatch plain.symm.trans descends.dash

/-- Before more characters without a closing bracket a dash starts a range. -/
theorem rangeStart?_of_ne_nil (previous : Option Char) (character : Char)
    (unclosed : ']' ∉ rest) (more : rest ≠ []) (tail : List Char) :
    rangeStart? previous character (rest ++ tail) =
      if character = '-' ∧ rest ≠ [] then previous else none := by
  cases rest with
  | nil => exact absurd rfl more
  | cons head others =>
      have differs : head ≠ ']' := by
        rintro rfl
        exact unclosed List.mem_cons_self
      simp [rangeStart?, differs]

/-- What the reader expects after a character of the body fits its next
place. -/
theorem exists_readFrom_step {character : Char}
    (unclosed : ']' ∉ character :: rest)
    (fits : expectation.Fits body place)
    (here : body.drop place = character :: rest) (more : rest ≠ [])
    (goesOn : GoesOn expectation character) (members : CharacterClass)
    (position : Nat) (tail : List Char) :
    ∃ following larger, following.Fits body (place + 1) ∧
      readFrom opening position expectation members
          (character :: (rest ++ tail)) =
        readFrom opening (position + 1) following larger (rest ++ tail) := by
  rw [List.mem_cons, not_or] at unclosed
  rcases unclosed with ⟨differs, unclosed⟩
  have found := (unread_cons here).1
  cases expectation with
  | rangeEnd begin =>
      rw [readFrom, if_neg (goesOn begin rfl)]
      exact ⟨.member (some character), _,
        ⟨found.symm, isRangeDash_of_rangeEnd fits⟩, rfl⟩
  | member previous =>
      rw [readFrom, if_neg (Ne.symm differs),
        rangeStart?_of_ne_nil previous character unclosed more]
      split
      · next begin starts =>
          rcases (startsRange_iff fits here).1 starts with ⟨dash, before⟩
          exact ⟨.rangeEnd begin, _, fits_rangeEnd fits dash before, rfl⟩
      · next plain =>
          exact ⟨.member (some character), _,
            ⟨found.symm, isRangeDash_eq_false fits here plain⟩, rfl⟩

/-- The reader stops at the first descending range that is still to end,
whether the body is closed or not. -/
theorem readFrom_of_descends (unclosed : ']' ∉ rest)
    (fits : expectation.Fits body place) (here : body.drop place = rest)
    (tail : List Char) {start : Nat} (later : place ≤ start + 2)
    (descends : DescendsAt body start first last)
    (least : ∀ earlier lower upper, place ≤ earlier + 2 →
      DescendsAt body earlier lower upper → start ≤ earlier) :
    readFrom opening (opening + 1 + place) expectation members
        (rest ++ tail) =
      .error (.descendingRange first last (opening + 1 + (start + 2))) := by
  induction rest generalizing place expectation members with
  | nil =>
      have outside : body.length ≤ place := List.drop_eq_nil_iff.1 here
      have inside := descends.lt_length
      omega
  | cons character rest reads =>
      rcases unread_cons here with ⟨found, next⟩
      rw [List.cons_append]
      by_cases goesOn : GoesOn expectation character
      · have passes := descends.passes fits found goesOn later
        have more : rest ≠ [] := by
          rintro rfl
          have outside := List.drop_eq_nil_iff.1 next
          have inside := descends.lt_length
          omega
        rcases exists_readFrom_step unclosed fits here more goesOn members
          (opening + 1 + place) tail with ⟨following, larger, nextFits, step⟩
        rw [step]
        refine reads (fun member => unclosed (.tail _ member)) nextFits next
          passes ?_
        intro earlier lower upper after
        exact least earlier lower upper (Nat.le_of_succ_le after)
      · -- the range that ends here is the first one that descends
        simp only [GoesOn, not_forall, not_not] at goesOn
        rcases goesOn with ⟨begin, rfl, ends⟩
        rcases exists_of_fits_rangeEnd fits with ⟨earlier, rfl⟩
        have here := (descendsAt_iff_of_rangeEnd fits found).2 ⟨rfl, rfl, ends⟩
        have same : start = earlier := by
          have first := least earlier begin character (Nat.le_refl _) here
          omega
        subst same
        rcases (descendsAt_iff_of_rangeEnd fits found).1 descends with
          ⟨rfl, rfl, -⟩
        rw [readFrom, if_pos ends]

/-- After its last character a body that is not closed has no more to read. -/
theorem readFrom_singleton {character : Char} (differs : ']' ≠ character)
    (goesOn : GoesOn expectation character) (position : Nat) :
    readFrom opening position expectation members [character] =
      .error (.unterminatedClass opening) := by
  cases expectation with
  | rangeEnd begin => rw [readFrom, if_neg (goesOn begin rfl), readFrom]
  | member previous =>
      -- a dash at the very end starts a range that has no end
      rw [readFrom, if_neg (Ne.symm differs)]
      split
      · rw [readFrom]
      · rw [readFrom]

/-- The reader comes to the end of a body that is not closed if no range in it
descends. -/
theorem readFrom_of_ascends (unclosed : ']' ∉ rest)
    (fits : expectation.Fits body place) (here : body.drop place = rest)
    (ascends : Ascends body) (position : Nat) :
    readFrom opening position expectation members rest =
      .error (.unterminatedClass opening) := by
  induction rest generalizing place expectation members position with
  | nil => rw [readFrom]
  | cons character rest reads =>
      rcases unread_cons here with ⟨found, next⟩
      have goesOn : GoesOn expectation character := by
        rintro begin rfl ends
        rcases exists_of_fits_rangeEnd fits with ⟨start, rfl⟩
        exact ascends start begin character
          ((descendsAt_iff_of_rangeEnd fits found).2 ⟨rfl, rfl, ends⟩)
      by_cases more : rest = []
      · subst more
        exact readFrom_singleton (List.ne_of_not_mem_cons unclosed) goesOn
          position
      · rcases exists_readFrom_step unclosed fits here more goesOn members
          position [] with ⟨following, larger, nextFits, step⟩
        rw [List.append_nil] at step
        rw [step]
        exact reads (fun member => unclosed (.tail _ member)) nextFits next _

/-! ## Whole bracket expressions -/

theorem isFirstClosing {pattern others : List Char}
    (split : pattern.drop (opening + 1) = body ++ ']' :: others)
    (unclosed : ']' ∉ body) :
    IsFirstClosing pattern opening (opening + 1 + body.length) := by
  have found (place : Nat) : pattern[opening + 1 + place]? =
      (body ++ ']' :: others)[place]? := by
    rw [← split, List.getElem?_drop]
  constructor
  · rw [found, List.getElem?_append_right (Nat.le_refl _), Nat.sub_self]
    rfl
  · omega
  · intro place after before closes
    rcases Nat.exists_eq_add_of_le after with ⟨inner, rfl⟩
    rw [found, List.getElem?_append_left (by omega)] at closes
    exact unclosed (List.mem_of_getElem? closes)

/-- The class of a body is read if it is closed, has a character, and has no
descending range. -/
theorem exists_read_eq_ok_iff :
    (∃ result, read opening characters = .ok result) ↔
      ']' ∈ characters ∧ bodyOf characters ≠ [] ∧
        Ascends (bodyOf characters) := by
  constructor
  · rintro ⟨⟨members, closing⟩, found⟩
    rcases read_eq_ok_iff.1 found with ⟨body, others, rfl, isBody, -⟩
    rw [bodyOf_append_closing isBody.unclosed]
    exact ⟨by simp, isBody.nonempty, ascending_iff.1 isBody.ascending⟩
  · rintro ⟨closed, occupied, ascends⟩
    rcases bodyOf_cases characters with ⟨unclosed, ⟨never, -⟩ | ⟨others, split⟩⟩
    · exact absurd closed never
    · rcases exists_members (bodyOf characters) with ⟨members, same⟩
      exact ⟨(members, _), read_eq_ok_iff.2 ⟨bodyOf characters, others, split,
        ⟨occupied, unclosed, ascending_iff.2 ascends⟩, same, rfl⟩⟩

/-- The leftmost problem is reported. -/
theorem read_of_fails {error : SyntaxError}
    (fails : Fails opening characters error) :
    read opening characters = .error error := by
  cases fails with
  | @descendingRange place first last descends =>
      rcases bodyOf_cases characters with ⟨unclosed, cases⟩
      have split : ∃ tail, characters = bodyOf characters ++ tail := by
        rcases cases with ⟨-, whole⟩ | ⟨others, split⟩
        · exact ⟨[], by rw [List.append_nil]; exact whole⟩
        · exact ⟨_, split⟩
      rcases split with ⟨tail, split⟩
      have begins : (Expectation.member none).Fits (bodyOf characters) 0 := rfl
      rw [split]
      exact readFrom_of_descends unclosed begins List.drop_zero tail
        (Nat.zero_le _) descends.here
        fun earlier lower upper _ => descends.least earlier lower upper
  | emptyClass closed =>
      rcases List.head?_eq_some_iff.1 closed with ⟨others, rfl⟩
      simp [read, readFrom]
  | unterminatedClass ascends unclosed =>
      rw [bodyOf_eq_self unclosed] at ascends
      have begins : (Expectation.member none).Fits characters 0 := rfl
      exact readFrom_of_ascends unclosed begins List.drop_zero ascends _

/-- A body has a first descending range if it has any. -/
theorem exists_descendsFirst (descends : ¬Ascends body) :
    ∃ place first last, DescendsFirst body place first last := by
  classical
  have some : ∃ place, ∃ first last, DescendsAt body place first last := by
    simpa [Ascends] using descends
  rcases Nat.find_spec some with ⟨first, last, here⟩
  exact ⟨Nat.find some, first, last, here, fun earlier lower upper other =>
    Nat.find_min' some ⟨lower, upper, other⟩⟩

/-- What is not read has a problem. -/
theorem exists_fails
    (refused : ¬∃ result, read opening characters = .ok result) :
    ∃ error, Fails opening characters error := by
  rw [exists_read_eq_ok_iff] at refused
  by_cases ascends : Ascends (bodyOf characters)
  · by_cases closed : ']' ∈ characters
    · have isEmpty : bodyOf characters = [] := by
        by_contra occupied
        exact refused ⟨closed, occupied, ascends⟩
      rcases bodyOf_cases characters with ⟨-, ⟨never, -⟩ | ⟨others, split⟩⟩
      · exact absurd closed never
      · rw [isEmpty] at split
        exact ⟨_, .emptyClass (by rw [split]; rfl)⟩
    · exact ⟨_, .unterminatedClass ascends closed⟩
  · rcases exists_descendsFirst ascends with ⟨place, first, last, descends⟩
    exact ⟨_, .descendingRange descends⟩

theorem read_eq_error_iff {error : SyntaxError} :
    read opening characters = .error error ↔
      Fails opening characters error := by
  constructor
  · intro refused
    have problem : ∃ problem, Fails opening characters problem :=
      exists_fails (by rw [refused]; exact nofun)
    rcases problem with ⟨problem, fails⟩
    rw [read_of_fails fails] at refused
    cases refused
    exact fails
  · exact read_of_fails

/-- The reader reads the bracket expressions that are closed, have a body, and
have no descending range.  It comes to the first closing bracket, and the class
has what the body lists.  All others are refused for their leftmost problem. -/
theorem reads_exactly_bodies (pattern : List Char) (opening : Nat) :
    let characters := pattern.drop (opening + 1)
    ((∃ result, read opening characters = .ok result) ↔
        ']' ∈ characters ∧ bodyOf characters ≠ [] ∧
          Ascends (bodyOf characters)) ∧
      (∀ members closing,
        read opening characters = .ok (members, closing) →
          IsFirstClosing pattern opening closing ∧
            ∀ character, character ∈ members ↔
              Lists (bodyOf characters) character) ∧
      ∀ error, read opening characters = .error error ↔
        Fails opening characters error := by
  refine ⟨exists_read_eq_ok_iff, ?_, fun _ => read_eq_error_iff⟩
  intro members closing found
  rcases read_eq_ok_iff.1 found with ⟨body, others, split, isBody, same, rfl⟩
  rw [split, bodyOf_append_closing isBody.unclosed]
  exact ⟨isFirstClosing split isBody.unclosed, same⟩

end PatternAutomata.Bracket
