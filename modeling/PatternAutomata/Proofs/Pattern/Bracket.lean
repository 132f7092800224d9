import Mathlib.Data.List.Basic
import PatternAutomata.Pattern.Bracket
import PatternAutomata.Proofs.Pattern.Grammar

/-!
# Reading bracket expressions

The reader of a bracket expression stops at the first closing bracket.  Of the
characters before it, those still to come decide which members are added: the
invariant says which places are range dashes and what the reader looks for
there.  So the reader succeeds on well-formed bodies and gives the characters
that they list.
-/

namespace PatternAutomata.Bracket

variable {opening position : Nat} {expectation : Expectation}
  {members result : CharacterClass} {body : List Char}

/-! ## Up to the closing bracket -/

/-- The members that are read from a whole rest of a body, if there is a class
that has them. -/
def complete? :
    Expectation → CharacterClass → List Char → Option CharacterClass
  | .rangeEnd _, _, [] => none
  | .rangeEnd first, members, last :: rest =>
      if last < first then none
      else complete? (.member (some last)) (members.insertRange first last) rest
  | .member _, members, [] => if members.isEmpty then none else some members
  | .member previous, members, character :: rest =>
      match if character = '-' ∧ rest ≠ [] then previous else none with
      | some first => complete? (.rangeEnd first) members rest
      | none =>
          complete? (.member (some character)) (members.insert character) rest

theorem rangeStart?_append {previous : Option Char} {character : Char}
    {rest : List Char} (unclosed : ']' ∉ rest) (others : List Char) :
    rangeStart? previous character (rest ++ ']' :: others) =
      if character = '-' ∧ rest ≠ [] then previous else none := by
  rw [rangeStart?]
  cases rest with
  | nil => simp
  | cons head tail =>
      have differs : head ≠ ']' := by
        rintro rfl
        exact unclosed List.mem_cons_self
      simp [differs]

/-- The reader stops at the first closing bracket. -/
theorem readFrom_append (unclosed : ']' ∉ body)
    (pending : ∀ first, expectation = .rangeEnd first → body ≠ [])
    (others : List Char) {closing : Nat} :
    readFrom opening position expectation members (body ++ ']' :: others) =
        .ok (result, closing) ↔
      complete? expectation members body = some result ∧
        closing = position + body.length := by
  induction body generalizing position expectation members with
  | nil =>
      cases expectation with
      | rangeEnd first => exact absurd rfl (pending first rfl)
      | member previous =>
          simp only [List.nil_append, readFrom, if_true, complete?,
            List.length_nil, Nat.add_zero]
          split
          · simp
          · simp [eq_comm]
  | cons character rest read =>
      rw [List.mem_cons, not_or] at unclosed
      rcases unclosed with ⟨differs, unclosed⟩
      cases expectation with
      | rangeEnd first =>
          simp only [List.cons_append, readFrom, complete?]
          split
          · simp
          · rw [read unclosed (by simp), List.length_cons]
            grind
      | member previous =>
          simp only [List.cons_append, readFrom, complete?,
            if_neg (Ne.symm differs), rangeStart?_append unclosed]
          split
          · next first starts =>
              rw [read unclosed, List.length_cons]
              · grind
              · grind
          · rw [read unclosed (by simp), List.length_cons]
            grind

theorem mem_of_readFrom_eq_ok {characters : List Char}
    {found : CharacterClass × Nat}
    (read : readFrom opening position expectation members characters =
      .ok found) : ']' ∈ characters := by
  induction characters generalizing position expectation members with
  | nil =>
      rw [readFrom] at read
      exact nomatch read
  | cons character rest mem =>
      cases expectation with
      | rangeEnd first =>
          rw [readFrom] at read
          split at read
          · exact nomatch read
          · exact List.mem_cons_of_mem _ (mem read)
      | member previous =>
          rw [readFrom] at read
          split at read
          · next closes =>
              rw [closes]
              exact List.mem_cons_self
          · split at read
            · exact List.mem_cons_of_mem _ (mem read)
            · exact List.mem_cons_of_mem _ (mem read)

/-! ## Range dashes -/

/-- A range that ends at the given place or later. -/
def HasRangeFrom (body : List Char) (start : Nat) (first last : Char) :
    Prop :=
  ∃ place, start ≤ place + 2 ∧ isRangeDash body (place + 1) = true ∧
    body[place]? = some first ∧ body[place + 2]? = some last

/-- A character is listed from the given place on. -/
def ListsFrom (body : List Char) (start : Nat) (character : Char) : Prop :=
  (∃ place, start ≤ place ∧ isRangeDash body place = false ∧
    body[place]? = some character) ∨
  ∃ first last, HasRangeFrom body start first last ∧
    first ≤ character ∧ character ≤ last

/-- What the reader looks for at a place fits the characters before it. -/
def Expectation.Fits (body : List Char) : Nat → Expectation → Prop
  | 0, expectation => expectation = .member none
  | place + 1, .member previous =>
      previous = body[place]? ∧ isRangeDash body place = false
  | place + 1, .rangeEnd first =>
      isRangeDash body place = true ∧
        ∃ earlier, place = earlier + 1 ∧ body[earlier]? = some first

variable {place : Nat} {character : Char} {rest : List Char}

theorem isRangeDash_succ_iff :
    isRangeDash body (place + 1) = true ↔
      body[place + 1]? = some '-' ∧ place + 2 < body.length ∧
        isRangeDash body place = false := by
  simp [isRangeDash, and_assoc]

theorem hasRangeFrom_iff_succ {first last : Char} :
    HasRangeFrom body place first last ↔
      (∃ earlier, place = earlier + 2 ∧
        isRangeDash body (earlier + 1) = true ∧
        body[earlier]? = some first ∧ body[place]? = some last) ∨
      HasRangeFrom body (place + 1) first last := by
  constructor
  · rintro ⟨earlier, later, dash, starts, ends⟩
    rcases Nat.eq_or_lt_of_le later with rfl | later
    · exact .inl ⟨earlier, rfl, dash, starts, ends⟩
    · exact .inr ⟨earlier, later, dash, starts, ends⟩
  · rintro (⟨earlier, rfl, dash, starts, ends⟩ | ⟨earlier, later, whole⟩)
    · exact ⟨earlier, Nat.le_refl _, dash, starts, ends⟩
    · exact ⟨earlier, Nat.le_of_succ_le later, whole⟩

/-- Away from the end of a range, no range ends. -/
theorem hasRangeFrom_iff_of_fits {previous : Option Char} {first last : Char}
    (fits : (Expectation.member previous).Fits body place) :
    HasRangeFrom body place first last ↔
      HasRangeFrom body (place + 1) first last := by
  rw [hasRangeFrom_iff_succ, or_iff_right]
  rintro ⟨earlier, rfl, dash, -⟩
  have plain : isRangeDash body (earlier + 1) = false := fits.2
  rw [plain] at dash
  exact nomatch dash

/-- The first character that is left stands at the place that has been come
to. -/
theorem unread_cons (here : body.drop place = character :: rest) :
    body[place]? = some character ∧ body.drop (place + 1) = rest := by
  rw [← List.head?_drop, ← List.tail_drop, here]
  exact ⟨rfl, rfl⟩

/-- The reader starts a range at the range dashes. -/
theorem startsRange_iff {previous : Option Char} {first : Char}
    (fits : (Expectation.member previous).Fits body place)
    (here : body.drop place = character :: rest) :
    (if character = '-' ∧ rest ≠ [] then previous else none) = some first ↔
      isRangeDash body place = true ∧ previous = some first := by
  have found := (unread_cons here).1
  have more : rest ≠ [] ↔ place + 1 < body.length := by
    have length := congrArg List.length here
    rw [List.length_drop, List.length_cons] at length
    rw [← List.length_pos_iff]
    omega
  cases place with
  | zero =>
      cases fits
      simp [isRangeDash]
  | succ place =>
      rw [isRangeDash_succ_iff, found]
      by_cases dash : character = '-' ∧ rest ≠ []
      · rw [if_pos dash]
        simp [dash.1, more.1 dash.2, fits.2]
      · rw [if_neg dash]
        simp only [reduceCtorEq, false_iff]
        rintro ⟨⟨same, bound, -⟩, -⟩
        exact dash ⟨Option.some.inj same, more.2 bound⟩

/-- One character that is no range dash is listed at its place. -/
theorem listsFrom_iff_of_plain {previous : Option Char} {listed : Char}
    (fits : (Expectation.member previous).Fits body place)
    (found : body[place]? = some character)
    (plain : isRangeDash body place = false) :
    ListsFrom body place listed ↔
      listed = character ∨ ListsFrom body (place + 1) listed := by
  simp only [ListsFrom, hasRangeFrom_iff_of_fits fits]
  rw [← or_assoc]
  apply or_congr_left
  constructor
  · rintro ⟨other, later, otherPlain, otherFound⟩
    rcases Nat.eq_or_lt_of_le later with rfl | later
    · rw [found] at otherFound
      exact .inl (Option.some.inj otherFound).symm
    · exact .inr ⟨other, later, otherPlain, otherFound⟩
  · rintro (rfl | ⟨other, later, whole⟩)
    · exact ⟨place, Nat.le_refl _, plain, found⟩
    · exact ⟨other, Nat.le_of_succ_le later, whole⟩

/-- A range dash lists nothing at its place. -/
theorem listsFrom_iff_of_dash {previous : Option Char} {listed : Char}
    (fits : (Expectation.member previous).Fits body place)
    (dash : isRangeDash body place = true) :
    ListsFrom body place listed ↔ ListsFrom body (place + 1) listed := by
  simp only [ListsFrom, hasRangeFrom_iff_of_fits fits]
  apply or_congr_left
  constructor
  · rintro ⟨other, later, plain, found⟩
    rcases Nat.eq_or_lt_of_le later with rfl | later
    · rw [plain] at dash
      exact nomatch dash
    · exact ⟨other, later, plain, found⟩
  · rintro ⟨other, later, whole⟩
    exact ⟨other, Nat.le_of_succ_le later, whole⟩

theorem hasRangeFrom_iff_of_rangeEnd {first last lower upper : Char}
    (fits : (Expectation.rangeEnd first).Fits body place)
    (found : body[place]? = some last) :
    HasRangeFrom body place lower upper ↔
      (lower = first ∧ upper = last) ∨
        HasRangeFrom body (place + 1) lower upper := by
  rw [hasRangeFrom_iff_succ]
  apply or_congr_left
  cases place with
  | zero => exact nomatch fits
  | succ place =>
      rcases fits with ⟨dash, start, rfl, starts⟩
      constructor
      · rintro ⟨earlier, same, -, lowerFound, upperFound⟩
        cases same
        rw [starts] at lowerFound
        rw [found] at upperFound
        exact ⟨(Option.some.inj lowerFound).symm,
          (Option.some.inj upperFound).symm⟩
      · rintro ⟨rfl, rfl⟩
        exact ⟨start, rfl, dash, starts, found⟩

/-- The end of a range is no range dash. -/
theorem isRangeDash_of_rangeEnd {first : Char}
    (fits : (Expectation.rangeEnd first).Fits body place) :
    isRangeDash body place = false := by
  cases place with
  | zero => rfl
  | succ place =>
      rw [← Bool.not_eq_true, isRangeDash_succ_iff, fits.1]
      rintro ⟨-, -, plain⟩
      exact nomatch plain

/-- The end of a range is listed with all characters of the range. -/
theorem listsFrom_iff_of_rangeEnd {first last listed : Char}
    (fits : (Expectation.rangeEnd first).Fits body place)
    (found : body[place]? = some last) (ascending : first ≤ last) :
    ListsFrom body place listed ↔
      (first ≤ listed ∧ listed ≤ last) ∨
        ListsFrom body (place + 1) listed := by
  have plain := isRangeDash_of_rangeEnd fits
  simp only [ListsFrom, hasRangeFrom_iff_of_rangeEnd fits found]
  constructor
  · rintro (⟨other, later, otherPlain, otherFound⟩ |
      ⟨lower, upper, ⟨rfl, rfl⟩ | later, between⟩)
    · rcases Nat.eq_or_lt_of_le later with rfl | later
      · rw [found] at otherFound
        cases otherFound
        exact .inl ⟨ascending, Char.le_refl _⟩
      · exact .inr (.inl ⟨other, later, otherPlain, otherFound⟩)
    · exact .inl between
    · exact .inr (.inr ⟨lower, upper, later, between⟩)
  · rintro (between | ⟨other, later, whole⟩ | ⟨lower, upper, later, between⟩)
    · exact .inr ⟨first, last, .inl ⟨rfl, rfl⟩, between⟩
    · exact .inl ⟨other, Nat.le_of_succ_le later, whole⟩
    · exact .inr ⟨lower, upper, .inr later, between⟩

/-- Where the reader starts no range there is no range dash. -/
theorem isRangeDash_eq_false {previous : Option Char}
    (fits : (Expectation.member previous).Fits body place)
    (here : body.drop place = character :: rest)
    (plain :
      (if character = '-' ∧ rest ≠ [] then previous else none) = none) :
    isRangeDash body place = false := by
  cases place with
  | zero => rfl
  | succ place =>
      have bound : place + 1 < body.length := by
        rw [← Nat.not_le, ← List.drop_eq_nil_iff, here]
        exact List.cons_ne_nil _ _
      have before : previous = some body[place] :=
        fits.1.trans (List.getElem?_eq_getElem (Nat.lt_of_succ_lt bound))
      rw [← Bool.not_eq_true]
      intro dash
      have starts := (startsRange_iff fits here).2 ⟨dash, before⟩
      exact nomatch plain.symm.trans starts

theorem fits_rangeEnd {previous : Option Char} {first : Char}
    (fits : (Expectation.member previous).Fits body place)
    (dash : isRangeDash body place = true) (before : previous = some first) :
    (Expectation.rangeEnd first).Fits body (place + 1) := by
  cases place with
  | zero => exact nomatch dash
  | succ place => exact ⟨dash, place, rfl, fits.1 ▸ before⟩

/-! ## Whole bodies -/

/-- Nothing is read beyond the end of a body. -/
theorem not_hasRangeFrom (outside : body.length ≤ place) {first last : Char} :
    ¬HasRangeFrom body place first last := by
  rintro ⟨earlier, later, -, -, ends⟩
  rw [List.getElem?_eq_none (Nat.le_trans outside later)] at ends
  exact nomatch ends

theorem not_listsFrom (outside : body.length ≤ place) {listed : Char} :
    ¬ListsFrom body place listed := by
  rintro (⟨other, later, -, found⟩ | ⟨first, last, range, -⟩)
  · rw [List.getElem?_eq_none (Nat.le_trans outside later)] at found
    exact nomatch found
  · exact not_hasRangeFrom outside range

/-- From a place on the ranges of the body ascend, and what it lists there is
added to the members, so that there is a member in the end. -/
def Completes (body : List Char) (place : Nat)
    (members result : CharacterClass) : Prop :=
  (∀ first last, HasRangeFrom body place first last → first ≤ last) ∧
    (∀ listed, listed ∈ result ↔
      listed ∈ members ∨ ListsFrom body place listed) ∧
    result ≠ ∅

theorem completes_iff_of_outside (outside : body.length ≤ place) :
    Completes body place members result ↔
      members.isEmpty = false ∧ members = result := by
  simp only [Completes, not_hasRangeFrom outside, not_listsFrom outside,
    or_false, false_imp_iff, implies_true, true_and]
  constructor
  · rintro ⟨same, occupied⟩
    cases Std.ExtTreeSet.ext_mem same
    exact ⟨Std.ExtTreeSet.isEmpty_eq_false_iff.2 occupied, rfl⟩
  · rintro ⟨occupied, rfl⟩
    exact ⟨fun _ => Iff.rfl, Std.ExtTreeSet.isEmpty_eq_false_iff.1 occupied⟩

theorem completes_iff_of_dash {previous : Option Char}
    (fits : (Expectation.member previous).Fits body place)
    (dash : isRangeDash body place = true) :
    Completes body place members result ↔
      Completes body (place + 1) members result := by
  simp only [Completes, hasRangeFrom_iff_of_fits fits,
    listsFrom_iff_of_dash fits dash]

theorem completes_iff_of_plain {previous : Option Char}
    (fits : (Expectation.member previous).Fits body place)
    (found : body[place]? = some character)
    (plain : isRangeDash body place = false) :
    Completes body place members result ↔
      Completes body (place + 1) (members.insert character) result := by
  simp only [Completes, hasRangeFrom_iff_of_fits fits,
    listsFrom_iff_of_plain fits found plain, Std.ExtTreeSet.mem_insert,
    Std.LawfulEqCmp.compare_eq_iff_eq]
  grind

theorem completes_iff_of_rangeEnd {first last : Char}
    (fits : (Expectation.rangeEnd first).Fits body place)
    (found : body[place]? = some last) :
    Completes body place members result ↔
      first ≤ last ∧ Completes body (place + 1)
        (members.insertRange first last) result := by
  have ends {lower upper : Char} :
      HasRangeFrom body place lower upper ↔
        (lower = first ∧ upper = last) ∨
          HasRangeFrom body (place + 1) lower upper :=
    hasRangeFrom_iff_of_rangeEnd fits found
  constructor
  · rintro ⟨ascending, same, occupied⟩
    have ascends : first ≤ last := ascending _ _ (ends.2 (.inl ⟨rfl, rfl⟩))
    refine ⟨ascends, ?_, ?_, occupied⟩
    · intro lower upper later
      exact ascending lower upper (ends.2 (.inr later))
    · intro listed
      rw [same, listsFrom_iff_of_rangeEnd fits found ascends,
        CharacterClass.mem_insertRange, or_assoc]
  · rintro ⟨ascends, ascending, same, occupied⟩
    refine ⟨?_, ?_, occupied⟩
    · intro lower upper range
      rcases ends.1 range with ⟨rfl, rfl⟩ | later
      · exact ascends
      · exact ascending lower upper later
    · intro listed
      rw [same, listsFrom_iff_of_rangeEnd fits found ascends,
        CharacterClass.mem_insertRange, or_assoc]

/-- The reader completes what is left of a body. -/
theorem complete?_eq_some_iff
    (fits : expectation.Fits body place) (here : body.drop place = rest) :
    complete? expectation members rest = some result ↔
      Completes body place members result := by
  induction rest generalizing place expectation members with
  | nil =>
      have outside : body.length ≤ place := List.drop_eq_nil_iff.1 here
      cases expectation with
      | rangeEnd first =>
          cases place with
          | zero => exact nomatch fits
          | succ place =>
              rcases fits with ⟨dash, earlier, rfl, -⟩
              have bound := (isRangeDash_succ_iff.1 dash).2.1
              omega
      | member previous =>
          rw [complete?, completes_iff_of_outside outside]
          cases members.isEmpty <;> simp
  | cons character rest completes =>
      rcases unread_cons here with ⟨found, next⟩
      cases expectation with
      | rangeEnd first =>
          have nextFits : (Expectation.member (some character)).Fits body
              (place + 1) := ⟨found.symm, isRangeDash_of_rangeEnd fits⟩
          rw [complete?, completes_iff_of_rangeEnd fits found,
            ← completes nextFits next]
          split
          · next descends => simp [Char.not_le.2 descends]
          · next ascends => simp [Char.not_lt.1 ascends]
      | member previous =>
          rw [complete?]
          split
          · next first starts =>
              rcases (startsRange_iff fits here).1 starts with ⟨dash, before⟩
              rw [completes (fits_rangeEnd fits dash before) next,
                completes_iff_of_dash fits dash]
          · next plain =>
              have plain := isRangeDash_eq_false fits here plain
              have nextFits : (Expectation.member (some character)).Fits body
                  (place + 1) := ⟨found.symm, plain⟩
              rw [completes nextFits next,
                completes_iff_of_plain fits found plain]

theorem hasRangeFrom_zero_iff {first last : Char} :
    HasRangeFrom body 0 first last ↔ HasRange body first last := by
  simp [HasRangeFrom, HasRange]

theorem listsFrom_zero_iff :
    ListsFrom body 0 character ↔ Lists body character := by
  simp only [ListsFrom, Lists, Nat.zero_le, true_and, hasRangeFrom_zero_iff]

/-- The class of a body has a member if the body is not empty. -/
theorem ne_empty_iff
    (same : ∀ character, character ∈ members ↔ Lists body character) :
    members ≠ ∅ ↔ body ≠ [] := by
  cases body with
  | nil =>
      have empty : members = ∅ := by
        rw [Std.ExtTreeSet.eq_empty_iff_forall_not_mem]
        intro character member
        rw [same, ← listsFrom_zero_iff] at member
        exact not_listsFrom (Nat.le_refl 0) member
      simp [empty]
  | cons first rest =>
      have member : first ∈ members := (same first).2 (.inl ⟨0, rfl, rfl⟩)
      exact iff_of_true (Std.ExtTreeSet.ne_empty_of_mem member)
        (List.cons_ne_nil _ _)

/-- The character with the greatest code. -/
def lastCharacter : Char := .ofNat 0x10ffff

theorem le_lastCharacter (character : Char) : character ≤ lastCharacter := by
  rcases character.valid with below | ⟨-, below⟩
  · exact Nat.le_of_lt (Nat.lt_trans below (by decide))
  · exact Nat.le_of_lt_succ below

/-- Every body lists a class, so nothing but the body decides whether a bracket
expression is derived. -/
theorem exists_members (body : List Char) :
    ∃ members : CharacterClass,
      ∀ character, character ∈ members ↔ Lists body character := by
  classical
  have mem_all (character : Char) :
      character ∈ CharacterClass.between (.ofNat 0) lastCharacter := by
    rw [CharacterClass.mem_between]
    exact ⟨Nat.zero_le _, le_lastCharacter character⟩
  refine ⟨.ofList ((CharacterClass.between (.ofNat 0)
    lastCharacter).filter fun character => Lists body character), ?_⟩
  intro character
  rw [Std.ExtTreeSet.mem_ofList, List.contains_iff_mem, List.mem_filter,
    decide_eq_true_iff]
  exact and_iff_right (mem_all character)

theorem complete?_body_eq_some_iff :
    complete? (.member none) ∅ body = some members ↔
      body ≠ [] ∧ (∀ first last, HasRange body first last → first ≤ last) ∧
        ∀ character, character ∈ members ↔ Lists body character := by
  have fits : (Expectation.member none).Fits body 0 := rfl
  rw [complete?_eq_some_iff fits List.drop_zero]
  simp only [Completes, hasRangeFrom_zero_iff, listsFrom_zero_iff,
    Std.ExtTreeSet.not_mem_empty, false_or]
  constructor
  · rintro ⟨ascending, same, occupied⟩
    exact ⟨(ne_empty_iff same).1 occupied, ascending, same⟩
  · rintro ⟨occupied, ascending, same⟩
    exact ⟨ascending, same, (ne_empty_iff same).2 occupied⟩

/-- Reading succeeds on the bodies before a first closing bracket, and the
class has what the body lists. -/
theorem read_eq_ok_iff {characters : List Char} {closing : Nat} :
    read opening characters = .ok (members, closing) ↔
      ∃ body others, characters = body ++ ']' :: others ∧ IsBody body ∧
        (∀ character, character ∈ members ↔ Lists body character) ∧
        closing = opening + 1 + body.length := by
  rw [read]
  have pending (body : List Char) (first : Char) :
      Expectation.member none = .rangeEnd first → body ≠ [] := nofun
  constructor
  · intro found
    rcases List.eq_append_cons_of_mem (mem_of_readFrom_eq_ok found) with
      ⟨body, others, rfl, unclosed⟩
    rw [readFrom_append unclosed (pending body),
      complete?_body_eq_some_iff] at found
    rcases found with ⟨⟨occupied, ascending, same⟩, closes⟩
    exact ⟨body, others, rfl, ⟨occupied, unclosed, ascending⟩, same, closes⟩
  · rintro ⟨body, others, rfl, isBody, same, closes⟩
    rw [readFrom_append isBody.unclosed (pending body),
      complete?_body_eq_some_iff]
    exact ⟨⟨isBody.nonempty, isBody.ascending, same⟩, closes⟩

end PatternAutomata.Bracket
