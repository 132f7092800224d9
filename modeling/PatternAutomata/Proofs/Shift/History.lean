import PatternAutomata.Compile
import PatternAutomata.Proofs.Nfa.Checked
import PatternAutomata.Proofs.Shift.Assembly
import PatternAutomata.Proofs.Shift.Minimize

/-!
# Supplies with a history

A supply of state numbers may have handed out numbers, may have been reset and
may have served for any patterns before, refused ones among them.  What it does
for one more pattern depends on all this in the next number only: the outcome
is the one of a fresh supply with its numbers moved up, and so is everything
that is made of the automaton afterwards.
-/

namespace PatternAutomata

/-! ## Requests -/

/-- What a supply of state numbers may be used for. -/
inductive Request where
  /-- Hand out the next number. -/
  | next
  /-- Start over at zero. -/
  | reset
  /-- Read a pattern. -/
  | parse (pattern : List Char)
deriving DecidableEq

/-- What a request gives. -/
inductive Answer where
  /-- The number handed out. -/
  | id (id : StateId)
  /-- The supply has started over. -/
  | done
  /-- The automaton of the pattern, or why it is refused. -/
  | parsed (outcome : Except SyntaxError Nfa)

/-- Serve one request. -/
def Request.serve (supply : IdSupply) : Request → Answer × IdSupply
  | next => (.id supply.take.1, supply.take.2)
  | reset => (.done, supply.reset)
  | parse pattern =>
      (.parsed (Nfa.ofPattern pattern supply).1,
        (Nfa.ofPattern pattern supply).2)

/-- Serve requests one after the other. -/
def serveAll : List Request → IdSupply → List Answer × IdSupply
  | [], supply => ([], supply)
  | request :: requests, supply =>
      let rest := serveAll requests (request.serve supply).2
      ((request.serve supply).1 :: rest.1, rest.2)

/-- Later requests are served from where earlier ones have left the supply. -/
theorem serveAll_append (requests later : List Request) (supply : IdSupply) :
    serveAll (requests ++ later) supply =
      ((serveAll requests supply).1 ++
          (serveAll later (serveAll requests supply).2).1,
        (serveAll later (serveAll requests supply).2).2) := by
  induction requests generalizing supply with
  | nil => rfl
  | cons request requests served =>
      rw [List.cons_append, serveAll, serveAll, served]
      rfl

/-! ## Skeletons -/

/-- The skeleton of a scanner does not depend on members. -/
theorem Dfa.IsShift.skeleton_eq {amount : Nat} {dfa other : Dfa}
    (isShift : dfa.IsShift amount other) :
    Scanner.skeleton other = Scanner.skeleton dfa := by
  have opening : Scanner.openingLines other = Scanner.openingLines dfa := by
    have empty : other.states.isEmpty = dfa.states.isEmpty := by
      rw [Bool.eq_iff_iff, Array.isEmpty_iff_size_eq_zero,
        Array.isEmpty_iff_size_eq_zero, isShift.states, Array.size_map]
    rw [Scanner.openingLines, Scanner.openingLines, empty, isShift.start]
  have cases_of_states : Scanner.stateLines other = Scanner.stateLines dfa := by
    funext id
    rw [Scanner.stateLines, Scanner.stateLines, isShift.transitions]
  rw [Scanner.skeleton, Scanner.skeleton, Scanner.skeletonLines,
    Scanner.skeletonLines, opening, cases_of_states, isShift.states,
    Array.toList_map, List.flatMap_map]
  rfl

/-! ## What is made of an automaton -/

namespace Nfa

/-- Marking the terminals is not refused if they are states. -/
theorem Checked.markTerminals_eq_ok {nfa : Nfa}
    (start : nfa.contains nfa.start = true)
    (final : nfa.contains nfa.final = true) :
    Checked.markTerminals nfa = .ok nfa.markTerminals := by
  have required : Checked.require nfa [nfa.start, nfa.final] = .ok () := by
    apply Checked.require_eq_ok
    intro id member
    rcases List.mem_pair.1 member with rfl | rfl
    · exact start
    · exact final
  rw [Checked.markTerminals, required]
  cases occupied : nfa.isEmpty with
  | false => rfl
  | true =>
      rw [Nfa.contains, state?_eq_none_of_isEmpty occupied] at start
      cases start

/-- What is made of the automaton with its numbers moved up is what is made of
the automaton itself: its terminals can be marked, its automaton of subsets and
what is left of it after minimizing any number of times have moved members, and
the skeletons are the same. -/
structure CompilesAlike (amount : Nat) (nfa : Nfa) : Prop where
  marked : Checked.markTerminals (nfa.shift amount) =
    .ok (nfa.shift amount).markTerminals
  determinized : Checked.determinize (nfa.shift amount).markTerminals =
    .ok (Dfa.ofNfa (nfa.shift amount).markTerminals)
  dfa : ∀ rounds : Nat,
    (Dfa.minimize^[rounds] (Dfa.ofNfa nfa.markTerminals)).IsShift amount
      (Dfa.minimize^[rounds] (Dfa.ofNfa (nfa.shift amount).markTerminals))
  skeleton : ∀ rounds : Nat,
    Scanner.skeleton
        (Dfa.minimize^[rounds] (Dfa.ofNfa (nfa.shift amount).markTerminals)) =
      Scanner.skeleton (Dfa.minimize^[rounds] (Dfa.ofNfa nfa.markTerminals))

/-- What is made of the automaton of an expression does not depend on where
its numbers start. -/
theorem compilesAlike_ofRegex (amount : Nat) (regex : Regex) :
    (ofRegex regex .fresh).1.CompilesAlike amount := by
  have same := congrArg Prod.fst (ofRegex_shift amount regex .fresh)
  have realizes := realizes_ofRegex regex ⟨IdSupply.fresh.next + amount⟩
  rw [same] at realizes
  have subsets := Dfa.isShift_ofNfa (ofRegex regex .fresh).1.markTerminals
    amount
  rw [shift_markTerminals] at subsets
  constructor
  case marked =>
    exact Checked.markTerminals_eq_ok
      (realizes.only _ (reachable_start _)) realizes.final
  case determinized =>
    exact Checked.determinize_eq_ok (.inr realizes.markTerminals.only)
  case dfa => exact subsets.iterate_minimize
  case skeleton =>
    intro rounds
    exact (subsets.iterate_minimize rounds).skeleton_eq

end Nfa

/-- Whatever a supply has served for before, reading a pattern gives what a
fresh supply gives, moved up by the next number, and the supply advances as far
as a fresh one does. -/
theorem parse_independent_of_history (before after : List Request)
    (supply : IdSupply) (pattern : List Char) :
    let reached := (serveAll before supply).2
    let fresh := Nfa.ofPattern pattern .fresh
    let left : IdSupply := ⟨reached.next + fresh.2.next⟩
    serveAll (before ++ .parse pattern :: after) supply =
        ((serveAll before supply).1 ++
            .parsed (fresh.1.map (Nfa.shift reached.next)) ::
              (serveAll after left).1,
          (serveAll after left).2) ∧
      ∀ nfa, fresh.1 = .ok nfa →
        fresh.2.next = nfa.size ∧ nfa.CompilesAlike reached.next := by
  intro reached fresh left
  constructor
  · rw [serveAll_append, serveAll, Request.serve,
      Nfa.ofPattern_eq_shift pattern (serveAll before supply).2]
  · intro nfa parsed
    rcases Nfa.exists_regex_of_ofPattern parsed with ⟨regex, read, rfl⟩
    have advanced : fresh.2 = (Nfa.ofRegex regex .fresh).2 := by
      simp only [fresh, Nfa.ofPattern, read]
    refine ⟨?_, Nfa.compilesAlike_ofRegex reached.next regex⟩
    rw [advanced, Nfa.next_ofRegex]
    exact Nat.zero_add _

/-- The pattern `a|` is refused after one operand, which has taken two numbers,
and one more number is handed out. -/
def spentRequests : List Request := [.parse ['a', '|'], .next]

/-- The expression of the pattern `a|b`. -/
def eitherLetter : Regex := .alternation (.literal 'a') (.literal 'b')

theorem parse_independent_of_history_spent :
    (serveAll spentRequests .fresh).2.next = 3 ∧
      (Nfa.ofPattern ['a', '|', 'b'] .fresh).1 =
        .ok (Nfa.ofRegex eitherLetter .fresh).1 ∧
      serveAll (spentRequests ++ [.parse ['a', '|', 'b'], .next]) .fresh =
        ((serveAll spentRequests .fresh).1 ++
          [.parsed (.ok ((Nfa.ofRegex eitherLetter .fresh).1.shift 3)),
            .id 9], ⟨10⟩) ∧
      (Nfa.ofRegex eitherLetter .fresh).1.size = 6 ∧
      (Nfa.ofRegex eitherLetter .fresh).1.CompilesAlike 3 := by
  have reached : (serveAll spentRequests .fresh).2.next = 3 := by decide
  have parsed : (Nfa.ofPattern ['a', '|', 'b'] .fresh).1 =
      .ok (Nfa.ofRegex eitherLetter .fresh).1 := by decide
  rcases parse_independent_of_history spentRequests [.next] .fresh
    ['a', '|', 'b'] with ⟨answers, compiles⟩
  rcases compiles _ parsed with ⟨size, alike⟩
  rw [reached] at alike
  rw [reached, parsed] at answers
  refine ⟨reached, parsed, answers, ?_, alike⟩
  rw [← size]
  decide

end PatternAutomata
