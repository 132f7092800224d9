import Mathlib.Data.List.Basic
import PatternAutomata.Compile

/-!
# Texts in sinks of limited capacity

What a sink takes of a text does not depend on how the text is divided into
pieces.  So a skeleton is taken up to the capacity of the sink, and writing it
fails if and only if it is longer.  A pattern that is refused leaves no trace.
-/

namespace PatternAutomata.Scanner

namespace Sink

/-! ## Texts in pieces -/

/-- The bytes of a text for which there is room. -/
def fitting (text : String) (room : Nat) : ByteArray :=
  text.toUTF8.extract 0 room

theorem fitting_of_le {text : String} {room : Nat}
    (fits : text.utf8ByteSize ≤ room) : fitting text room = text.toUTF8 := by
  apply ByteArray.ext
  rw [fitting, ByteArray.data_extract]
  exact Array.extract_eq_self_of_le fits

theorem fitting_append (first second : String) (room : Nat) :
    fitting (first ++ second) room =
      fitting first room ++ fitting second (room - first.utf8ByteSize) := by
  simp [fitting, ByteArray.extract_append]

theorem fitting_min (text : String) (room : Nat) :
    fitting text (min room text.utf8ByteSize) = fitting text room := by
  rcases Nat.le_total text.utf8ByteSize room with fits | beyond
  · rw [Nat.min_eq_right fits, fitting_of_le fits,
      fitting_of_le (Nat.le_refl _)]
  · rw [Nat.min_eq_left beyond]

/-- What fits is taken, and a text that does not fit fills the sink. -/
theorem write_limited (text : String) (taken : ByteArray) (room : Nat) :
    (⟨taken, some room⟩ : Sink).write text =
      (⟨taken ++ fitting text room, some (room - text.utf8ByteSize)⟩,
        if text.utf8ByteSize ≤ room then none else some .full) := by
  by_cases fits : text.utf8ByteSize ≤ room
  · simp [write, fits, fitting_of_le fits]
  · simp [write, fits, fitting, Nat.sub_eq_zero_of_le (Nat.le_of_not_le fits)]

theorem write_empty (sink : Sink) : sink.write "" = (sink, none) := by
  rcases sink with ⟨taken, _ | room⟩ <;> simp [write]

/-- A text that is taken whole may have been written first. -/
theorem write_append_of_taken {first : String} {sink filled : Sink}
    (written : sink.write first = (filled, none)) (second : String) :
    sink.write (first ++ second) = filled.write second := by
  rcases sink with ⟨taken, _ | room⟩
  · simp only [write, Prod.mk.injEq, and_true] at written
    subst written
    simp [write, ByteArray.append_assoc]
  · rw [write_limited, Prod.mk.injEq] at written
    rcases written with ⟨rfl, fits⟩
    have fits : first.utf8ByteSize ≤ room := by simpa using fits
    have both : first.utf8ByteSize + second.utf8ByteSize ≤ room ↔
        second.utf8ByteSize ≤ room - first.utf8ByteSize := by omega
    simp [write_limited, fitting_append, ByteArray.append_assoc, both,
      Nat.sub_sub]

/-- After a text that is refused no other is taken. -/
theorem write_append_of_refused {first : String} {sink filled : Sink}
    {error : SinkError} (written : sink.write first = (filled, some error))
    (second : String) :
    sink.write (first ++ second) = (filled, some error) := by
  rcases sink with ⟨taken, _ | room⟩
  · simp [write] at written
  · rw [write_limited, Prod.mk.injEq] at written
    rcases written with ⟨rfl, refused⟩
    have beyond : ¬ first.utf8ByteSize ≤ room := by
      intro fits
      simp [fits] at refused
    have whole : ¬ first.utf8ByteSize + second.utf8ByteSize ≤ room := by omega
    have rest : room - first.utf8ByteSize = 0 := by omega
    have none_left : fitting second 0 = ByteArray.empty := by simp [fitting]
    rw [if_neg beyond] at refused
    simp [write_limited, fitting_append, rest, none_left, whole, refused,
      Nat.sub_add_eq]

/-- A text may be written in any pieces. -/
theorem writeAll_eq_write (pieces : List String) (sink : Sink) :
    sink.writeAll pieces = sink.write (String.join pieces) := by
  -- A refusal ends the writing here, and fills the sink there.
  induction pieces generalizing sink with
  | nil => exact sink.write_empty.symm
  | cons piece pieces others =>
      rw [String.join_cons, writeAll]
      rcases written : sink.write piece with ⟨filled, _ | error⟩
      · exact (others filled).trans (write_append_of_taken written _).symm
      · exact (write_append_of_refused written _).symm

/-- A sink takes the beginning of a text up to its capacity, and refuses a text
that is longer. -/
theorem writeAll_withCapacity (pieces : List String) (capacity : Nat) :
    ((withCapacity (some capacity)).writeAll pieces).1.taken =
        fitting (String.join pieces) capacity ∧
      ((withCapacity (some capacity)).writeAll pieces).2 =
        if capacity < (String.join pieces).utf8ByteSize then some .full
        else none := by
  rw [writeAll_eq_write, withCapacity, write_limited, ByteArray.empty_append]
  refine ⟨rfl, ?_⟩
  split <;> split <;> first | rfl | omega

end Sink

/-! ## Skeletons in sinks -/

variable {pattern : String} {dfa : Dfa}

theorem generate_of_refused {error : SyntaxError}
    (refused : compile pattern = .error error) (sink : Sink) :
    generate pattern sink = (sink, some (.pattern error)) := by
  rw [generate, refused]

/-- A skeleton may be written in any pieces. -/
theorem generate_of_compiled (compiled : compile pattern = .ok dfa)
    {pieces : List String} (divided : String.join pieces = skeleton dfa)
    (sink : Sink) :
    generate pattern sink =
      ((sink.writeAll pieces).1, (sink.writeAll pieces).2.map .sink) := by
  have lines : sink.writeAll (skeletonLines dfa) = sink.writeAll pieces := by
    rw [Sink.writeAll_eq_write, Sink.writeAll_eq_write, divided, skeleton]
  rw [generate, compiled]
  simp only [lines]

/-- If a pattern is refused then a sink takes nothing.  Otherwise it takes the
beginning of the skeleton up to its capacity, however the skeleton is divided
into pieces, and the only failure is that the skeleton is longer. -/
theorem generate_takes_beginning (pattern : String) (capacity : Nat) :
    (∀ error, compile pattern = .error error →
      (generate pattern (.withCapacity (some capacity))).1.taken =
          ByteArray.empty ∧
        (generate pattern (.withCapacity (some capacity))).2 =
          some (.pattern error)) ∧
    ∀ dfa, compile pattern = .ok dfa →
      (generate pattern (.withCapacity (some capacity))).1.taken =
          (skeleton dfa).toUTF8.extract 0
            (min capacity (skeleton dfa).toUTF8.size) ∧
        (generate pattern (.withCapacity (some capacity))).2 =
          (if capacity < (skeleton dfa).toUTF8.size then some (.sink .full)
          else none) ∧
        ∀ pieces, String.join pieces = skeleton dfa →
          generate pattern (.withCapacity (some capacity)) =
            (((Sink.withCapacity (some capacity)).writeAll pieces).1,
              ((Sink.withCapacity (some capacity)).writeAll pieces).2.map
                .sink) := by
  constructor
  · intro error refused
    rw [generate_of_refused refused]
    exact ⟨rfl, rfl⟩
  · intro dfa compiled
    rcases Sink.writeAll_withCapacity (skeletonLines dfa) capacity with
      ⟨taken, failed⟩
    refine ⟨?_, ?_, fun pieces divided =>
      generate_of_compiled compiled divided _⟩
    · rw [generate_of_compiled compiled rfl, taken]
      exact (Sink.fitting_min _ capacity).symm
    · rw [generate_of_compiled compiled rfl, failed, apply_ite (Option.map _)]
      rfl

/-- The capacity ends between the two bytes of a character. -/
theorem generate_takes_beginning_brokenCharacter :
    compile "(é" = .error (.unmatchedOpening 0) ∧
      (generate "(é" (.withCapacity (some 131))).1.taken = ByteArray.empty ∧
      ∃ dfa, compile "é" = .ok dfa ∧
        131 < (skeleton dfa).toUTF8.size ∧
        (skeleton dfa).toUTF8[130]? = some 0xC3 ∧
        (generate "é" (.withCapacity (some 131))).1.taken =
          (skeleton dfa).toUTF8.extract 0 131 ∧
        (generate "é" (.withCapacity (some 131))).2 =
          some (.sink .full) := by
  have refused : compile "(é" = .error (.unmatchedOpening 0) := by
    decide +kernel
  have long : (compile "é").toOption.any (fun dfa =>
      131 < (skeleton dfa).toUTF8.size &&
        (skeleton dfa).toUTF8[130]? = some 0xC3) = true := by
    decide +kernel
  rcases generate_takes_beginning "(é" 131 with ⟨nothing, -⟩
  rcases generate_takes_beginning "é" 131 with ⟨-, beginning⟩
  cases compiled : compile "é" with
  | error error => simp [compiled, Except.toOption] at long
  | ok dfa =>
      simp only [compiled, Except.toOption, Option.any_some,
        Bool.and_eq_true, decide_eq_true_eq] at long
      rcases beginning dfa compiled with ⟨taken, failed, -⟩
      rw [Nat.min_eq_left (Nat.le_of_lt long.1)] at taken
      rw [if_pos long.1] at failed
      exact ⟨refused, (nothing _ refused).1, dfa, rfl, long.1, long.2, taken,
        failed⟩

end PatternAutomata.Scanner
