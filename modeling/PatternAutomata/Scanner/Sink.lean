/-!
# Sinks of limited capacity

A sink takes bytes until it is full.  A text that does not fit is taken as
far as there is room, and then refused.
-/

namespace PatternAutomata.Scanner

/-- Why a text is not taken whole. -/
inductive SinkError where
  /-- There is no room for all of it. -/
  | full
deriving DecidableEq, Repr

/-- The text of the refusal. -/
def SinkError.message : SinkError → String
  | full => "sink is full"

/-- A receiver of bytes. -/
structure Sink where
  /-- The bytes taken so far. -/
  taken : ByteArray
  /-- How many more bytes fit, if there is a limit. -/
  room : Option Nat

namespace Sink

/-- A sink that has taken nothing yet. -/
def withCapacity (capacity : Option Nat) : Sink := ⟨ByteArray.empty, capacity⟩

/-- Write one text. -/
def write (text : String) (sink : Sink) : Sink × Option SinkError :=
  let bytes := text.toUTF8
  match sink.room with
  | none => (⟨sink.taken ++ bytes, none⟩, none)
  | some room =>
      if bytes.size ≤ room then
        (⟨sink.taken ++ bytes, some (room - bytes.size)⟩, none)
      else
        (⟨sink.taken ++ bytes.extract 0 room, some 0⟩, some .full)

/-- Write texts in order, up to the first that is refused. -/
def writeAll : List String → Sink → Sink × Option SinkError
  | [], sink => (sink, none)
  | text :: rest, sink =>
      match sink.write text with
      | (filled, none) => writeAll rest filled
      | (filled, some error) => (filled, some error)

end Sink

end PatternAutomata.Scanner
