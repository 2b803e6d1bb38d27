/-!
# Output

What a program prints goes to a sink.  A sink may accept only so many bytes in all and then refuse
the rest, in one of two ways.  All that is printed is decimal digits and line feeds, so that each
character is one byte.

Main results:

- Theorem `Sink.write_unlimited`: a sink without limit takes everything.
-/

namespace LetCalc

/-- How a sink that is full answers. -/
inductive Refusal where
  /-- It reports an error. -/
  | error
  /-- It accepts no bytes and says so. -/
  | nothing
deriving DecidableEq, Repr

/-- The wording of a refusal. -/
def Refusal.message : Refusal → String
  | .error => "sink full"
  | .nothing => "failed to write whole buffer"

/-- Where output goes. -/
structure Sink where
  /-- The number of bytes still accepted, if there is a limit. -/
  room : Option Nat
  /-- The answer once the limit is reached. -/
  refusal : Refusal
  /-- All that has been accepted. -/
  written : String
deriving DecidableEq, Repr

namespace Sink

/-- A sink that accepts everything. -/
def unlimited : Sink := ⟨none, .error, ""⟩

/-- A sink that accepts some bytes in all. -/
def limited (room : Nat) (refusal : Refusal) : Sink := ⟨some room, refusal, ""⟩

/-- Writes a text of one-byte characters.  A text that does not fit is written as far as it fits,
and then refused. -/
def write (sink : Sink) (text : String) : Option Refusal × Sink :=
  match sink.room with
  | none => (none, { sink with written := sink.written ++ text })
  | some room =>
    if text.length ≤ room then
      (none, { sink with room := some (room - text.length), written := sink.written ++ text })
    else
      (some sink.refusal,
        { sink with
          room := some 0
          written := sink.written ++ String.ofList (text.toList.take room) })

/-- A sink without limit takes everything. -/
theorem write_unlimited {sink : Sink} (h : sink.room = none) (text : String) :
    sink.write text = (none, { sink with written := sink.written ++ text }) := by
  simp [write, h]

end Sink

end LetCalc
