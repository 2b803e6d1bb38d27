/-!
# Byte streams

A source is read in pieces: some bytes, an interruption, a failure, or a report that the input has
ended.  None of them is final, since a later read may go on.  This file reduces such a history of
reads to the events that a byte-wise reader meets.

Main results:

- Definition `Read.events`: what a byte-wise reader meets in one read.
- Definition `Input.ofReads`: what it meets in a history of reads.
-/

namespace LetCalc

/-- What one read of a source delivers. -/
inductive Read where
  /-- Some bytes, perhaps none. -/
  | data (bytes : List UInt8)
  /-- The read was interrupted and is tried again. -/
  | interrupted
  /-- The read failed, for the given reason. -/
  | failed (reason : String)
  /-- The read found the end of the input. -/
  | ended
deriving DecidableEq, Repr

/-- What a reader that takes one byte at a time meets. -/
inductive Event where
  | byte (value : UInt8)
  | failed (reason : String)
  | ended
deriving DecidableEq, Repr

/-- The events still to come.  After the last of them the input has ended for good. -/
abbrev Input := List Event

/-- The events of one read: an interruption is none, data is one event for each byte. -/
def Read.events : Read → List Event
  | .data bytes => bytes.map .byte
  | .interrupted => []
  | .failed reason => [.failed reason]
  | .ended => [.ended]

namespace Input

/-- The events of a history of reads. -/
def ofReads (reads : List Read) : Input := reads.flatMap Read.events

/-- An input that delivers the bytes and then ends. -/
def ofBytes (bytes : List UInt8) : Input := bytes.map .byte

/-- An input that delivers the UTF-8 encoding of a text and then ends. -/
def ofString (text : String) : Input := ofBytes text.toByteArray.data.toList

@[simp]
theorem ofReads_data (bytes : List UInt8) (reads : List Read) :
    ofReads (.data bytes :: reads) = ofBytes bytes ++ ofReads reads := rfl

end Input

end LetCalc
