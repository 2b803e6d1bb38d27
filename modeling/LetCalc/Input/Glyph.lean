import LetCalc.Input.Basic
import LetCalc.Input.Utf8

/-!
# From events to characters

An input is decoded one item at a time.  A byte sequence that is not the encoding of a character
gives one item too, which names the fault, and decoding goes on at the first byte that does not
belong to the sequence.  What the language's scanner sees is the text up to the first end or
failure, as a list of glyphs.

Main results:

- Theorem `Input.length_next_lt`: an item is never produced without taking an event.
- Definition `Input.answers`: the answers of repeated calls, through a number of ends.
- Definition `Input.text`: all that precedes the first end or failure.
-/

namespace LetCalc

/-! ## Items -/

/-- Why a byte sequence is not the encoding of a character. -/
inductive Fault where
  /-- The byte cannot start a sequence. -/
  | badStart (byte : UInt8)
  /-- The sequence that starts with the byte lacks continuation bytes. -/
  | truncated (first : UInt8)
  /-- The sequence is complete, but overlong, a surrogate or past the last code point. -/
  | illFormed
deriving DecidableEq, Repr

/-- A byte as two lower-case hexadecimal digits after `0x`. -/
def hexByte (b : UInt8) : String :=
  "0x" ++ String.ofList [Nat.digitChar (b.toNat / 16), Nat.digitChar (b.toNat % 16)]

/-- The wording of a fault. -/
def Fault.message : Fault → String
  | .badStart b => "unexpected UTF-8 start byte: " ++ hexByte b
  | .truncated b => "truncated UTF-8 sequence starting with " ++ hexByte b
  | .illFormed =>
    "failed to convert byte sequence to UTF-8: invalid utf-8 sequence of 1 bytes from index 0"

/-- One element of a decoded text. -/
inductive Glyph where
  | char (c : Char)
  /-- A byte sequence that encodes no character. -/
  | malformed (fault : Fault)
deriving DecidableEq, Repr

/-- What decoding delivers before the input ends. -/
inductive Item where
  | glyph (g : Glyph)
  /-- A read failed, for the given reason. -/
  | failed (reason : String)
deriving DecidableEq, Repr

/-- The wording of an item that is not a character. -/
def Item.error? : Item → Option String
  | .glyph (.char _) => none
  | .glyph (.malformed fault) => some fault.message
  | .failed reason => some ("failed to read bytes: " ++ reason)

namespace Input

/-! ## One item -/

/-- Takes up to `n` continuation bytes from the front of an input. -/
def takeContinuation : Nat → Input → List UInt8 × Input
  | n + 1, .byte b :: rest =>
    if Utf8.isContinuation b then
      let (more, rest') := takeContinuation n rest
      (b :: more, rest')
    else ([], .byte b :: rest)
  | _, input => ([], input)

/-- Decodes the sequence of `n + 1` bytes whose first byte has been taken.  A failure met
before the sequence is complete takes its place; an end, or a byte that does not belong to it,
cuts it short and stays in the input. -/
def decodeFrom (first : UInt8) (n : Nat) (input : Input) : Item × Input :=
  let (more, rest) := takeContinuation n input
  if more.length = n then
    match Utf8.char? first more with
    | some c => (.glyph (.char c), rest)
    | none => (.glyph (.malformed .illFormed), rest)
  else
    match rest with
    | .failed reason :: rest' => (.failed reason, rest')
    | _ => (.glyph (.malformed (.truncated first)), rest)

/-- The next item and the input after it; no item at an end of the input. -/
def next : Input → Option Item × Input
  | [] => (none, [])
  | .ended :: rest => (none, rest)
  | .failed reason :: rest => (some (.failed reason), rest)
  | .byte b :: rest =>
    match Utf8.length? b with
    | some (n + 1) =>
      let (item, rest') := decodeFrom b n rest
      (some item, rest')
    | _ => (some (.glyph (.malformed (.badStart b))), rest)

theorem takeContinuation_append (n : Nat) (input : Input) :
    (takeContinuation n input).1.map .byte ++ (takeContinuation n input).2 = input := by
  fun_induction takeContinuation n input with
  | case1 n b rest _ more rest' heq ih => simp_all
  | case2 => simp
  | case3 => simp

private theorem length_decodeFrom_le (first : UInt8) (n : Nat) (input : Input) :
    (decodeFrom first n input).2.length ≤ input.length := by
  have h := congrArg List.length (takeContinuation_append n input)
  simp only [List.length_append, List.length_map] at h
  simp only [decodeFrom]
  split
  · split <;> simp only <;> omega
  · split
    · next heq => simp only [heq, List.length_cons] at h; simp only; omega
    · simp only; omega

/-- An item is never produced without taking an event. -/
theorem length_next_lt {input rest : Input} {item : Item} (h : next input = (some item, rest)) :
    rest.length < input.length := by
  unfold next at h
  split at h
  · cases h
  · cases h
  · cases h; simp
  · next b tail =>
    split at h
    · next n _ =>
      have hle := length_decodeFrom_le b n tail
      simp only [Prod.mk.injEq] at h
      rw [← h.2, List.length_cons]
      omega
    · cases h; simp

/-! ## All items -/

/-- The answers through `ends` more ends, after those already given. -/
def answersFrom (ends : Nat) (input : Input) (acc : Array (Option Item)) :
    Array (Option Item) :=
  match ends with
  | 0 => acc
  | ends + 1 =>
    match h : next input with
    | (none, rest) => answersFrom ends rest (acc.push none)
    | (some item, rest) => answersFrom (ends + 1) rest (acc.push (some item))
termination_by (ends, input.length)
decreasing_by
  · exact Prod.Lex.left _ _ (Nat.lt_succ_self ends)
  · exact Prod.Lex.right _ (length_next_lt h)

/-- The answers of successive calls of `next`, through the `ends`-th end of the input. -/
def answers (ends : Nat) (input : Input) : List (Option Item) :=
  (answersFrom ends input #[]).toList

end Input

/-- What precedes the first end or failure of an input. -/
structure Text where
  glyphs : List Glyph
  /-- The reason, when it was a failure that cut the text. -/
  failure : Option String
deriving DecidableEq, Repr

namespace Input

/-- Decodes to the first end or failure, after the glyphs already decoded. -/
def textFrom (glyphs : Array Glyph) (input : Input) : Text :=
  match _h : next input with
  | (some (.glyph g), rest) => textFrom (glyphs.push g) rest
  | (some (.failed reason), _) => ⟨glyphs.toList, some reason⟩
  | (none, _) => ⟨glyphs.toList, none⟩
termination_by input.length
decreasing_by exact length_next_lt _h

/-- All that precedes the first end or failure. -/
def text (input : Input) : Text := textFrom #[] input

end Input

end LetCalc
