import LetCalc.Command

/-!
# The program

Opens the source that the arguments name, and hands over the answer.
-/

namespace LetCalc

/-- The wording of a failure of the system. -/
def failureText (e : IO.Error) : String :=
  match e with
  | .noFileOrDirectory _ code details => details ++ " (os error " ++ code.toNat.repr ++ ")"
  | .permissionDenied _ code details => details ++ " (os error " ++ code.toNat.repr ++ ")"
  | .inappropriateType _ code details => details ++ " (os error " ++ code.toNat.repr ++ ")"
  | e => toString e

/-- Reads a stream to its end, or up to a failure, after the reads already done. -/
partial def readFrom (stream : IO.FS.Stream) (reads : Array Read) : IO Input := do
  match ← (stream.read 65536).toBaseIO with
  | .ok bytes =>
    if bytes.isEmpty then return .ofReads reads.toList
    else readFrom stream (reads.push (.data bytes.data.toList))
  | .error e => return .ofReads (reads.push (.failed (failureText e))).toList

/-- Opens the source that the options name, and reads it. -/
def openSource (options : Options) : IO (Except String Input) := do
  match options.label with
  | none => return .ok (← readFrom (← IO.getStdin) #[])
  | some path =>
    match ← (IO.FS.Handle.mk path .read).toBaseIO with
    | .ok handle => return .ok (← readFrom (.ofHandle handle) #[])
    | .error e => return .error (failureText e)

end LetCalc

open LetCalc in
/-- Answers the arguments on the standard streams. -/
def main (args : List String) : IO UInt32 := do
  let request := Request.ofArgs args
  let source ←
    match request with
    | .run options => openSource options
    | _ => pure (.ok [])
  let answer := request.answer fun _ => source
  (← IO.getStderr).putStr answer.stderr
  (← IO.getStdout).putStr answer.stdout
  return answer.code.toUInt32
