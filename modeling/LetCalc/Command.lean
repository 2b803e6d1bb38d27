import LetCalc.Interpreter

/-!
# The command

The command reads one source, reports every error in it, and on request writes the program back
and runs it.  Arguments are taken from left to right; the first that asks for help or for the
version, or that cannot be understood, decides.

Main results:

- Definition `Request.ofArgs`: what the arguments ask for.
- Definition `Options.answer`: exit code and output for a source.
-/

namespace LetCalc

/-! ## Arguments -/

/-- What to do with which source. -/
structure Options where
  /-- Write the program back. -/
  dump : Bool
  /-- Run the program. -/
  eval : Bool
  /-- The path of the source, or a dash for the standard input. -/
  file : String
deriving DecidableEq, Repr

/-- What a list of arguments asks for. -/
inductive Request where
  | help
  | version
  /-- The arguments make no sense. -/
  | misuse
  | run (options : Options)
deriving DecidableEq, Repr

/-- An option without a value. -/
inductive Flag where
  | dump
  | eval
  | version
  | help
deriving DecidableEq, Repr

/-- The flag with the given long name. -/
def Flag.ofName? (name : String) : Option Flag :=
  if name = "--dump" then some dump
  else if name = "--eval" then some eval
  else if name = "--version" then some version
  else if name = "--help" then some help
  else none

/-- The flag with the given letter. -/
def Flag.ofLetter? (letter : Char) : Option Flag :=
  match letter with
  | 'd' => some dump
  | 'e' => some eval
  | 'v' => some version
  | 'h' => some help
  | _ => none

/-- The options that the arguments so far have set. -/
structure Draft where
  dump : Bool
  eval : Bool
  file : Option String
deriving DecidableEq, Repr

namespace Draft

/-- Nothing is set. -/
def empty : Draft := ⟨false, false, none⟩

/-- Takes a flag, or nothing that makes sense.  No flag may be given twice. -/
def flag (draft : Draft) : Option Flag → Except Request Draft
  | some .dump => if draft.dump then .error .misuse else .ok { draft with dump := true }
  | some .eval => if draft.eval then .error .misuse else .ok { draft with eval := true }
  | some .version => .error .version
  | some .help => .error .help
  | none => .error .misuse

/-- Takes a path.  There is only one, and it is not empty. -/
def path (draft : Draft) (path : String) : Except Request Draft :=
  if draft.file.isNone && path ≠ "" then .ok { draft with file := some path } else .error .misuse

/-- Takes an argument: a flag by its name, some flags by their letters, or a path. -/
def arg (draft : Draft) (arg : String) : Except Request Draft :=
  match arg.toList with
  | '-' :: '-' :: _ => draft.flag (Flag.ofName? arg)
  | '-' :: letter :: letters =>
    (letter :: letters).foldlM (fun draft letter => draft.flag (Flag.ofLetter? letter)) draft
  | _ => draft.path arg

/-- Takes arguments from left to right.  After a double dash there are only paths. -/
def args (draft : Draft) : List String → Except Request Draft
  | [] => .ok draft
  | arg :: rest =>
    if arg = "--" then rest.foldlM path draft
    else
      match draft.arg arg with
      | .ok draft => draft.args rest
      | .error request => .error request

/-- What the options ask for, once there are no more arguments. -/
def request (draft : Draft) : Request :=
  match draft.file with
  | some file => .run ⟨draft.dump, draft.eval, file⟩
  | none => .misuse

end Draft

/-- What a list of arguments asks for. -/
def Request.ofArgs (args : List String) : Request :=
  match Draft.empty.args args with
  | .ok draft => draft.request
  | .error request => request

/-! ## Answers -/

/-- What the command leaves behind. -/
structure Answer where
  code : Nat
  stdout : String
  stderr : String
deriving DecidableEq, Repr

/-- The name of the command and its version. -/
def versionText : String := "let 0.1.0\n"

/-- A short text on how the command is used.  Its wording is that of the reader of the arguments. -/
def usageText : String :=
  "Usage: let [OPTIONS] <FILE>\n\n" ++
  "Arguments:\n  <FILE>  Input file.  Use \"-\" to read from standard input\n\n" ++
  "Options:\n  -v, --version  Print version\n  -d, --dump     Dump the parsed program again\n" ++
  "  -e, --eval     Evaluate the program\n  -h, --help     Print help\n"

namespace Options

/-- The label of the source: its path, or none for the standard input. -/
def label (options : Options) : Option String :=
  if samePath (some options.file) (some "-") then none else some options.file

/-- The answer for a source.  A file that cannot be opened has a reason in place of an input. -/
def answer (options : Options) : Except String Input → Answer
  | .error reason =>
    ⟨1, "", "Error: cannot read file '" ++ options.file ++ "'\n\nCaused by:\n    " ++ reason ++ "\n"⟩
  | .ok input =>
    let parsed := (Context.empty 0).parse options.label input
    let errors := parsed.context.errorCount
    let lines := parsed.context.diagnostics.toList.map (·.text ++ "\n")
    let dumped := if options.dump then (parsed.value.map Symbol.name).render else ""
    let printed :=
      if options.eval then (parsed.value.execute .unlimited).2.sink.written else ""
    { code := if errors = 0 then 0 else 1
      stdout := dumped ++ printed
      stderr := String.join lines ++
        if errors = 0 then "" else errors.repr ++ " error(s) encountered\n" }

end Options

/-- The answer to a request, given what opening its source gives. -/
def Request.answer (source : Options → Except String Input) : Request → Answer
  | .help => ⟨0, usageText, ""⟩
  | .version => ⟨0, versionText, ""⟩
  | .misuse => ⟨2, "", usageText⟩
  | .run options => options.answer (source options)

end LetCalc
