import LetCalc.Command
import LetCalc.Proofs.Program.Wording
import LetCalc.Proofs.Text.ByteOrder

/-!
# What the command is composed of

The command parses one source, and what it answers is put together from the parsed program and from
what was found.  The label of the source is handed through all of scanning and parsing, but it
decides nothing: it stands in front of each report, and nowhere else.

Main results:

- Theorem `Request.ofArgs_args`: arguments that ask for given options.
- Theorem `Parser.program_relabel`: the label of a source decides nothing about how it is read.
- Theorem `Options.answer_ok`: the answer for a source, in terms of the unlabelled source.
- Theorem `Request.answers_compose`: how the answers to different requests are related.
-/

namespace LetCalc

/-! ## Arguments -/

/-- Arguments that ask for the options: flags by their letters, and then the path. -/
def Options.args (options : Options) : List String :=
  (if options.dump then ["-d"] else []) ++ (if options.eval then ["-e"] else [])
    ++ ["--", options.file]

/-- A path after a double dash is taken as it is. -/
theorem Draft.args_path (dump eval : Bool) {file : String} (h : file ≠ "") :
    args ⟨dump, eval, none⟩ ["--", file] = .ok ⟨dump, eval, some file⟩ := by
  simp [args, path, h]

/-- Any options with a path that is not empty can be asked for. -/
theorem Request.ofArgs_args {options : Options} (h : options.file ≠ "") :
    ofArgs options.args = .run options := by
  rcases options with ⟨dump, eval, file⟩
  have hargs : Draft.empty.args (Options.args ⟨dump, eval, file⟩)
      = .ok ⟨dump, eval, some file⟩ := by
    cases dump
    · cases eval
      · exact Draft.args_path false false h
      · exact Draft.args_path false true h
    · cases eval
      · exact Draft.args_path true false h
      · exact Draft.args_path true true h
  rw [ofArgs, hargs]
  rfl

/-! ## Labels -/

theorem Parser.ofInput_relabel (path path' : Option String) (input : Input) :
    ofInput path input
      = ({ (ofInput path' input).1 with path }, (ofInput path' input).2) := by
  simp only [ofInput, Lexer.ofInput, Lexer.next]
  split
  · rfl
  · rfl

/-- The label decides nothing about how a program is read. -/
theorem Parser.program_relabel (parser : Parser) (path : Option String) :
    program { parser with path }
      = ({ parser.program.1 with path }, parser.program.2.1, { parser.program.2.2 with path }) :=
  rfl

namespace Context

variable (ctx : Context) (path path' : Option String) (input : Input)

/-- The same source with another label is the same program with this label. -/
theorem value_parse_relabel :
    (ctx.parse path input).value = { (ctx.parse path' input).value with path } := by
  simp only [parse, openParser, parseProgram, Parser.ofInput_relabel path path',
    Parser.program_relabel]
  rfl

/-- In the same source with another label the same is found. -/
theorem findings_parse_relabel :
    (ctx.parse path input).journal.findings = (ctx.parse path' input).journal.findings := by
  rw [journal_parse, journal_parse, Parser.ofInput_relabel path path', Parser.program_relabel]

end Context

/-! ## Answers -/

/-- What a report says behind the label of the source. -/
def Finding.remark (finding : Finding) : String :=
  ":" ++ finding.span.first.line.repr ++ ":" ++ finding.span.first.col.repr ++ ": error: "
    ++ finding.problem.message

/-- The label stands in front of a report, or the name of the standard input. -/
theorem Finding.text_diagnostic (finding : Finding) (path : Option String) :
    (finding.diagnostic path).text = path.getD "<stdin>" ++ finding.remark := by
  simp only [diagnostic, Diagnostic.text, Loc.text, remark, String.append_assoc]

theorem Finding.oneLine_remark {finding : Finding} (h : OneLine finding.problem.message) :
    OneLine finding.remark := by
  have hline : OneLine (":" ++ finding.span.first.line.repr ++ ":") :=
    OneLine.around (by decide) (.repr _) (by decide)
  exact oneLine_append.2 ⟨OneLine.around hline (.repr _) (by decide), h⟩

/-- All reports, each on a line behind the name of the source, and then their number if there are
any. -/
def reportText (name : String) (findings : List Finding) : String :=
  String.join (findings.map fun f => name ++ f.remark ++ "\n")
    ++ if findings = [] then "" else findings.length.repr ++ " error(s) encountered\n"

/-- The lines of the diagnostics, and then their number, are what the findings say behind the name
of the source. -/
theorem reportText_eq (path : Option String) (findings : List Finding) :
    reportText (path.getD "<stdin>") findings =
      let diagnostics := findings.map (Finding.diagnostic path)
      String.join (diagnostics.map fun d => d.text ++ "\n")
        ++ (if diagnostics = [] then ""
          else diagnostics.length.repr ++ " error(s) encountered\n") := by
  simp only [reportText, List.map_map, Function.comp_def, Finding.text_diagnostic,
    List.map_eq_nil_iff, List.length_map]

/-- The answer for a source is made of what parsing it under any label gives. -/
theorem Options.answer_ok (options : Options) (path : Option String) (input : Input) :
    options.answer (.ok input) =
      let parsed := (Context.empty 0).parse path input
      let findings := parsed.journal.findings
      ⟨if findings = [] then 0 else 1,
        (if options.dump then (parsed.value.map Symbol.name).render else "")
          ++ (if options.eval then (parsed.value.execute .unlimited).2.sink.written else ""),
        reportText (options.label.getD "<stdin>") findings⟩ := by
  have hdiagnostics : ((Context.empty 0).parse options.label input).context.diagnostics.toList
      = ((Context.empty 0).parse path input).journal.findings.map
        (Finding.diagnostic options.label) := by
    rw [Context.diagnostics_parse, Context.findings_parse_relabel _ options.label path]
    rfl
  have hcount : ((Context.empty 0).parse options.label input).context.errorCount
      = ((Context.empty 0).parse path input).journal.findings.length := by
    rw [Context.errorCount, ← Array.length_toList, hdiagnostics, List.length_map]
  simp only [answer, reportText_eq]
  rw [hcount, hdiagnostics, Context.value_parse_relabel _ options.label path]
  simp only [List.length_eq_zero_iff, List.map_eq_nil_iff, List.length_map]
  rfl

/-- How the answers to requests for one source are related.  However arguments are understood, some
of them ask for a file that has the given bytes, with and without the two flags, and others for the
standard input with these bytes.  Code and error output do not depend on the flags.  The code is
zero exactly if there are no diagnostics, and one otherwise.  The error output is the diagnostics in
order, one on a line, and then their number if there are any; each is the name of the source and
then a remark, which has no line feed in it.  With both flags the output is that of the first flag
and then that of the second one: the program written back, and what it prints, whether or not there
are diagnostics.  From the standard input code and output are the same, and in the error output each
remark stands behind another name. -/
theorem Request.answers_compose (parse : List String → Request) (bytes : List UInt8)
    (file : String) (args dashed : Bool → Bool → List String)
    (hargs : ∀ dump eval, parse (args dump eval) = .run ⟨dump, eval, file⟩)
    (hdashed : ∀ dump eval, parse (dashed dump eval) = .run ⟨dump, eval, "-"⟩) :
    let source : Options → Except String Input := fun _ => .ok (.ofBytes bytes)
    let fromFile dump eval := (parse (args dump eval)).answer source
    let fromStdin dump eval := (parse (dashed dump eval)).answer source
    let label := if samePath (some file) (some "-") then none else some file
    let parsed := (Context.empty 0).parse label (.ofBytes bytes)
    let diagnostics := parsed.context.diagnostics.toList
    let findings := parsed.journal.findings
    let total :=
      if diagnostics = [] then "" else diagnostics.length.repr ++ " error(s) encountered\n"
    (∀ dump eval,
      (fromFile dump eval).code = (if diagnostics = [] then 0 else 1) ∧
      (fromFile dump eval).stderr
        = String.join (diagnostics.map fun d => d.text ++ "\n") ++ total) ∧
    (fromFile false false).stdout = "" ∧
    (fromFile true false).stdout = (parsed.value.map Symbol.name).render ∧
    (fromFile false true).stdout = (parsed.value.execute .unlimited).2.sink.written ∧
    (fromFile true true).stdout = (fromFile true false).stdout ++ (fromFile false true).stdout ∧
    diagnostics.map Diagnostic.text = findings.map (fun f => label.getD "<stdin>" ++ f.remark) ∧
    (∀ f ∈ findings, OneLine f.remark) ∧
    ∀ dump eval,
      (fromStdin dump eval).code = (fromFile dump eval).code ∧
      (fromStdin dump eval).stdout = (fromFile dump eval).stdout ∧
      (fromStdin dump eval).stderr
        = String.join (findings.map fun f => "<stdin>" ++ f.remark ++ "\n") ++ total := by
  intro source fromFile fromStdin label parsed diagnostics findings total
  have hfile : ∀ dump eval, fromFile dump eval
      = ⟨if findings = [] then 0 else 1,
        (if dump then (parsed.value.map Symbol.name).render else "")
          ++ (if eval then (parsed.value.execute .unlimited).2.sink.written else ""),
        reportText (label.getD "<stdin>") findings⟩ := by
    intro dump eval
    simp only [fromFile, hargs]
    exact Options.answer_ok ⟨dump, eval, file⟩ label (.ofBytes bytes)
  have hstdin : ∀ dump eval, fromStdin dump eval
      = { fromFile dump eval with stderr := reportText "<stdin>" findings } := by
    intro dump eval
    have hlabel : Options.label ⟨dump, eval, "-"⟩ = none := by simp [Options.label]
    have hanswer := Options.answer_ok ⟨dump, eval, "-"⟩ label (.ofBytes bytes)
    rw [hlabel] at hanswer
    simp only [fromStdin, hdashed, hfile]
    exact hanswer
  have hdiagnostics : diagnostics = findings.map (Finding.diagnostic label) :=
    Context.diagnostics_parse ..
  have hempty : findings = [] ↔ diagnostics = [] := by rw [hdiagnostics, List.map_eq_nil_iff]
  have htext : diagnostics.map Diagnostic.text
      = findings.map fun f => label.getD "<stdin>" ++ f.remark := by
    rw [hdiagnostics, List.map_map]
    exact List.map_congr_left fun f _ => f.text_diagnostic label
  have htotal : ∀ name, reportText name findings
      = String.join (findings.map fun f => name ++ f.remark ++ "\n") ++ total := by
    intro name
    simp only [reportText, total, hempty]
    rw [hdiagnostics, List.length_map]
  refine ⟨?_, ?_, ?_, ?_, ?_, htext, ?_, ?_⟩
  · intro dump eval
    rw [hfile]
    refine ⟨if_congr hempty rfl rfl, ?_⟩
    rw [reportText_eq, ← hdiagnostics]
  · rw [hfile]
    rfl
  · rw [hfile]
    exact String.append_empty
  · rw [hfile]
    exact String.empty_append
  · rw [hfile, hfile, hfile]
    simp
  · intro f hf
    apply Finding.oneLine_remark
    apply Context.oneLine_of_mem_findings (Context.empty 0) label _ hf
    simp [Input.failure_text_ofBytes]
  · intro dump eval
    rw [hstdin]
    exact ⟨rfl, rfl, htotal "<stdin>"⟩

/-- A program that lacks an operand, in a file and from the standard input: there is one diagnostic,
which differs in the name of the source. -/
theorem answers_operandless :
    let answer file dump eval := (Request.ofArgs (Options.args ⟨dump, eval, file⟩)).answer
      fun _ => .ok (.ofBytes (bytesOf "print 7 + ;"))
    let remark := ":1:11: error: expected primary or unary expression, got ';' while parsing "
      ++ "right-hand side of binary expression\n1 error(s) encountered\n"
    (∀ file ∈ ["a.let", "-"], ∀ dump eval,
      Request.ofArgs (Options.args ⟨dump, eval, file⟩) = .run ⟨dump, eval, file⟩) ∧
      (answer "a.let" true true).code = 1 ∧
      (answer "a.let" true true).stderr = "a.let" ++ remark ∧
      (answer "-" true true).stderr = "<stdin>" ++ remark := by
  intro answer remark
  have hargs : ∀ file ∈ ["a.let", "-"], ∀ dump eval,
      Request.ofArgs (Options.args ⟨dump, eval, file⟩) = .run ⟨dump, eval, file⟩ := by
    intro file hfile dump eval
    apply Request.ofArgs_args
    rintro rfl
    simp at hfile
  have hanswers := Request.answers_compose Request.ofArgs (bytesOf "print 7 + ;") "a.let" _ _
    (hargs "a.let" (by simp)) (hargs "-" (by simp))
  have hlabel : samePath (some "a.let") (some "-") = false := by decide
  have hfindings : ((Context.empty 0).parse (some "a.let")
        (.ofBytes (bytesOf "print 7 + ;"))).journal.findings
      = [⟨.single ⟨1, 11⟩, .expected .operand (some .semicolon) .rightOperand⟩] := by
    rw [Context.journal_parse]
    decide +kernel
  have hdiagnostics := (Context.empty 0).diagnostics_parse (some "a.let")
    (.ofBytes (bytesOf "print 7 + ;"))
  simp only [hlabel, Bool.false_eq_true, if_false, hfindings] at hanswers hdiagnostics
  rw [hdiagnostics] at hanswers
  rcases hanswers with ⟨hfile, -, -, -, -, -, -, hstdin⟩
  refine ⟨hargs, (hfile true true).1, (hfile true true).2.trans ?_, (hstdin true true).2.2.trans ?_⟩
  · decide +kernel
  · decide +kernel

end LetCalc
