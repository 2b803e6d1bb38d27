import LetCalc.Context
import LetCalc.Machine.Basic

/-!
# From a source to its output

A source is parsed in a context and the program is run, also when the source has errors.
-/

namespace LetCalc

/-- Runs a program from the start, with the given output. -/
def Program.execute {ι : Type} [DecidableEq ι] [Hashable ι] (program : Program ι) (sink : Sink) :
    Option Refusal × Machine ι :=
  (Machine.start sink).run program.stmts

/-- How a source was parsed and run. -/
structure Execution where
  program : Program Symbol
  /-- The refusal that ended the run, if output was refused. -/
  refusal : Option Refusal
  machine : Machine Symbol
  /-- All records of parsing and running. -/
  journal : Journal
  context : Context

/-- Parses an input and runs the program. -/
def Context.run (ctx : Context) (path : Option String) (input : Input) (sink : Sink) :
    Execution :=
  let parsed := ctx.parse path input
  let (refusal, machine) := parsed.value.execute sink
  { program := parsed.value
    refusal
    machine
    journal := parsed.journal ++ machine.journal Symbol.name
    context := parsed.context }

end LetCalc
