import LetCalc.Main
import LetCalc.Proofs.Program.Recognition
import LetCalc.Proofs.Program.Source
import LetCalc.Proofs.Program.Acceptance
import LetCalc.Proofs.Program.Rendering
import LetCalc.Proofs.Program.Nesting
import LetCalc.Proofs.Machine.Renaming
import LetCalc.Proofs.Program.Dump
import LetCalc.Proofs.Input.Slices
import LetCalc.Proofs.Token.LongestMatch
import LetCalc.Proofs.Machine.Meaning
import LetCalc.Proofs.Token.Places
import LetCalc.Proofs.Program.Joining
import LetCalc.Proofs.Program.Recovery
import LetCalc.Proofs.Program.Keywords
import LetCalc.Proofs.Program.Traversal
import LetCalc.Proofs.Token.Layout
import LetCalc.Proofs.Program.SourceOrder
import LetCalc.Proofs.Context.Sharing
import LetCalc.Proofs.Program.Omission
import LetCalc.Proofs.Machine.CutOff
import LetCalc.Proofs.Context.Isolation
import LetCalc.Proofs.Program.Wording
import LetCalc.Proofs.Command.Composition
import LetCalc.Proofs.Input.Stream
import LetCalc.Proofs.Token.OnDemand
import LetCalc.Proofs.Machine.Order
import LetCalc.Proofs.Token.Numbers
import LetCalc.Proofs.Input.Boundaries
import LetCalc.Proofs.Program.Placeholders
import LetCalc.Proofs.Program.CallStack
import LetCalc.Proofs.Program.InStep
import LetCalc.Proofs.Machine.Notes
import LetCalc.Proofs.Context.Records
