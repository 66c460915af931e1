import Keystroke.Journal
import Keystroke.Machine.Trace
import Keystroke.Program.Dump
import Keystroke.Program.Listing
import Keystroke.Proofs.Decimal.Canonical
import Keystroke.Proofs.Decimal.Order
import Keystroke.Proofs.Decimal.RoundTrip
import Keystroke.Proofs.Machine.Budget
import Keystroke.Proofs.Machine.CallDepth
import Keystroke.Proofs.Machine.CallGraph
import Keystroke.Proofs.Machine.CallTree
import Keystroke.Proofs.Machine.DataIndependence
import Keystroke.Proofs.Machine.Failure
import Keystroke.Proofs.Machine.NumericEquality
import Keystroke.Proofs.Machine.Renaming
import Keystroke.Proofs.Machine.Resolution
import Keystroke.Proofs.Machine.Sessions
import Keystroke.Proofs.Machine.Termination
import Keystroke.Proofs.Machine.Values
import Keystroke.Proofs.Messages
import Keystroke.Proofs.Program.Concatenation
import Keystroke.Proofs.Program.Grammar
import Keystroke.Proofs.Program.Layout
import Keystroke.Proofs.Program.MissingName
import Keystroke.Proofs.Program.Positions
import Keystroke.Proofs.Program.Relisting
import Keystroke.Proofs.Program.Stages
import Keystroke.Proofs.Registers.Commands
import Keystroke.Proofs.Tokenization
import Keystroke.Proofs.UnexpectedCharacter
import Keystroke.Proofs.Digits.LongDivision
import Keystroke.Proofs.Decimal.Guarded
