import Monkey.Dump.Value
import Monkey.Main
import Monkey.Syntax.Same
import Monkey.Value.Same
import Monkey.Proofs.Parse.Grammar
import Monkey.Proofs.Parse.Passage
import Monkey.Proofs.Parse.Accounting
import Monkey.Proofs.Parse.Completeness
import Monkey.Proofs.Parse.Recognition
import Monkey.Proofs.Token.Scanning
import Monkey.Proofs.Eval.Ensures
import Monkey.Proofs.Eval.Frame
import Monkey.Proofs.Eval.Plain
import Monkey.Proofs.Parse.Expressible
import Monkey.Proofs.Eval.Machine
import Monkey.Proofs.Eval.Termination
import Monkey.Proofs.Eval.Limit
import Monkey.Proofs.Token.Coverage
import Monkey.Proofs.Parse.Balance
import Monkey.Proofs.Parse.Locality
import Monkey.Proofs.Token.Writing
import Monkey.Proofs.Source.Layout
import Monkey.Proofs.Source.Lines
import Monkey.Proofs.Source.Printed
import Monkey.Proofs.Parse.Unambiguous
import Monkey.Proofs.Source.RoundTrip
import Monkey.Proofs.Eval.Repeat
import Monkey.Proofs.Repl.Transcript
import Monkey.Proofs.Parse.Attempts
import Monkey.Proofs.Parse.Keywords
import Monkey.Proofs.Parse.Stop
import Monkey.Proofs.Source.Excerpts
import Monkey.Proofs.Parse.Blame
import Monkey.Proofs.Source.Nesting
import Monkey.Proofs.Eval.Signal
import Monkey.Proofs.Source.Faults
import Monkey.Proofs.Token.Newlines
import Monkey.Proofs.Parse.Spine
import Monkey.Proofs.Eval.Hash
import Monkey.Proofs.Eval.Budget
import Monkey.Proofs.Token.LineNumbers
import Monkey.Proofs.Command.Agreement
import Monkey.Proofs.Scope.History
import Monkey.Proofs.Source.Operations
import Monkey.Proofs.Value.Lists
import Monkey.Proofs.Repl.Results
import Monkey.Proofs.Repl.Truncation
import Monkey.Proofs.Source.Diagnostics
