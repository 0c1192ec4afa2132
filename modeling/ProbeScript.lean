import ProbeScript.Number.Basic
import ProbeScript.Number.Rounding
import ProbeScript.Number.Text
import ProbeScript.Text.Quoted
import ProbeScript.Text.Units
import ProbeScript.Text.Utf8
import ProbeScript.Text.Collation
import ProbeScript.Kind
import ProbeScript.Operator
import ProbeScript.Note
import ProbeScript.Fault
import ProbeScript.Diagnostic.Basic
import ProbeScript.Diagnostic.Report
import ProbeScript.Frame.Registers
import ProbeScript.Frame.Stack
import ProbeScript.Frame.Basic
import ProbeScript.Provider.Basic
import ProbeScript.Forest.Basic
import ProbeScript.Forest.Lemmas
import ProbeScript.Forest.Chain
import ProbeScript.Forest.Descent
import ProbeScript.Forest.Walk
import ProbeScript.Forest.Ancestor
import ProbeScript.Ledger
import ProbeScript.Provider.Resolution
import ProbeScript.Symbols.Basic
import ProbeScript.Symbols.Attachment
import ProbeScript.Arena.Basic
import ProbeScript.Arena.Freeing
import ProbeScript.Workshop.Basic
import ProbeScript.Workshop.Construct
import ProbeScript.Workshop.Step
import ProbeScript.Dump.Line
import ProbeScript.Dump.Diagram
import ProbeScript.Grammar.Recipe
import ProbeScript.Grammar.Parse
import ProbeScript.Compile.Pass
import ProbeScript.Compile.Source
import ProbeScript.Compile.Path
import ProbeScript.Compile.File
import ProbeScript.Proofs.Forest.Grounded
import ProbeScript.Proofs.Forest.Euler
import ProbeScript.Proofs.Forest.Lineage
import ProbeScript.Proofs.Forest.Subtree
import ProbeScript.Proofs.Dump.Rendering
import ProbeScript.Proofs.Forest.Chained
import ProbeScript.Proofs.Forest.Adding
import ProbeScript.Proofs.Forest.Grown
import ProbeScript.Proofs.Forest.Appended
import ProbeScript.Proofs.Workshop.Reached
import ProbeScript.Proofs.Arena.Freed
import ProbeScript.Proofs.Expression.Basic
import ProbeScript.Proofs.Expression.Reading
import ProbeScript.Proofs.Expression.Planted
import ProbeScript.Proofs.Expression.Building
import ProbeScript.Proofs.Expression.RoundTrip
import ProbeScript.Proofs.Compile.Parts
import ProbeScript.Proofs.Compile.Gating
import ProbeScript.Proofs.Grammar.Unparsed
import ProbeScript.Proofs.Workshop.Minted
import ProbeScript.Proofs.Arena.Custody
import ProbeScript.Proofs.Compile.Freeing
import ProbeScript.Proofs.Arena.Accounting
import ProbeScript.Proofs.Forest.Closed
import ProbeScript.Proofs.Workshop.Ruled
import ProbeScript.Proofs.Workshop.Successors
import ProbeScript.Proofs.Ledger.Records
import ProbeScript.Proofs.Symbols.Aliased
import ProbeScript.Proofs.Frame.Served
import ProbeScript.Proofs.Session.Basic
import ProbeScript.Proofs.Session.Sharing
import ProbeScript.Proofs.Session.Isolation
import ProbeScript.Proofs.Frame.Granted
import ProbeScript.Proofs.Number.Exact
import ProbeScript.Proofs.Frame.Tiled
import ProbeScript.Proofs.Text.Collated
import ProbeScript.Proofs.Diagnostic.Reported
import ProbeScript.Proofs.Forest.Ended
import ProbeScript.Proofs.Forest.Prolonged
import ProbeScript.Proofs.Workshop.Onward
import ProbeScript.Proofs.Arena.Emptied
import ProbeScript.Proofs.Forest.Climbed
import ProbeScript.Proofs.Number.Rounded
import ProbeScript.Proofs.Frame.Lowered
import ProbeScript.Proofs.Number.Numeral
import ProbeScript.Proofs.Dump.Legible
import ProbeScript.Proofs.Dump.Drawn
import ProbeScript.Proofs.Dump.Determined
import ProbeScript.Proofs.Symbols.Attached
import ProbeScript.Proofs.Provider.Resolved
import ProbeScript.Proofs.Workshop.Joined
import ProbeScript.Proofs.Compile.Dumped
import ProbeScript.Proofs.Number.Hexadecimal
import ProbeScript.Proofs.Text.Encoded
import ProbeScript.Proofs.Text.Unquoted
import ProbeScript.Proofs.Dump.Unambiguous
import ProbeScript.Proofs.Workshop.Wrapped
