import LiveChain.Text.Basic
import LiveChain.Number.Shortest
import LiveChain.Number.Literal
import LiveChain.Number.Precision
import LiveChain.Datum
import LiveChain.Notice
import LiveChain.Value.Slots
import LiveChain.Scan.Spans
import LiveChain.Syntax.Walk
import LiveChain.Locate.Values
import LiveChain.Edit.Apply
import LiveChain.Syntax.Rule
import LiveChain.Syntax.Parse
import LiveChain.Locate.Discover
import LiveChain.Live.Update
import LiveChain.Config.Settings
import LiveChain.Toml.Document
import LiveChain.Config.File
import LiveChain.Report.Setup
import LiveChain.Cli.Run
import LiveChain.Main
import LiveChain.Proofs.Edit.Weave
import LiveChain.Proofs.Edit.Soundness
import LiveChain.Proofs.Live.Consistency
import LiveChain.Proofs.Live.Preview
import LiveChain.Proofs.Editor.Place
import LiveChain.Proofs.Editor.Block
import LiveChain.Proofs.Editor.Offset
import LiveChain.Proofs.Live.Tracking
import LiveChain.Proofs.Live.Commit
import LiveChain.Proofs.Live.Outcome
import LiveChain.Proofs.Live.Coherence
import LiveChain.Proofs.Scan.Rescan
import LiveChain.Proofs.Chain.Editing
import LiveChain.Proofs.Live.Ending
import LiveChain.Proofs.Edit.Lookup
import LiveChain.Proofs.Live.Indifference
import LiveChain.Proofs.Live.LastWrite
import LiveChain.Proofs.Live.Pairing
import LiveChain.Proofs.Live.Wholeness
import LiveChain.Proofs.Locate.Faithful
import LiveChain.Proofs.Scan.Symbols
import LiveChain.Proofs.Text.Lines
import LiveChain.Proofs.Scan.Pattern
import LiveChain.Proofs.Edit.Simultaneous
import LiveChain.Proofs.Scan.WellFormed
import LiveChain.Proofs.Edit.Directives
import LiveChain.Proofs.Scan.Closing
import LiveChain.Proofs.Scan.Interpolation
import LiveChain.Proofs.Locate.Owner
import LiveChain.Proofs.Locate.Identity
import LiveChain.Proofs.Live.Keys
import LiveChain.Proofs.Locate.Sites
import LiveChain.Proofs.Number.Rounding
import LiveChain.Proofs.Number.Places
import LiveChain.Proofs.Number.Decimal
import LiveChain.Proofs.Number.ReadBack
import LiveChain.Proofs.Number.Exact
import LiveChain.Proofs.Number.Order
import LiveChain.Proofs.Number.Accuracy
import LiveChain.Proofs.Number.Integers
import LiveChain.Proofs.Syntax.Delimited
import LiveChain.Proofs.Cli.ExitCode
