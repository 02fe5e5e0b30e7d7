import TaintScan.Scan.Scanner
import TaintScan.Scan.Tree
import TaintScan.Proofs.Arena
import TaintScan.Proofs.Token.Layout
import TaintScan.Proofs.Token.Name
import TaintScan.Proofs.Extract.View
import TaintScan.Proofs.Extract.Parse
import TaintScan.Proofs.Extract.Suffix
import TaintScan.Proofs.Extract.Expression
import TaintScan.Proofs.Extract.Walk
import TaintScan.Proofs.Extract.Statement
import TaintScan.Proofs.Extract.Unit
import TaintScan.Proofs.Extract.Nesting
import TaintScan.Proofs.Extract.Alike
import TaintScan.Proofs.Extract.Scopes
import TaintScan.Proofs.Extract.Within
import TaintScan.Proofs.Extract.Countdown
import TaintScan.Proofs.Extract.Ahead
import TaintScan.Proofs.Extract.Bracket
import TaintScan.Proofs.Extract.Bodies
import TaintScan.Proofs.Extract.Deferring
import TaintScan.Proofs.Extract.Replay
import TaintScan.Proofs.Extract.Settled
import TaintScan.Proofs.Extract.Turn
import TaintScan.Proofs.Extract.Steady
import TaintScan.Proofs.Extract.Bound
import TaintScan.Proofs.Lines
import TaintScan.Proofs.Rule.Registry
import TaintScan.Proofs.Rule.Evidence
import TaintScan.Proofs.Rule.Alike
import TaintScan.Proofs.Rule.Filter
import TaintScan.Proofs.Rule.Index
import TaintScan.Proofs.Flow.Evaluation
import TaintScan.Proofs.Flow.Statement
import TaintScan.Proofs.Flow.Pass
import TaintScan.Proofs.Flow.Alike
import TaintScan.Proofs.Flow.Lookup
import TaintScan.Proofs.Rule.Name
import TaintScan.Proofs.Flow.Propagation
import TaintScan.Proofs.Flow.Call
import TaintScan.Proofs.Flow.Origin
import TaintScan.Proofs.Flow.Provenance
import TaintScan.Proofs.Flow.Account
import TaintScan.Proofs.Flow.Report
import TaintScan.Proofs.Flow.Direct
import TaintScan.Proofs.Flow.Order
import TaintScan.Proofs.Flow.History
import TaintScan.Proofs.Flow.Filter
import TaintScan.Proofs.Flow.Twin
import TaintScan.Proofs.Flow.Isolation
import TaintScan.Proofs.Flow.Visit
import TaintScan.Proofs.Flow.Writes
import TaintScan.Proofs.Flow.Rebinding
import TaintScan.Proofs.Flow.Unlabelled
import TaintScan.Proofs.Scan
import TaintScan.Proofs.Finding.Merge
import TaintScan.Proofs.Finding.Within
import TaintScan.Proofs.Finding.Direct
import TaintScan.Proofs.Shift.Lines
import TaintScan.Proofs.Shift.Token
import TaintScan.Proofs.Shift.Extract
import TaintScan.Proofs.Shift.Finding
import TaintScan.Proofs.Finding.Filter
import TaintScan.Proofs.Finding.Group
import TaintScan.Proofs.Cancellation
import TaintScan.Proofs.Report
import TaintScan.Proofs.Flow.Frame
import TaintScan.Proofs.Rule.Search
import TaintScan.Proofs.Flow.Silent
import TaintScan.Proofs.Extract.Depth
import TaintScan.Proofs.Token.Cut
import TaintScan.Proofs.Token.Linewise
import TaintScan.Proofs.Rule.Params
import TaintScan.Proofs.Flow.Shadow
import TaintScan.Proofs.Extract.Leaves
import TaintScan.Proofs.Extract.Chain
import TaintScan.Proofs.Text.Utf8
import TaintScan.Proofs.Token.Delimiter
import TaintScan.Proofs.Token.Read
import TaintScan.Proofs.Token.Literal
import TaintScan.Proofs.Token.WellFormed
import TaintScan.Proofs.Rule.SecretName
import TaintScan.Proofs.Token.Embedding
import TaintScan.Proofs.Token.Segments
import TaintScan.Proofs.Token.Line
import TaintScan.Proofs.Finding.Hash
import TaintScan.Proofs.Layers
