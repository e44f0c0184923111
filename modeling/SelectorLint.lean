import SelectorLint.Check
import SelectorLint.Command.Arguments
import SelectorLint.Command.Run
import SelectorLint.Config
import SelectorLint.Data
import SelectorLint.Document.Bare
import SelectorLint.Document.Quoted
import SelectorLint.Document.Statement
import SelectorLint.Document.Tables
import SelectorLint.Execution
import SelectorLint.Failure
import SelectorLint.Glob.Expression
import SelectorLint.Glob.Match
import SelectorLint.Glob.Pattern
import SelectorLint.Glob.Set
import SelectorLint.Ignore
import SelectorLint.Main
import SelectorLint.Outcome
import SelectorLint.Path
import SelectorLint.Policy
import SelectorLint.Position
import SelectorLint.Project.Discovery
import SelectorLint.Project.Files
import SelectorLint.Project.Ignored
import SelectorLint.Report.Choice
import SelectorLint.Report.Human
import SelectorLint.Report.JsonLines
import SelectorLint.Report.Listings
import SelectorLint.Report.Styled
import SelectorLint.Rule.Id
import SelectorLint.Rule.Registry
import SelectorLint.Rule.Setting
import SelectorLint.Selector.Assembly
import SelectorLint.Selector.Fault
import SelectorLint.Selector.Lexeme
import SelectorLint.Selector.Tree
import SelectorLint.Stylesheet.Dialect
import SelectorLint.Stylesheet.Fault
import SelectorLint.Stylesheet.Lexeme
import SelectorLint.Stylesheet.Scan
import SelectorLint.Text.Alphanumeric
import SelectorLint.Text.Blank
import SelectorLint.Text.Bytes
import SelectorLint.Text.Reading
import SelectorLint.Proofs.Selector.Grammar
import SelectorLint.Proofs.Selector.Leaves
import SelectorLint.Proofs.Selector.Lexing
import SelectorLint.Proofs.Selector.Item
import SelectorLint.Proofs.Tree.Branch
import SelectorLint.Proofs.Selector.Arrangement
import SelectorLint.Proofs.Selector.Acceptance
import SelectorLint.Proofs.Selector.Recognition
import SelectorLint.Proofs.Stylesheet.Forest
import SelectorLint.Proofs.Stylesheet.Scanning
import SelectorLint.Proofs.Tree.Links
import SelectorLint.Proofs.Tree.Order
import SelectorLint.Proofs.Findings
import SelectorLint.Proofs.Tree.Walk
import SelectorLint.Proofs.Selector.Spans
import SelectorLint.Proofs.Stylesheet.Cutting
import SelectorLint.Proofs.Stylesheet.Masking
import SelectorLint.Proofs.Stylesheet.SelectorHeading
import SelectorLint.Proofs.Pointing
import SelectorLint.Proofs.Selector.Faults
import SelectorLint.Proofs.Order
import SelectorLint.Proofs.Position
import SelectorLint.Proofs.Registry
import SelectorLint.Proofs.Sorting
import SelectorLint.Proofs.Violations
import SelectorLint.Proofs.Execution
import SelectorLint.Proofs.Interpolations
import SelectorLint.Proofs.Report.Json
import SelectorLint.Proofs.Verdict
import SelectorLint.Proofs.Report.JsonLines
import SelectorLint.Proofs.Tree.Numbering
import SelectorLint.Proofs.Selector.Shape
import SelectorLint.Proofs.Selector.Groups
import SelectorLint.Proofs.Selector.Descendants
import SelectorLint.Proofs.Stylesheet.Escapes
import SelectorLint.Proofs.Stylesheet.Relexing
import SelectorLint.Proofs.Stylesheet.Comments
import SelectorLint.Proofs.Stylesheet.Slices
import SelectorLint.Proofs.Text.Trimming
import SelectorLint.Proofs.Tree.Preorder
import SelectorLint.Proofs.Tree.Relocation
import SelectorLint.Proofs.Selector.Boundaries
import SelectorLint.Proofs.Selector.Offsets
import SelectorLint.Proofs.Composition
import SelectorLint.Proofs.Selector.Rendering
import SelectorLint.Proofs.Selector.RoundTrip
import SelectorLint.Proofs.Text.Encoding
import SelectorLint.Proofs.Lines
import SelectorLint.Proofs.Stylesheet.Rereading
import SelectorLint.Proofs.Text.Finding
import SelectorLint.Proofs.Stylesheet.Faults
import SelectorLint.Proofs.Glob.Matching
import SelectorLint.Proofs.Glob.Directories
import SelectorLint.Proofs.Filtering
import SelectorLint.Proofs.Report.Erasure
import SelectorLint.Proofs.Report.Sections
import SelectorLint.Proofs.TrailingInterpolation
import SelectorLint.Proofs.Tree.Siblings
import SelectorLint.Proofs.Settings
