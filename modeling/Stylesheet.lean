import Stylesheet.Declaration
import Stylesheet.Diagnostic
import Stylesheet.Format
import Stylesheet.Keyword
import Stylesheet.Number.Basic
import Stylesheet.Number.Decimal
import Stylesheet.Number.Double
import Stylesheet.Number.Shortest
import Stylesheet.Proofs.Number.ReadBack
import Stylesheet.Proofs.RuleSet.Expansion
import Stylesheet.Proofs.Selector.Accepted
import Stylesheet.Proofs.Selector.Relisted
import Stylesheet.Proofs.Selector.Tokens
import Stylesheet.Proofs.Sheet.Acceptance
import Stylesheet.Proofs.Sheet.Bodies
import Stylesheet.Proofs.Sheet.Clauses
import Stylesheet.Proofs.Sheet.Damaged
import Stylesheet.Proofs.Sheet.Descent.Nodes
import Stylesheet.Proofs.Sheet.Identities
import Stylesheet.Proofs.Sheet.Nodes
import Stylesheet.Proofs.Sheet.Order
import Stylesheet.Proofs.Sheet.Preludes
import Stylesheet.Proofs.Sheet.Removal
import Stylesheet.Proofs.Sheet.RoundTrip
import Stylesheet.Proofs.Sheet.Shaped
import Stylesheet.Proofs.Sheet.Strictness
import Stylesheet.Proofs.Sheet.Truncation
import Stylesheet.Proofs.Sheet.Unspaced
import Stylesheet.Proofs.Sheet.Walks
import Stylesheet.Proofs.Shorthand.Built
import Stylesheet.Proofs.Shorthand.FontScan
import Stylesheet.Proofs.Shorthand.LetterCase
import Stylesheet.Proofs.Shorthand.Merged
import Stylesheet.Proofs.Shorthand.NormalForm
import Stylesheet.Proofs.Shorthand.Regained
import Stylesheet.Proofs.Token.Commented
import Stylesheet.Proofs.Token.Guarded
import Stylesheet.Proofs.Token.Order
import Stylesheet.Proofs.Token.Progress
import Stylesheet.Proofs.Token.Serialized
import Stylesheet.Proofs.Value.Accepted
import Stylesheet.Proofs.Value.Faithful
import Stylesheet.Proofs.Value.Faults
import Stylesheet.Rule
import Stylesheet.RuleSet
import Stylesheet.Selector
import Stylesheet.Sheet.Basic
import Stylesheet.Sheet.Body
import Stylesheet.Sheet.Descent
import Stylesheet.Sheet.Edit
import Stylesheet.Sheet.Reader
import Stylesheet.Sheet.Writer
import Stylesheet.Shorthand.All
import Stylesheet.Shorthand.Background
import Stylesheet.Shorthand.Basic
import Stylesheet.Shorthand.Border
import Stylesheet.Shorthand.Font
import Stylesheet.Shorthand.Sides
import Stylesheet.Text.Ascii
import Stylesheet.Text.Blank
import Stylesheet.Text.Escaped
import Stylesheet.Text.Position
import Stylesheet.Token.Basic
import Stylesheet.Token.Lexer
import Stylesheet.Token.Scan
import Stylesheet.Value.Basic
import Stylesheet.Value.Reader
import Stylesheet.Proofs.Sheet.Descent.Calls
