import RowConfig.Main
import RowConfig.Proofs.Resolution
import RowConfig.Proofs.Linking.Unlinked
import RowConfig.Proofs.Entries
import RowConfig.Proofs.Inclusion
import RowConfig.Proofs.Agreement
import RowConfig.Proofs.Binding.Exact
import RowConfig.Proofs.Linking.Exact
import RowConfig.Proofs.Building
import RowConfig.Proofs.Binding
import RowConfig.Proofs.Resolved
import RowConfig.Proofs.Quoting
import RowConfig.Proofs.Arguments
import RowConfig.Proofs.LineShapes
import RowConfig.Proofs.Lines
import RowConfig.Proofs.TextStructs
import RowConfig.Proofs.TextRows
import RowConfig.Proofs.Settled
import RowConfig.Proofs.QuotedTexts
import RowConfig.Proofs.Positions
import RowConfig.Proofs.KeptArguments
import RowConfig.Proofs.CallTexts
import RowConfig.Proofs.Rows
import RowConfig.Proofs.InlineRows
import RowConfig.Proofs.Rows.Exported
import RowConfig.Proofs.QuotedCalls
import RowConfig.Proofs.Conforming
import RowConfig.Proofs.Declaring
import RowConfig.Proofs.Binding.Typed
import RowConfig.Proofs.Passing
import RowConfig.Proofs.Rows.Typed
import RowConfig.Proofs.Choices
import RowConfig.Proofs.Exporting
import RowConfig.Proofs.Assembly
import RowConfig.Proofs.Assembly.Backslash
import RowConfig.Proofs.Assembly.Tripled
import RowConfig.Proofs.Inclusion.Texts
import RowConfig.Proofs.Extending
import RowConfig.Proofs.Unplaced.Resolving
import RowConfig.Proofs.Resolution.Again
import RowConfig.Proofs.Keys
import RowConfig.Proofs.Keys.Texts
import RowConfig.Proofs.Templates
import RowConfig.Proofs.Rendering.Order
import RowConfig.Proofs.Scalars
import RowConfig.Proofs.Pieces
import RowConfig.Proofs.Columns
import RowConfig.Proofs.Elements
import RowConfig.Proofs.Literals
import RowConfig.Proofs.LineGrammar
import RowConfig.Proofs.Spans
import RowConfig.Proofs.Assembly.Unclosed
import RowConfig.Proofs.Assembly.Comments
import RowConfig.Proofs.InlineNames
import RowConfig.Proofs.Places
import RowConfig.Proofs.IntegerLiterals
import RowConfig.Proofs.Indexing
import RowConfig.Proofs.ArgumentOrder
import RowConfig.Proofs.Binding.Circles
import RowConfig.Proofs.Declarations
import RowConfig.Proofs.Declarations.Marks
import RowConfig.Proofs.Declarations.Schemas
import RowConfig.Proofs.Clock
import RowConfig.Proofs.Clock.Again
import RowConfig.Proofs.Suggestion
import RowConfig.Proofs.Carets
import RowConfig.Proofs.Paths
import RowConfig.Proofs.Rows.Origins
import RowConfig.Proofs.Surplus
