import CodeLayout.Chunk.Basic
import CodeLayout.Chunk.Builder
import CodeLayout.Chunk.Declaration
import CodeLayout.Chunk.Expression
import CodeLayout.Chunk.Lists
import CodeLayout.Chunk.OfNode
import CodeLayout.Chunk.Statement
import CodeLayout.Chunk.Trivia
import CodeLayout.Command.Flags
import CodeLayout.Command.Run
import CodeLayout.Comment.Basic
import CodeLayout.Comment.Paragraph
import CodeLayout.Comment.Reflow
import CodeLayout.Data.Instant
import CodeLayout.Data.Toml.Line
import CodeLayout.Data.Toml.Scalar
import CodeLayout.Data.Toml.Table
import CodeLayout.Data.Value
import CodeLayout.Data.Yaml.Cell
import CodeLayout.Data.Yaml.Node
import CodeLayout.Data.Yaml.Printer
import CodeLayout.Data.Yaml.Resolve
import CodeLayout.Data.Yaml.Scalar
import CodeLayout.Data.Yaml.Token
import CodeLayout.Diff
import CodeLayout.Edit
import CodeLayout.FileTree
import CodeLayout.Formatter
import CodeLayout.Glob
import CodeLayout.IntervalMap
import CodeLayout.Layout.Basic
import CodeLayout.Layout.Resolve
import CodeLayout.Layout.Room
import CodeLayout.Main
import CodeLayout.Number.Binary64
import CodeLayout.Number.Literal
import CodeLayout.OptionFile
import CodeLayout.Output
import CodeLayout.Proofs.Account.Basic
import CodeLayout.Proofs.Account.Declaration
import CodeLayout.Proofs.Account.Expression
import CodeLayout.Proofs.Account.Lists
import CodeLayout.Proofs.Account.Partition
import CodeLayout.Proofs.Agree
import CodeLayout.Proofs.Alike.Chunk
import CodeLayout.Proofs.Alike.Chunk.Declaration
import CodeLayout.Proofs.Alike.Chunk.Expression
import CodeLayout.Proofs.Alike.Chunk.Lists
import CodeLayout.Proofs.Alike.Chunk.Statement
import CodeLayout.Proofs.Alike.Formatter
import CodeLayout.Proofs.Alike.Layout
import CodeLayout.Proofs.Alike.Node
import CodeLayout.Proofs.Alike.Output
import CodeLayout.Proofs.Alike.Stream
import CodeLayout.Proofs.Alike.Syntax.Expression
import CodeLayout.Proofs.Alike.Syntax.Lookahead
import CodeLayout.Proofs.Alike.Syntax.Parser
import CodeLayout.Proofs.Alike.Syntax.Statement
import CodeLayout.Proofs.Alike.Syntax.Tree
import CodeLayout.Proofs.Anchors
import CodeLayout.Proofs.BlankLines
import CodeLayout.Proofs.Budget
import CodeLayout.Proofs.Chunk.Content
import CodeLayout.Proofs.Chunk.Declaration
import CodeLayout.Proofs.Chunk.Expression
import CodeLayout.Proofs.Chunk.Laid
import CodeLayout.Proofs.Chunk.Lists
import CodeLayout.Proofs.Chunk.Numbered
import CodeLayout.Proofs.Chunk.OfNode
import CodeLayout.Proofs.Chunk.Relabel
import CodeLayout.Proofs.Chunk.Statement
import CodeLayout.Proofs.Chunk.Trivia
import CodeLayout.Proofs.Columns.Formatter
import CodeLayout.Proofs.Columns.Placing
import CodeLayout.Proofs.Columns.Tree
import CodeLayout.Proofs.Columns.Writer
import CodeLayout.Proofs.Comment.Again.Blocks
import CodeLayout.Proofs.Comment.Again.Lines
import CodeLayout.Proofs.Comment.Again.Rows
import CodeLayout.Proofs.Comment.Again.Written
import CodeLayout.Proofs.Comment.Blocks
import CodeLayout.Proofs.Comment.Closing
import CodeLayout.Proofs.Comment.Content
import CodeLayout.Proofs.Comment.Filled
import CodeLayout.Proofs.Comment.Lines
import CodeLayout.Proofs.Comment.Markup
import CodeLayout.Proofs.Comment.Packed
import CodeLayout.Proofs.Comment.Paragraph
import CodeLayout.Proofs.Comment.Reading
import CodeLayout.Proofs.Comment.Starred
import CodeLayout.Proofs.Comment.Written
import CodeLayout.Proofs.Covered
import CodeLayout.Proofs.Data.Flattened
import CodeLayout.Proofs.Edit
import CodeLayout.Proofs.Edit.Arbitrary
import CodeLayout.Proofs.Edit.Formatter
import CodeLayout.Proofs.FinalBreak
import CodeLayout.Proofs.Formatter
import CodeLayout.Proofs.Formed.Chain
import CodeLayout.Proofs.Formed.Expression
import CodeLayout.Proofs.Formed.Operators
import CodeLayout.Proofs.Formed.Shape
import CodeLayout.Proofs.Formed.Statement
import CodeLayout.Proofs.Formed.Tree
import CodeLayout.Proofs.Formed.Types
import CodeLayout.Proofs.Frame
import CodeLayout.Proofs.IntervalMap
import CodeLayout.Proofs.Items
import CodeLayout.Proofs.Kept.Basic
import CodeLayout.Proofs.Kept.Declaration
import CodeLayout.Proofs.Kept.Expression
import CodeLayout.Proofs.Kept.Formatter
import CodeLayout.Proofs.Kept.Trivia
import CodeLayout.Proofs.Layout
import CodeLayout.Proofs.LineComments
import CodeLayout.Proofs.Lines.Assigns
import CodeLayout.Proofs.Lines.Demanded
import CodeLayout.Proofs.Lines.Flat
import CodeLayout.Proofs.Locations
import CodeLayout.Proofs.Lockstep
import CodeLayout.Proofs.Output
import CodeLayout.Proofs.Policies.Formatter
import CodeLayout.Proofs.Regions
import CodeLayout.Proofs.Shown
import CodeLayout.Proofs.Splitting.Compact
import CodeLayout.Proofs.Splitting.Shifted
import CodeLayout.Proofs.Stacks
import CodeLayout.Proofs.Strokes
import CodeLayout.Proofs.Style.Independent
import CodeLayout.Proofs.Style.Saved
import CodeLayout.Proofs.Syntax.Covers
import CodeLayout.Proofs.Syntax.Declaration
import CodeLayout.Proofs.Syntax.Expression
import CodeLayout.Proofs.Syntax.Lookahead
import CodeLayout.Proofs.Syntax.Loops
import CodeLayout.Proofs.Syntax.Reads
import CodeLayout.Proofs.Syntax.Resources
import CodeLayout.Proofs.Syntax.Statement
import CodeLayout.Proofs.Syntax.Tree
import CodeLayout.Proofs.Syntax.Types
import CodeLayout.Proofs.Text.Printable
import CodeLayout.Proofs.Text.Solid
import CodeLayout.Proofs.Text.Words
import CodeLayout.Proofs.Token.Comments
import CodeLayout.Proofs.Token.Lexer
import CodeLayout.Proofs.Token.Lossless
import CodeLayout.Proofs.Token.Unterminated
import CodeLayout.Proofs.Total
import CodeLayout.Proofs.Trailing
import CodeLayout.Proofs.Verbatim
import CodeLayout.Report
import CodeLayout.Source
import CodeLayout.Style.Basic
import CodeLayout.Style.Context
import CodeLayout.Style.Options
import CodeLayout.Style.Policy
import CodeLayout.Syntax.Declaration
import CodeLayout.Syntax.Expression
import CodeLayout.Syntax.Lookahead
import CodeLayout.Syntax.Node
import CodeLayout.Syntax.Parser
import CodeLayout.Syntax.Statement
import CodeLayout.Syntax.Tree
import CodeLayout.Syntax.Types
import CodeLayout.Text.Blank
import CodeLayout.Text.Bytes
import CodeLayout.Text.Decimal
import CodeLayout.Text.Grapheme.Class
import CodeLayout.Text.Letter
import CodeLayout.Text.LowerCase
import CodeLayout.Text.Printable
import CodeLayout.Text.Quoted
import CodeLayout.Text.Utf8
import CodeLayout.Text.Width
import CodeLayout.Token
import CodeLayout.Token.Lexer
import CodeLayout.Token.Word
import CodeLayout.Verbatim
