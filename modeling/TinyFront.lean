import TinyFront.Command.Arguments
import TinyFront.Command.Report
import TinyFront.Command.Run
import TinyFront.Command.Sources
import TinyFront.Config.Basic
import TinyFront.Config.Find
import TinyFront.Diagnostic.Basic
import TinyFront.Diagnostic.Render
import TinyFront.Editor.Completion
import TinyFront.Editor.Document
import TinyFront.Editor.Range
import TinyFront.Editor.Symbol
import TinyFront.Editor.Workspace
import TinyFront.Files.Disk
import TinyFront.Files.Glob
import TinyFront.Files.Path
import TinyFront.Files.Search
import TinyFront.Files.Sources
import TinyFront.Format.Calls
import TinyFront.Format.Layout
import TinyFront.Format.Tree
import TinyFront.Highlight.Role
import TinyFront.Highlight.Rule
import TinyFront.Highlight.Scan
import TinyFront.Main
import TinyFront.Parser.Atom
import TinyFront.Parser.Cursor
import TinyFront.Parser.Decl
import TinyFront.Parser.Expr
import TinyFront.Parser.Failure
import TinyFront.Parser.Pattern
import TinyFront.Parser.Reader
import TinyFront.Proofs.Accepting
import TinyFront.Proofs.Accepts
import TinyFront.Proofs.Alone
import TinyFront.Proofs.AtomShapes
import TinyFront.Proofs.Blocks
import TinyFront.Proofs.Branches
import TinyFront.Proofs.Calls
import TinyFront.Proofs.Collecting
import TinyFront.Proofs.Completeness
import TinyFront.Proofs.Containment
import TinyFront.Proofs.Covers
import TinyFront.Proofs.Cutting
import TinyFront.Proofs.Delimiters
import TinyFront.Proofs.Echoes
import TinyFront.Proofs.Edits
import TinyFront.Proofs.Ensures
import TinyFront.Proofs.Exact
import TinyFront.Proofs.ExactTrees
import TinyFront.Proofs.Excerpts
import TinyFront.Proofs.Forests
import TinyFront.Proofs.Formatting
import TinyFront.Proofs.Grammar
import TinyFront.Proofs.Groups
import TinyFront.Proofs.Highlighting
import TinyFront.Proofs.Indentation
import TinyFront.Proofs.Joining
import TinyFront.Proofs.Kept
import TinyFront.Proofs.Laid
import TinyFront.Proofs.Layout
import TinyFront.Proofs.Lexemes
import TinyFront.Proofs.Listing
import TinyFront.Proofs.Mends
import TinyFront.Proofs.MendsAtoms
import TinyFront.Proofs.MendsDecls
import TinyFront.Proofs.MendsExprs
import TinyFront.Proofs.MendsLoops
import TinyFront.Proofs.Moves
import TinyFront.Proofs.Nesting
import TinyFront.Proofs.Nodes
import TinyFront.Proofs.Openings
import TinyFront.Proofs.Operands
import TinyFront.Proofs.Outlines
import TinyFront.Proofs.Parentheses
import TinyFront.Proofs.Partition
import TinyFront.Proofs.Phrases
import TinyFront.Proofs.Placeless
import TinyFront.Proofs.Positions
import TinyFront.Proofs.Printing
import TinyFront.Proofs.Programs
import TinyFront.Proofs.Progress
import TinyFront.Proofs.Queues
import TinyFront.Proofs.Quotes
import TinyFront.Proofs.Reading
import TinyFront.Proofs.Recovering
import TinyFront.Proofs.Refusals
import TinyFront.Proofs.Relocating
import TinyFront.Proofs.Repeats
import TinyFront.Proofs.Reports
import TinyFront.Proofs.Returns
import TinyFront.Proofs.RoundTrip
import TinyFront.Proofs.Rows
import TinyFront.Proofs.Separators
import TinyFront.Proofs.Sessions
import TinyFront.Proofs.Settings
import TinyFront.Proofs.Shapes
import TinyFront.Proofs.Sight
import TinyFront.Proofs.Slices
import TinyFront.Proofs.Soundness
import TinyFront.Proofs.Spelling
import TinyFront.Proofs.Standing
import TinyFront.Proofs.Steady
import TinyFront.Proofs.Strata
import TinyFront.Proofs.Symbols
import TinyFront.Proofs.Tandem
import TinyFront.Proofs.Tiers
import TinyFront.Proofs.TokenLines
import TinyFront.Proofs.Traces
import TinyFront.Proofs.Unclosed
import TinyFront.Proofs.Viable
import TinyFront.Proofs.Views
import TinyFront.Proofs.WellFormed
import TinyFront.Proofs.Whole
import TinyFront.Proofs.Wrapping
import TinyFront.Proofs.Yields
import TinyFront.Source.Span
import TinyFront.Source.Text
import TinyFront.Text.Blank
import TinyFront.Text.Capital
import TinyFront.Text.Color
import TinyFront.Text.Lines
import TinyFront.Text.Printable
import TinyFront.Text.Quoted
import TinyFront.Text.Range
import TinyFront.Text.Split
import TinyFront.Text.Word
import TinyFront.Token.Basic
import TinyFront.Token.Kind
import TinyFront.Token.Lex
import TinyFront.Token.Piece
import TinyFront.Toml.Document
import TinyFront.Toml.Draft
import TinyFront.Toml.Quoted
import TinyFront.Toml.Scalar
import TinyFront.Toml.Scan
import TinyFront.Toml.Truth
import TinyFront.Toml.Value
import TinyFront.Tree.Decl
import TinyFront.Tree.Expr
import TinyFront.Tree.Leaf
import TinyFront.Tree.Outline
import TinyFront.Tree.Pattern
import TinyFront.Tree.Recover
