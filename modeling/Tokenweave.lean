import Tokenweave.Text.Escape
import Tokenweave.Text.Position
import Tokenweave.Grammar.Basic
import Tokenweave.Grammar.Reachable
import Tokenweave.Grammar.Search
import Tokenweave.Proofs.Reachable
import Tokenweave.Grammar.Nullable
import Tokenweave.Grammar.Validate
import Tokenweave.Grammar.Dump
import Tokenweave.Match.Basic
import Tokenweave.Match.Run
import Tokenweave.Text.Palette
import Tokenweave.Tree.Basic
import Tokenweave.Tree.Builder
import Tokenweave.Match.Build
import Tokenweave.Text.Json
import Tokenweave.Tree.Printer
import Tokenweave.Tree.Json
import Tokenweave.Match.Trace
import Tokenweave.Lexer
import Tokenweave.Tree.Query
import Tokenweave.Tree.Edit
import Tokenweave.Tree.Script
import Tokenweave.Cli.Spec
import Tokenweave.Cli.Similar
import Tokenweave.Cli.Number
import Tokenweave.Cli.Error
import Tokenweave.Cli.Help
import Tokenweave.Cli.Parse
import Tokenweave.Cli.Commands
import Tokenweave.Cli.Run
import Tokenweave.Main
import Tokenweave.Dialect.Bnf
import Tokenweave.Dialect.Error
import Tokenweave.Dialect.Rules
import Tokenweave.Dialect.Lower
import Tokenweave.Dialect.Compile
import Tokenweave.Text.Width
import Tokenweave.Diagnostic.Canvas
import Tokenweave.Diagnostic.Source
import Tokenweave.Diagnostic.Margin
import Tokenweave.Diagnostic.Basic
import Tokenweave.Diagnostic.Render
import Tokenweave.Proofs.Peg
import Tokenweave.Proofs.MatchSound
import Tokenweave.Proofs.Nullable
import Tokenweave.Proofs.Faults
import Tokenweave.Proofs.LeftRecursion
import Tokenweave.Proofs.Termination
import Tokenweave.Proofs.Produces
import Tokenweave.Proofs.Boundary
import Tokenweave.Proofs.Arena
import Tokenweave.Proofs.Tiling
import Tokenweave.Proofs.Backtracking
import Tokenweave.Proofs.MatchTree
import Tokenweave.Proofs.WellFormed
import Tokenweave.Proofs.Edits
import Tokenweave.Proofs.Limits
import Tokenweave.Proofs.Positions
import Tokenweave.Proofs.Subtrees
import Tokenweave.Proofs.Cull
import Tokenweave.Proofs.Aliases
import Tokenweave.Proofs.Link
import Tokenweave.Proofs.Stripped
import Tokenweave.Proofs.Walks
import Tokenweave.Proofs.Notation
import Tokenweave.Proofs.Lowering.Runs
import Tokenweave.Proofs.Lowering.Shape
import Tokenweave.Proofs.Lowering.Passes
import Tokenweave.Proofs.NullableFixpoint
import Tokenweave.Proofs.Brackets
import Tokenweave.Proofs.TraceLines
import Tokenweave.Proofs.DumpLines
import Tokenweave.Proofs.Lowering.Descending
import Tokenweave.Proofs.RuleCycles
import Tokenweave.Proofs.EntryCycles
import Tokenweave.Proofs.Traversals
import Tokenweave.Proofs.Outline
