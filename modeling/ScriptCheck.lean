import ScriptCheck.Total
import ScriptCheck.Order
import ScriptCheck.Span
import ScriptCheck.Text.Bytes
import ScriptCheck.Text.Width
import ScriptCheck.Text.Plain
import ScriptCheck.Text.Blank
import ScriptCheck.Source
import ScriptCheck.Token
import ScriptCheck.Token.Scan
import ScriptCheck.Ty
import ScriptCheck.Operator
import ScriptCheck.Tree
import ScriptCheck.Fault
import ScriptCheck.Token.Cursor
import ScriptCheck.Reading.Reader
import ScriptCheck.Reading.Expr
import ScriptCheck.Reading.Stmt
import ScriptCheck.Reading.Script
import ScriptCheck.Scope
import ScriptCheck.Diagnostic
import ScriptCheck.Check
import ScriptCheck.Digraph
import ScriptCheck.CallGraph
import ScriptCheck.CallGraph.Dot
import ScriptCheck.Report
import ScriptCheck.Outline
import ScriptCheck.Tree.Outline
import ScriptCheck.Event
import ScriptCheck.Analysis
import ScriptCheck.Files
import ScriptCheck.Files.Tree
import ScriptCheck.Session
import ScriptCheck.CommandLine.Arguments
import ScriptCheck.CommandLine.Run
import ScriptCheck.Main
import ScriptCheck.Proofs.Tree.Moved
import ScriptCheck.Proofs.Reading.Carried
import ScriptCheck.Proofs.Reading.Located
import ScriptCheck.Proofs.Reading.Resumption
import ScriptCheck.Proofs.Token.Pieces
import ScriptCheck.Proofs.Reading.Text
import ScriptCheck.Proofs.Reading.Joined
import ScriptCheck.Proofs.Grammar
import ScriptCheck.Proofs.Grammar.Unambiguity
import ScriptCheck.Proofs.Grammar.Completeness
import ScriptCheck.Proofs.Grammar.Soundness
import ScriptCheck.Proofs.Grammar.Acceptance
import ScriptCheck.Proofs.Scope
import ScriptCheck.Proofs.Digraph
import ScriptCheck.Proofs.CallGraph
import ScriptCheck.Proofs.Typing
import ScriptCheck.Proofs.Typing.Inference
import ScriptCheck.Proofs.Typing.Agreement
import ScriptCheck.Proofs.Typing.Silencing
import ScriptCheck.Proofs.Check.Moved
import ScriptCheck.Proofs.Layout
import ScriptCheck.Proofs.Reading.Segments
import ScriptCheck.Proofs.Reading.Nodes
import ScriptCheck.Proofs.Sources
import ScriptCheck.Proofs.Check.Modular
import ScriptCheck.Proofs.Reading.FaultOrder
import ScriptCheck.Proofs.Rendering
import ScriptCheck.Proofs.Reading.Nested
import ScriptCheck.Proofs.Check.Grouped
import ScriptCheck.Proofs.CallGraph.Dot
import ScriptCheck.Proofs.Token.Patterns
import ScriptCheck.Proofs.Token.Cursor
import ScriptCheck.Proofs.Token.Stream
import ScriptCheck.Proofs.Token.Written
import ScriptCheck.Proofs.Reading.Parts
import ScriptCheck.Proofs.Position
import ScriptCheck.Proofs.Position.Lines
import ScriptCheck.Proofs.Reading.Boundaries
import ScriptCheck.Proofs.Check.Accounts
import ScriptCheck.Proofs.Check.Names
import ScriptCheck.Proofs.Check.Blame
import ScriptCheck.Proofs.Scope.Histories
import ScriptCheck.Proofs.Tree.Paths
import ScriptCheck.Proofs.Grammar.Depth
import ScriptCheck.Proofs.Check.Returns
import ScriptCheck.Proofs.Parser
import ScriptCheck.Proofs.Parser.Laws
import ScriptCheck.Proofs.Parser.Endings
import ScriptCheck.Proofs.Parser.Agreement
import ScriptCheck.Proofs.Parser.Runs
