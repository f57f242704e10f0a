import AresSyntax.Tree.Visitor
import AresSyntax.Token.Tables
import AresSyntax.Source.Module
import AresSyntax.Main
import AresSyntax.Proofs.Reader.Results
import AresSyntax.Proofs.Reader.Tokens
import AresSyntax.Proofs.Reader.Loops
import AresSyntax.Proofs.Reader.Lines
import AresSyntax.Proofs.Soundness.Blocks
import AresSyntax.Proofs.Soundness.Expressions
import AresSyntax.Proofs.Soundness.Statements
import AresSyntax.Proofs.Reader.Taking
import AresSyntax.Proofs.Reader.Confining
import AresSyntax.Proofs.Tree.Chains
import AresSyntax.Proofs.Completeness.Blocks
import AresSyntax.Proofs.Completeness.Expressions
import AresSyntax.Proofs.Completeness.Statements
import AresSyntax.Proofs.Scan.Lexemes
import AresSyntax.Proofs.Scan.Segments
import AresSyntax.Proofs.Scan.Lossless
import AresSyntax.Proofs.Scan.Listing
import AresSyntax.Proofs.Grammar.Exactness
import AresSyntax.Proofs.Tree.Paths
import AresSyntax.Proofs.Grammar.Peaks
import AresSyntax.Proofs.Reader.Waiting
import AresSyntax.Proofs.Tree.Shape
import AresSyntax.Proofs.Tree.Tokens
import AresSyntax.Proofs.Tree.Ledger
import AresSyntax.Proofs.Tree.Openings
import AresSyntax.Proofs.Script.Basic
import AresSyntax.Proofs.Script.Sites
import AresSyntax.Proofs.Script.Recasting
import AresSyntax.Proofs.Script.Steady
import AresSyntax.Proofs.Script.Story
import AresSyntax.Proofs.Script.Rules
import AresSyntax.Proofs.Script.Standing
import AresSyntax.Proofs.Script.Programs
import AresSyntax.Proofs.Script.Lookahead
import AresSyntax.Proofs.Scan.Outcomes
import AresSyntax.Proofs.Scan.Joining
import AresSyntax.Proofs.Scan.Spelling
import AresSyntax.Proofs.Scan.Places
import AresSyntax.Proofs.Grammar.Spans
import AresSyntax.Proofs.Grammar.Extension
import AresSyntax.Proofs.Program.Streaming
import AresSyntax.Proofs.Program.Nesting
import AresSyntax.Proofs.Program.Faults
import AresSyntax.Proofs.Program.Composition
import AresSyntax.Proofs.Program.Sessions
import AresSyntax.Proofs.Tree.Spelled
import AresSyntax.Proofs.Tree.Heights
import AresSyntax.Proofs.Program.Alike
import AresSyntax.Proofs.Program.Phrases
import AresSyntax.Proofs.Program.Recovery
import AresSyntax.Proofs.Program.Stacks
import AresSyntax.Proofs.Program.Assignments
import AresSyntax.Proofs.Program.Roundtrip
import AresSyntax.Proofs.Grammar.Grafting
import AresSyntax.Proofs.Reader.Refusing
import AresSyntax.Proofs.Reader.Restoring
import AresSyntax.Proofs.Reader.Gaining
import AresSyntax.Proofs.Program.Calls
import AresSyntax.Proofs.Program.Messages
import AresSyntax.Proofs.Program.Layout
import AresSyntax.Proofs.Refusal.Programs
import AresSyntax.Proofs.Program.Commands
import AresSyntax.Proofs.Scan.Quotations
import AresSyntax.Proofs.Scan.Longest
import AresSyntax.Proofs.Scan.Integers
import AresSyntax.Proofs.Tree.Rendering
import AresSyntax.Proofs.Tree.Visits
import AresSyntax.Proofs.Program.Outlines
import AresSyntax.Proofs.Scan.Returns
import AresSyntax.Proofs.Scan.Progress
import AresSyntax.Proofs.Program.LineEnds
import AresSyntax.Proofs.Reader.Respacing
import AresSyntax.Proofs.Program.Respacing
import AresSyntax.Proofs.Program.Separators
import AresSyntax.Proofs.Program.Progress
import AresSyntax.Proofs.Grammar.Ladder
