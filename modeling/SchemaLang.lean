import SchemaLang.Assembly
import SchemaLang.BuildError
import SchemaLang.Command
import SchemaLang.Compiler
import SchemaLang.Grammar.Expected
import SchemaLang.Grammar.Lexeme
import SchemaLang.Grammar.Parse
import SchemaLang.Grammar.Production
import SchemaLang.Grammar.Scan
import SchemaLang.Literal
import SchemaLang.OctetsSize
import SchemaLang.ParseTree
import SchemaLang.Primitive
import SchemaLang.Schema.Basic
import SchemaLang.Schema.Draft
import SchemaLang.Schema.Outline
import SchemaLang.Text.Basic
import SchemaLang.Text.Blank
import SchemaLang.Text.Layout
import SchemaLang.Text.LineTable
import SchemaLang.Text.Position
import SchemaLang.Trace.Event
import SchemaLang.Trace.Report
import SchemaLang.Proofs.Text.Gap
import SchemaLang.Proofs.Grammar.Outcome
import SchemaLang.Proofs.Grammar.TokenClass
import SchemaLang.Proofs.Grammar.Reading
import SchemaLang.Proofs.Grammar.Phrase
import SchemaLang.Proofs.Grammar.Soundness
import SchemaLang.Proofs.Grammar.Lookahead
import SchemaLang.Main
import SchemaLang.Proofs.Text.LineStart
import SchemaLang.Proofs.Text.Place
import SchemaLang.Proofs.ParseTree.Tokens
import SchemaLang.Proofs.Grammar.Completeness
import SchemaLang.Proofs.Grammar.Language
import SchemaLang.Proofs.Assembly.Settling
import SchemaLang.Proofs.Assembly.Refinement
import SchemaLang.Proofs.Literal.Numeral
import SchemaLang.Proofs.Literal.Digits
import SchemaLang.Proofs.Literal.Verdict
import SchemaLang.Proofs.Schema.Derivation
import SchemaLang.Proofs.Schema.Source
import SchemaLang.Proofs.Compiler.Image
import SchemaLang.Proofs.ParseTree.Respelling
import SchemaLang.Proofs.Outline.Number
import SchemaLang.Proofs.Outline.Line
import SchemaLang.Proofs.Outline.Node
import SchemaLang.Proofs.Outline.Schema
import SchemaLang.Proofs.Outline.Text
import SchemaLang.Proofs.Outline.Injective
import SchemaLang.Proofs.Grammar.Trail
import SchemaLang.Proofs.Grammar.Placement
import SchemaLang.Proofs.ParseTree.Numeral
import SchemaLang.Proofs.Compiler.Refusal
import SchemaLang.Proofs.Compiler.Reuse
import SchemaLang.Proofs.Compiler.Trace
import SchemaLang.Proofs.Grammar.Agenda
import SchemaLang.Proofs.Grammar.Agreement
import SchemaLang.Proofs.Grammar.Attempt
import SchemaLang.Proofs.Grammar.Commitment
import SchemaLang.Proofs.Grammar.Parallel
import SchemaLang.Proofs.Text.Comment
import SchemaLang.Proofs.Grammar.Comments
import SchemaLang.Proofs.Grammar.Continuation
import SchemaLang.Proofs.Grammar.Concatenation
import SchemaLang.Proofs.Compiler.Concatenation
import SchemaLang.Proofs.Trace.Bracketing
import SchemaLang.Proofs.Assembly.Trace
import SchemaLang.Proofs.Grammar.Glimpse
import SchemaLang.Proofs.Grammar.Prediction
import SchemaLang.Proofs.Grammar.Replay
import SchemaLang.Proofs.Grammar.Viability
import SchemaLang.Proofs.Grammar.Locality
import SchemaLang.Proofs.Grammar.Expectation
import SchemaLang.Proofs.Assembly.Standalone
import SchemaLang.Proofs.ParseTree.Story
import SchemaLang.Proofs.ParseTree.Mending
import SchemaLang.Proofs.Assembly.Telling
import SchemaLang.Proofs.Assembly.Interruption
import SchemaLang.Proofs.Outline.Layout
import SchemaLang.Proofs.ParseTree.Unnumbered
import SchemaLang.Proofs.Grammar.Numbering
import SchemaLang.Proofs.Grammar.Renumbering
import SchemaLang.Proofs.Grammar.Renewal
import SchemaLang.Proofs.Compiler.Renumbering
import SchemaLang.Proofs.Assembly.Balance
import SchemaLang.Proofs.Text.Offset
import SchemaLang.Proofs.Compiler.Message
import SchemaLang.Proofs.Command.Check
import SchemaLang.Proofs.Command.Ast
import SchemaLang.Proofs.Grammar.Piece
import SchemaLang.Proofs.Grammar.LongestLayout
import SchemaLang.Proofs.Grammar.LongestLexeme
import SchemaLang.Proofs.Grammar.Termination
