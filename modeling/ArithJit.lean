import ArithJit.Binary64.Arithmetic
import ArithJit.Binary64.Basic
import ArithJit.Code.Basic
import ArithJit.Code.Lowering
import ArithJit.Decimal.Layout
import ArithJit.Decimal.Numeral
import ArithJit.Decimal.Shortest
import ArithJit.Diagnostic
import ArithJit.Engine
import ArithJit.Evaluation
import ArithJit.Event
import ArithJit.Expr.Basic
import ArithJit.Expr.Parser
import ArithJit.Expr.Rendering
import ArithJit.Failure
import ArithJit.Json.Basic
import ArithJit.Json.Display
import ArithJit.Json.Reader
import ArithJit.Json.Writer
import ArithJit.Location
import ArithJit.Logged
import ArithJit.Settings.Basic
import ArithJit.Settings.FileTree
import ArithJit.Settings.Loading
import ArithJit.Ssa.Acceptance
import ArithJit.Ssa.Basic
import ArithJit.Ssa.Emission
import ArithJit.Text.Ascii
import ArithJit.Text.CodePoint
import ArithJit.Text.Digit
import ArithJit.Text.Printable
import ArithJit.Text.Quoted
import ArithJit.Text.Utf8
import ArithJit.Token.Basic
import ArithJit.Token.Lexer
import ArithJit.Proofs.Grammar
import ArithJit.Proofs.Parser.Step
import ArithJit.Proofs.Parser.Completeness
import ArithJit.Proofs.Parser.Soundness
import ArithJit.Proofs.Parser.Acceptance
import ArithJit.Proofs.Parser.ViablePrefix
import ArithJit.Proofs.Code.Execution
import ArithJit.Proofs.Code.Lowering
import ArithJit.Proofs.Ssa.Simulation
import ArithJit.Proofs.Decimal.Numeral
import ArithJit.Proofs.Engine
import ArithJit.Proofs.Evaluation
import ArithJit.Proofs.Parser.Laziness
import ArithJit.Proofs.Token.LexicalGrammar
import ArithJit.Proofs.Engine.Calls
import ArithJit.Proofs.Engine.History
import ArithJit.Proofs.Engine.Resources
import ArithJit.Proofs.Parser.Classification
import ArithJit.Proofs.Ssa.Naming
import ArithJit.Proofs.Ssa.Listing
import ArithJit.Proofs.Expr.Phrase
import ArithJit.Proofs.Expr.Printing
import ArithJit.Proofs.Binary64.Rounding
import ArithJit.Proofs.Decimal.Shortest
import ArithJit.Proofs.Decimal.Layout
import ArithJit.Proofs.Expr.Literal
import ArithJit.Proofs.Expr.RoundTrip
import ArithJit.Proofs.Token.Offence
import ArithJit.Proofs.Expr.Span
import ArithJit.Proofs.Code.StraightLine
import ArithJit.Proofs.Position
import ArithJit.Proofs.Code.Decoding
import ArithJit.Proofs.Engine.Retrying
import ArithJit.Proofs.Expr.Enclosing
import ArithJit.Proofs.Ssa.Faults
import ArithJit.Proofs.Parser.Reuse
import ArithJit.Proofs.Parser.Shape
import ArithJit.Proofs.Token.Stream
import ArithJit.Proofs.Text.Utf8
import ArithJit.Proofs.Settings.Checking
import ArithJit.Proofs.Settings.Loading
import ArithJit.Proofs.Settings.BackEnd
import ArithJit.Proofs.Expr.Refusal
import ArithJit.Proofs.Settings.Path
import ArithJit.Proofs.Settings.Nearest
import ArithJit.Proofs.Settings.Objects
import ArithJit.Proofs.Json.Number
import ArithJit.Proofs.Json.Strings
import ArithJit.Proofs.Json.RoundTrip
import ArithJit.Proofs.Json.Forms
