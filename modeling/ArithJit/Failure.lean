import ArithJit.Code.Lowering
import ArithJit.Engine
import ArithJit.Expr.Parser
import ArithJit.Settings.Loading

/-!
# Failures

Everything that can go wrong on the way from a text to a value, with its wording and, for the
failures that are reported to users, its diagnostic.
-/

namespace ArithJit

/-- The closed lists of names that a request may take a name from. -/
inductive Vocabulary where
  | operators
  | opcodes
  | diagnosticKinds
  deriving DecidableEq, Repr

/-- What messages call a list of names. -/
def Vocabulary.name : Vocabulary → String
  | .operators => "BinaryOperator"
  | .opcodes => "IROpKind"
  | .diagnosticKinds => "ErrorKind"

/-- A reason for failing, by the stage that it comes from. -/
inductive Failure where
  | unknownName (list : Vocabulary) (name : String)
  | consumed
  | lexical (error : LexError)
  | grammar (error : ParseError)
  | unended
  | numeral (error : NumeralError)
  | underflow
  | node (error : NodeError)
  | noResult
  | engine (error : EngineError)
  | assembly (error : Ssa.AssemblyError)
  | load (error : LoadError)
  deriving DecidableEq, Repr

namespace Failure

/-- The failure of a parser. -/
def ofParse : ParseFailure → Failure
  | .grammar e => .grammar e
  | .lexical e => .lexical e
  | .unended => .unended
  | .numeral e => .numeral e
  | .underflow => .underflow

/-- The failure of emission. -/
def ofEmission (e : Ssa.EmitError) : Failure := .engine (.emission e)

/-- The diagnostic of a failure that has one. -/
def diagnostic? : Failure → Option Diagnostic
  | .lexical e => some e.diagnostic
  | .grammar e => some e.diagnostic
  | .engine e => e.diagnostic?
  | .assembly .rejected => EngineError.rejected.diagnostic?
  | .load (.setting e) => some e.diagnostic
  | _ => none

/-- The wording of a failure. -/
def message (f : Failure) : String :=
  match f.diagnostic? with
  | some d => d.text
  | none =>
      match f with
      | .unknownName list name => Text.quoted name ++ " is not a valid " ++ list.name
      | .consumed => "Lexer token stream has already been consumed"
      | .unended => "token stream ended without an EOF token"
      | .numeral e => e.message
      | .underflow => "pop from empty list"
      | .node e => e.message
      | .noResult => "list index out of range"
      | .engine (.emission .missingInput) => "tuple index out of range"
      | .engine (.emission (.longInteger limit)) =>
          s!"Exceeds the limit ({limit} digits) for integer string conversion; " ++
            "use sys.set_int_max_str_digits() to increase the limit"
      | .engine (.unencodable e) => e.message
      | .load e => e.message
      | _ => ""

end Failure

end ArithJit
