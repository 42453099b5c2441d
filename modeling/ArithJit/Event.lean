import ArithJit.Decimal.Layout
import ArithJit.Text.Quoted

/-!
# Log records

Each stage says what it did in a record. A record knows its level, the part of the program
that it comes from, and its wording. Quantities that depend on the machine, the size of a
compiled text and the address of compiled code, are written as placeholders.
-/

namespace ArithJit

/-- How urgent a record is. -/
inductive LogLevel where
  | debug
  | warning
  deriving DecidableEq, Repr

/-- The name of a level. -/
def LogLevel.name : LogLevel → String
  | .debug => "DEBUG"
  | .warning => "WARNING"

/-- What a stage says that it did. -/
inductive Event where
  | lexed (tokens characters : Nat)
  | parsed (rendering : String)
  | lowered (name : String) (nodes : Nat)
  | opened (optLevel : Nat)
  | emitted (name : String)
  | compiled (name : String)
  | closed
  | evaluated (source : String) (value : Binary64)
  | unknownKeys (keys : List UnicodeString)
  | unreadable (path reason : String)
  | notObject (path : String)
  | loaded (path : String)
  deriving DecidableEq, Repr

namespace Event

/-- Settings that could not be used deserve a warning; everything else is detail. -/
def level : Event → LogLevel
  | .unknownKeys _ | .unreadable _ _ | .notObject _ => .warning
  | _ => .debug

/-- The part of the program that a record comes from. -/
def channel : Event → String
  | .lexed _ _ => "calcjit.lexer"
  | .parsed _ => "calcjit.parser"
  | .lowered _ _ => "calcjit.codegen"
  | .emitted _ => "calcjit.emit"
  | .opened _ | .compiled _ | .closed => "calcjit.jit"
  | .evaluated _ _ => "calcjit.pipeline"
  | .unknownKeys _ | .unreadable _ _ | .notObject _ | .loaded _ => "calcjit.config"

/-- The wording of a record. -/
def message : Event → UnicodeString
  | .lexed tokens characters => s!"lexed {tokens} tokens from {characters} characters"
  | .parsed rendering => "parsed " ++ rendering
  | .lowered name nodes => s!"lowered {name} to {nodes} IR nodes"
  | .opened optLevel => s!"opened MCJIT engine (opt_level={optLevel})"
  | .emitted name => "emitted <n> bytes of LLVM IR for " ++ name
  | .compiled name => "compiled " ++ name ++ " at <addr>"
  | .closed => "closed MCJIT engine"
  | .evaluated source value => "evaluated " ++ Text.quoted source ++ " = " ++ value.message
  | .unknownKeys keys => "ignoring unknown config keys: " ++ UnicodeString.intercalate ", " keys
  | .unreadable path reason => "could not read config " ++ path ++ ": " ++ reason
  | .notObject path => "config " ++ path ++ " is not a JSON object, using defaults"
  | .loaded path => "loaded config from " ++ path

end Event

end ArithJit
