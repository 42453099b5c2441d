import ArithJit.Expr.Rendering
import ArithJit.Failure

/-!
# From a text to a value

The stages joined: a text is parsed while it is lexed, the expression is lowered, and an engine
of its own compiles the routine, calls it and is closed whatever happens. Each stage adds its
records to the log.
-/

namespace ArithJit

/-- Parses a text and gives its expression, with what the lexer said. -/
def readExpr (source : String) : Logged ParseFailure Expr :=
  match Parser.ofSource (.lexer (.reading source)) with
  | .error e => ⟨[], .error e⟩
  | .ok p =>
      let (result, p) := p.parse
      ⟨p.source.events, result⟩

/-- Parses a text, and says which expression it is. -/
def parseText (source : String) : Logged Failure Expr := do
  let e ← (readExpr source).mapError .ofParse
  let rendering ← Logged.ofExcept (e.render.mapError .node)
  Logged.tell (.parsed rendering)
  return e

/-- Lowers an expression, and says how many nodes it has. -/
def lowerExpr (e : Expr) (name : String) : Logged Failure Routine := do
  let r ← Logged.ofExcept ((e.lower name).mapError .node)
  Logged.tell r.event
  return r

/-- Parses and lowers a text. -/
def compileText (source : String) (name : String) : Logged Failure Routine := do
  let e ← parseText source
  lowerExpr e name

/-- Emits the module of a routine within the limit that integers are read with, and says so. -/
def emitRoutine (r : Routine) (moduleName : String) : Logged Failure Ssa.Module := do
  let m ← Logged.ofExcept ((r.emit moduleName (some Json.maxDigits)).mapError .ofEmission)
  Logged.tell (.emitted r.name)
  return m

/-- Opens a new engine, compiles a routine, calls it, and closes the engine in any case. -/
def runRoutine (r : Routine) (settings : Settings) : Logged EngineError Binary64 :=
  let started := (Engine.ofSettings settings).start
  match started.result with
  | .error e => ⟨started.log, .error e⟩
  | .ok () =>
      let compiled := started.engine.compile r
      match compiled.result with
      | .error e => ⟨started.log ++ compiled.log ++ compiled.engine.close.log, .error e⟩
      | .ok () =>
          let invoked := compiled.engine.invoke
          ⟨started.log ++ compiled.log ++ invoked.log ++ invoked.engine.close.log, invoked.result⟩

/-- The value of the expression that a text writes. -/
def evaluate (source : String) (settings : Settings) : Logged Failure Binary64 := do
  let r ← compileText source settings.entryName
  let value ← (runRoutine r settings).mapError .engine
  Logged.tell (.evaluated source value)
  return value

end ArithJit
