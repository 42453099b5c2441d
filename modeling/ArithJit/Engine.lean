import ArithJit.Settings.Basic
import ArithJit.Ssa.Acceptance
import ArithJit.Ssa.Emission
import ArithJit.Text.Ascii

/-!
# Engines

An engine compiles one routine and calls the compiled code once. It is opened at the latest when
it compiles, and closed for good. A failed call leaves it as it was, but for being open.
-/

namespace ArithJit

/-- An engine: whether the machine below it is up, the module that it compiled, the compiled code
    until it is called, and whether that code was called and the engine closed. -/
structure Engine where
  settings : Settings
  compiled : Option Ssa.Module
  isOpen : Bool
  entry : Option Ssa.EntryPoint
  isInvoked : Bool
  isClosed : Bool

/-- Why an engine refuses. -/
inductive EngineError where
  | closed
  | occupied
  | alreadyInvoked
  | nothingCompiled
  | emission (error : Ssa.EmitError)
  | rejected
  | unencodable (error : Text.AsciiError)
  | notFound (name : String)
  deriving DecidableEq, Repr

/-- The diagnostic of the refusals that have one. What the back end itself says of a module is
    left out. -/
def EngineError.diagnostic? : EngineError → Option Diagnostic
  | .closed => some (.internalError "JIT engine has been closed" [])
  | .occupied => some (.internalError "JIT engine already holds a compiled function" [])
  | .alreadyInvoked => some (.internalError "Compiled function has already been invoked" [])
  | .nothingCompiled => some (.internalError "No function has been compiled" [])
  | .emission e => e.diagnostic?
  | .rejected => some (.internalError "LLVM rejected the generated module: ..." [])
  | .notFound name =>
      some (.internalError ("Compiled function '" ++ name ++ "' was not found")
        [("entry_name", .str name)])
  | .unencodable _ => none

namespace Engine

/-- What a call does: the engine after it, what it said, and its result. -/
structure Reply (α : Type) where
  engine : Engine
  log : List Event
  result : Except EngineError α

/-- A new engine. -/
def ofSettings (settings : Settings) : Engine := ⟨settings, none, false, none, false, false⟩

/-- Refuses a call. -/
def refuse {α : Type} (e : Engine) (error : EngineError) : Reply α := ⟨e, [], .error error⟩

/-- Brings the machine up, unless it is up already. -/
def start (e : Engine) : Reply Unit :=
  if e.isClosed then e.refuse .closed
  else if e.isOpen then ⟨e, [], .ok ()⟩
  else ⟨{ e with isOpen := true }, [.opened e.settings.optLevel], .ok ()⟩

/-- Compiles a routine on an engine that is open, and looks the compiled code up by its name,
    which only a name in ASCII allows. -/
def compileOpen (e : Engine) (r : Routine) : Reply Unit :=
  match r.emit e.settings.moduleName with
  | .error error => e.refuse (.emission error)
  | .ok m =>
      match m.load? e.settings.verify with
      | none => ⟨e, [.emitted r.name], .error .rejected⟩
      | some entry =>
          match Text.asciiError? r.name with
          | some error => ⟨e, [.emitted r.name], .error (.unencodable error)⟩
          | none =>
              if m.isExported then
                ⟨{ e with compiled := some m, entry := some entry },
                  [.emitted r.name, .compiled r.name], .ok ()⟩
              else ⟨e, [.emitted r.name], .error (.notFound r.name)⟩

/-- Compiles a routine, which an engine does once. -/
def compile (e : Engine) (r : Routine) : Reply Unit :=
  if e.entry.isSome || e.isInvoked then e.refuse .occupied
  else
    let started := e.start
    match started.result with
    | .error error => ⟨started.engine, started.log, .error error⟩
    | .ok () =>
        let reply := started.engine.compileOpen r
        ⟨reply.engine, started.log ++ reply.log, reply.result⟩

/-- Calls the compiled code, which an engine does once. -/
def invoke (e : Engine) : Reply Binary64 :=
  if e.isClosed then e.refuse .closed
  else if e.isInvoked then e.refuse .alreadyInvoked
  else
    match e.entry with
    | none => e.refuse .nothingCompiled
    | some entry => ⟨{ e with entry := none, isInvoked := true }, [], .ok entry.value⟩

/-- Gives the machine and the compiled code back. -/
def close (e : Engine) : Reply Unit :=
  ⟨{ e with entry := none, isOpen := false, isClosed := true },
    if e.isOpen then [.closed] else [], .ok ()⟩

end Engine

end ArithJit
