import ArithJit.Json.Display
import ArithJit.Diagnostic
import ArithJit.Logged

/-!
# Settings

A run has four settings: the level of optimisation, the names of the compiled function and of
its module, and whether the module is verified. They are checked in this order when they are
made, so settings at hand are always valid. Settings come from the members of a JSON object;
keys that are not settings are named in a warning and ignored.
-/

namespace ArithJit

/-- Whether a character may begin a symbol. -/
def isSymbolStart (c : Char) : Bool := c.isAlpha || c = '_'

/-- Whether a character may stand in a symbol after its first. -/
def isSymbolPart (c : Char) : Bool := c.isAlphanum || c = '_' || c = '.'

/-- Whether a text is a symbol: letters, digits, underscores and points that do not begin with a
    digit or a point. One line feed may follow. -/
def isSymbol (s : String) : Bool :=
  match s.toList with
  | [] => false
  | c :: cs =>
      isSymbolStart c &&
        (cs.all isSymbolPart || (cs.getLast? = some '\n' && cs.dropLast.all isSymbolPart))

/-- The settings of a run. -/
structure Settings where
  optLevel : Nat
  entryName : String
  moduleName : String
  verify : Bool
  optLevel_le : optLevel ≤ 3
  entryName_isSymbol : isSymbol entryName = true
  moduleName_isSymbol : isSymbol moduleName = true
  deriving DecidableEq

/-- The value that is refused, and the setting that it was meant for. -/
inductive SettingError where
  | optLevel (got : Json)
  | entryName (got : Json)
  | moduleName (got : Json)
  | verify (got : Json)
  deriving DecidableEq, Repr

/-- The diagnostic of a setting that is refused. -/
def SettingError.diagnostic : SettingError → Diagnostic
  | .optLevel got =>
      .configError ("opt_level must be an integer from 0 to 3, got " ++ got.display) "opt_level"
  | .entryName got =>
      .configError ("entry_name must be a valid symbol name, got " ++ got.display) "entry_name"
  | .moduleName got =>
      .configError ("module_name must be a valid symbol name, got " ++ got.display) "module_name"
  | .verify got => .configError ("verify must be a boolean, got " ++ got.display) "verify"

namespace Settings

/-- The name of the compiled function where none is given. -/
def defaultEntryName : String := "calcjit_expr"

/-- The name of the module where none is given. -/
def defaultModuleName : String := "calcjit"

/-- The settings where none are given. -/
def default : Settings where
  optLevel := 0
  entryName := defaultEntryName
  moduleName := defaultModuleName
  verify := true
  optLevel_le := by decide
  entryName_isSymbol := by decide
  moduleName_isSymbol := by decide

/-- The keys of the settings. -/
def keys : List UnicodeString := ["opt_level", "entry_name", "module_name", "verify"]

/-- A level of optimisation: an integer from zero to three. -/
def checkOptLevel (given : Option Json) : Except SettingError { n : Nat // n ≤ 3 } :=
  match given with
  | none => .ok ⟨0, by decide⟩
  | some (.int n) =>
      if h : 0 ≤ n ∧ n ≤ 3 then .ok ⟨n.toNat, by omega⟩ else .error (.optLevel (.int n))
  | some v => .error (.optLevel v)

/-- A name: a symbol. -/
def checkName (refuse : Json → SettingError) (standard : { s : String // isSymbol s = true })
    (given : Option Json) : Except SettingError { s : String // isSymbol s = true } :=
  match given with
  | none => .ok standard
  | some (.str s) =>
      match s.toString? with
      | some name =>
          if h : isSymbol name = true then .ok ⟨name, h⟩ else .error (refuse (.str s))
      | none => .error (refuse (.str s))
  | some v => .error (refuse v)

/-- Whether to verify: a truth value. -/
def checkVerify (given : Option Json) : Except SettingError Bool :=
  match given with
  | none => .ok true
  | some (.bool b) => .ok b
  | some v => .error (.verify v)

/-- Checks the members of a JSON object, the first setting that is refused being the error. -/
def check (members : Json.Members) : Except SettingError Settings := do
  let optLevel ← checkOptLevel (Json.member? "opt_level" members)
  let entryName ← checkName .entryName ⟨_, default.entryName_isSymbol⟩
    (Json.member? "entry_name" members)
  let moduleName ← checkName .moduleName ⟨_, default.moduleName_isSymbol⟩
    (Json.member? "module_name" members)
  let verify ← checkVerify (Json.member? "verify" members)
  return ⟨optLevel, entryName, moduleName, verify, optLevel.2, entryName.2, moduleName.2⟩

/-- The keys that are not settings, each once, in the order of their code points. -/
def unknownKeys (members : Json.Members) : List UnicodeString :=
  ((members.map Prod.fst).filter fun k => !keys.contains k).eraseDups.mergeSort UnicodeString.le

/-- The settings in the members of a JSON object, after a warning about the other members. -/
def ofMembers (members : Json.Members) : Logged SettingError Settings :=
  let unknown := unknownKeys members
  ⟨if unknown.isEmpty then [] else [.unknownKeys unknown], check members⟩

end Settings

end ArithJit
