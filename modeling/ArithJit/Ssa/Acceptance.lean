import ArithJit.Ssa.Basic

/-!
# What the back end accepts

The back end reads the text of a module, up to the first null character, before it compiles it.
It refuses a module whose name breaks out of the comment in the first line, a function name that
ends the text, a body with instructions after its return, operands that are not defined, and, if
asked to verify, a function name that is reserved. Compiled code is found by name unless its
symbol is one that assemblers keep to themselves.
-/

namespace ArithJit.Ssa

/-- The function of a compiled module: the module and what it returns. -/
structure EntryPoint where
  code : Module
  value : Binary64
  run_eq : code.run = some value

namespace Module

/-- Whether the return is the last instruction and the only one. -/
def endsWithReturn (m : Module) : Bool :=
  m.body.getLast?.any (·.dest?.isNone) && m.body.dropLast.all (·.dest?.isSome)

/-- Whether the function has one of the names that are reserved for the back end. -/
def isReserved (m : Module) : Bool := "llvm.".toList.isPrefixOf m.entry.toList

/-- Whether the text of a module is well-formed. -/
def isWellFormed (m : Module) (verify : Bool) : Bool :=
  !m.name.toList.contains '\n' && !m.entry.toList.contains '\x00' && m.endsWithReturn &&
    !(verify && m.isReserved)

/-- Compiles a module, unless the back end refuses it. -/
def load? (m : Module) (verify : Bool) : Option EntryPoint :=
  if m.isWellFormed verify then
    match h : m.run with
    | some value => some ⟨m, value, h⟩
    | none => none
  else none

/-- The symbol of the function: its name, less one character of number one in front, which marks
    a name that the back end takes as it stands. -/
def symbol (m : Module) : List Char :=
  if m.entry.toList.head? = some '\x01' then m.entry.toList.drop 1 else m.entry.toList

/-- Whether the symbol of the function is seen from outside the compiled code. -/
def isExported (m : Module) : Bool := !".L".toList.isPrefixOf m.symbol

/-- Whether a name may stand in assembly text without quotes. -/
def isPlainLabel (name : String) : Bool :=
  name.toList.all fun c => c.isAlphanum || c = '_' || c = '$' || c = '.'

end Module

/-- Why there is no assembly text. -/
inductive AssemblyError where
  | rejected
  | optLevel
  deriving DecidableEq, Repr

/-- Whether the assembly text of a module has the label of its function. Levels of optimisation
    go from zero to three. -/
def Module.definesLabel (m : Module) (optLevel : Int) : Except AssemblyError Bool :=
  if (m.load? true).isNone then .error .rejected
  else if optLevel < 0 || 3 < optLevel then .error .optLevel
  else .ok (isPlainLabel m.entry)

end ArithJit.Ssa
