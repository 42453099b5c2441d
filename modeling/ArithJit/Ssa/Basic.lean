import ArithJit.Expr.Basic
import ArithJit.Text.Quoted

/-!
# Single-assignment modules

A module holds one function without arguments, whose body is a list of instructions on doubles.
Each instruction writes a register of its own, and its operands are constants or registers. The
text of a module is fixed to the letter, and `run` says what its function returns.
-/

namespace ArithJit.Ssa

/-- The two families of registers: results of operations on two operands, and opposites. -/
inductive Family where
  | op
  | neg
  deriving DecidableEq, Repr

/-- A register: a family, the identifier of the node that it holds, and how many registers of the
    same family and identifier there were before it. -/
structure Register where
  family : Family
  id : Int
  copy : Nat
  deriving DecidableEq, Repr

/-- The name of a family. -/
def Family.name : Family → String
  | .op => "op"
  | .neg => "neg"

/-- The name of a register; only repetitions carry their number. -/
def Register.name (r : Register) : String :=
  let base := s!"{r.family.name}.{r.id}"
  if r.copy = 0 then base else s!"{base}.{r.copy}"

/-- What an instruction reads: a constant, which is zero if it has no value, or a register. -/
inductive Operand where
  | const (value : Option Binary64)
  | register (r : Register)
  deriving DecidableEq, Repr

/-- The instructions. -/
inductive Instr where
  | arith (dest : Register) (op : BinaryOp) (left right : Operand)
  | negate (dest : Register) (operand : Operand)
  | ret (operand : Operand)
  deriving DecidableEq, Repr

/-- The register that an instruction writes. -/
def Instr.dest? : Instr → Option Register
  | .arith dest _ _ _ | .negate dest _ => some dest
  | .ret _ => none

/-- A module: its name, the name of its function, and the body of that function. -/
structure Module where
  name : String
  entry : String
  body : List Instr
  deriving DecidableEq, Repr

/-! ## Text -/

/-- The digits of a number in base sixteen, without leading zeros. -/
def hexDigits (n : Nat) : List Char := Nat.toDigits 16 n

/-- A constant as its word in base sixteen, set to the right of sixteen places. -/
def constText (x : Binary64) : String :=
  let digits := '0' :: 'x' :: hexDigits x.word
  String.ofList (List.replicate (16 - digits.length) ' ' ++ digits)

/-- A register as instructions show it. -/
def Register.text (r : Register) : String := "%\"" ++ r.name ++ "\""

/-- An operand as instructions show it. -/
def Operand.text : Operand → String
  | .const none => "0.0"
  | .const (some x) => constText x
  | .register r => r.text

/-- The mnemonic of an operation. -/
def mnemonic : BinaryOp → String
  | .add => "fadd"
  | .sub => "fsub"
  | .mul => "fmul"
  | .div => "fdiv"

/-- The line of an instruction. -/
def Instr.text : Instr → String
  | .arith dest op l r =>
      "  " ++ dest.text ++ " = " ++ mnemonic op ++ " double " ++ l.text ++ ", " ++ r.text
  | .negate dest x => "  " ++ dest.text ++ " = fneg double " ++ x.text
  | .ret x => "  ret double " ++ x.text

/-- The name of a function between its quotes: only the backslash and the quote are escaped. -/
def escapedName (s : String) : String :=
  String.ofList (s.toList.flatMap fun c =>
    if c = '\\' then "\\5c".toList else if c = '"' then "\\22".toList else [c])

namespace Module

/-- The lines of a module for a target. -/
def lines (m : Module) (triple : String) : List String :=
  ["; ModuleID = \"" ++ m.name ++ "\"", "target triple = \"" ++ triple ++ "\"",
   "target datalayout = \"\"", "", "define double @\"" ++ escapedName m.entry ++ "\"()",
   "\x7b", "entry:"] ++ m.body.map Instr.text ++ ["\x7d"]

/-- The text of a module for a target. -/
def text (m : Module) (triple : String) : String :=
  String.join ((m.lines triple).map (· ++ "\n"))

end Module

/-! ## Meaning -/

/-- The values of the registers, the latest first. -/
abbrev Registers := List (Register × Binary64)

/-- The value of an operand. -/
def Operand.value? (regs : Registers) : Operand → Option Binary64
  | .const none => some (.zero false)
  | .const (some x) => some x
  | .register r => regs.lookup r

/-- Carries out instructions up to the first return. There is no value if an operand is not
    defined or no return is met. -/
def runFrom (regs : Registers) : List Instr → Option Binary64
  | [] => none
  | .ret x :: _ => x.value? regs
  | .arith dest op l r :: rest =>
      match l.value? regs, r.value? regs with
      | some x, some y => runFrom ((dest, op.apply x y) :: regs) rest
      | _, _ => none
  | .negate dest x :: rest =>
      match x.value? regs with
      | some x => runFrom ((dest, x.neg) :: regs) rest
      | none => none

/-- What the function of a module returns. -/
def Module.run (m : Module) : Option Binary64 := runFrom [] m.body

end ArithJit.Ssa
