import ArithJit.Binary64.Arithmetic
import ArithJit.Location

/-!
# Arithmetic expressions

An expression is a number, an opposite, one of the four operations on two operands, or a
parenthesised expression. Every node may know where it begins in the text. A bare node stands
for nothing; trees that hold one have no meaning, and the functions on trees refuse them.
-/

namespace ArithJit

/-- The operations on two operands. -/
inductive BinaryOp where
  | add
  | sub
  | mul
  | div
  deriving DecidableEq, Repr

namespace BinaryOp

/-- Every operation. -/
def all : List BinaryOp := [.add, .sub, .mul, .div]

/-- How the operation is written. -/
def symbol : BinaryOp → String
  | .add => "+"
  | .sub => "-"
  | .mul => "*"
  | .div => "/"

/-- The operation of a symbol. -/
def ofSymbol? (s : String) : Option BinaryOp := all.find? fun op => op.symbol = s

/-- Products and quotients bind tighter than sums and differences. -/
def precedence : BinaryOp → Nat
  | .add | .sub => 1
  | .mul | .div => 2

/-- The operation on doubles. -/
def apply : BinaryOp → Binary64 → Binary64 → Binary64
  | .add => .add
  | .sub => .sub
  | .mul => .mul
  | .div => .div

end BinaryOp

/-- A tree of operations, each node with the place where it begins, if it has one. -/
inductive Expr where
  | bare (place : Option Location)
  | number (value : Binary64) (place : Option Location)
  | negate (operand : Expr) (place : Option Location)
  | group (inner : Expr) (place : Option Location)
  | binary (op : BinaryOp) (left right : Expr) (place : Option Location)
  deriving DecidableEq, Repr

/-- Why a tree is refused: a bare node stands in it. -/
inductive NodeError where
  | unsupported
  deriving DecidableEq, Repr

/-- The wording of the refusal. -/
def NodeError.message : NodeError → String
  | .unsupported => "Unsupported node: Expr"

namespace Expr

/-- Where the expression begins. -/
def place : Expr → Option Location
  | .bare place | .number _ place | .negate _ place | .group _ place | .binary _ _ _ place => place

/-- The number of nodes. -/
def size : Expr → Nat
  | .bare _ | .number _ _ => 1
  | .negate e _ | .group e _ => e.size + 1
  | .binary _ l r _ => l.size + r.size + 1

end Expr

end ArithJit
