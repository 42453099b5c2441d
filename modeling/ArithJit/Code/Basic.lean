import ArithJit.Expr.Basic
import ArithJit.Json.Writer

/-!
# Straight-line code

A routine takes no arguments and returns a double. It is a list of nodes, each an operation on
the results of other nodes, which it names by their identifiers. Routines are data: nothing here
demands that identifiers are distinct, or that a node is defined before it is used.
-/

namespace ArithJit

/-- What a node does. -/
inductive Opcode where
  | const
  | arith (op : BinaryOp)
  | neg
  | ret
  deriving DecidableEq, Repr

namespace Opcode

/-- Every operation. -/
def all : List Opcode := [.const, .arith .add, .arith .sub, .arith .mul, .arith .div, .neg, .ret]

/-- The name of an operation. -/
def name : Opcode → String
  | .const => "const"
  | .arith .add => "add"
  | .arith .sub => "sub"
  | .arith .mul => "mul"
  | .arith .div => "div"
  | .neg => "neg"
  | .ret => "return"

/-- The operation of a name. -/
def ofName? (s : String) : Option Opcode := all.find? fun op => op.name = s

end Opcode

/-- One operation: its identifier, the identifiers of its operands, and the value of a constant. -/
structure Node where
  id : Int
  op : Opcode
  inputs : List Int
  value : Option Binary64
  deriving DecidableEq, Repr

/-- A routine: its name and its nodes in the order in which they are carried out. -/
structure Routine where
  name : String
  nodes : List Node
  deriving DecidableEq, Repr

/-- The JSON form of a node: operands and value are left out where there are none. -/
def Node.toJson (n : Node) : Json :=
  let head : Json.Members := [("id", .int n.id), ("op", .str n.op.name)]
  let inputs : Json.Members :=
    if n.inputs.isEmpty then [] else [("inputs", .arr (n.inputs.map .int))]
  let value : Json.Members := match n.value with
    | none => []
    | some x => [("value", .float x)]
  .obj (head ++ inputs ++ value)

namespace Routine

/-- The node that gives the result, which is the last. -/
def result? (r : Routine) : Option Node := r.nodes.getLast?

/-- The JSON form of a routine. -/
def toJson (r : Routine) : Json :=
  .obj [("name", .str r.name), ("return_type", .str "Float"),
    ("nodes", .arr (r.nodes.map Node.toJson))]

end Routine

end ArithJit
