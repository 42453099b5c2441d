import ArithJit.Code.Basic
import ArithJit.Event

/-!
# Lowering expressions to straight-line code

The nodes of an expression are numbered in the order in which they are carried out: the left
operand, the right operand, then the operation. Parentheses have no node. A builder collects the
nodes; it is cleared at the start of every routine, so it can be used again after a refusal.

Lowering is a machine with a list of frames: each frame is an operation with one operand still
to come. `visit` goes down into an expression, `resume` hands a finished operand to the top
frame.
-/

namespace ArithJit

/-- Collects nodes; `nodes` holds them in reverse. -/
structure Builder where
  nextId : Nat
  nodes : List Node
  deriving DecidableEq, Repr

namespace Builder

/-- A builder without nodes. -/
def empty : Builder := ⟨0, []⟩

/-- Adds a node under the next identifier. -/
def add (b : Builder) (op : Opcode) (inputs : List Int) (value : Option Binary64) :
    Int × Builder :=
  (b.nextId, ⟨b.nextId + 1, ⟨b.nextId, op, inputs, value⟩ :: b.nodes⟩)

/-- An operation with an operand still to come: an opposite, an operation whose left operand is
    being lowered, or one whose left operand is done. -/
inductive Frame where
  | negate
  | left (op : BinaryOp) (right : Expr)
  | right (op : BinaryOp) (left : Int)

/-- How many steps a frame takes. -/
def Frame.steps : Frame → Nat
  | .negate => 1
  | .left _ r => 3 * r.size + 2
  | .right _ _ => 1

/-- How many steps a list of frames takes. -/
def stepsLeft : List Frame → Nat
  | [] => 0
  | f :: fs => f.steps + stepsLeft fs

mutual

/-- Lowers an expression whose value the frames wait for. -/
def visit (b : Builder) (frames : List Frame) : Expr → Except NodeError Int × Builder
  | .number x _ =>
      let (id, b) := b.add .const [] (some x)
      b.resume id frames
  | .group e _ => b.visit frames e
  | .negate e _ => b.visit (.negate :: frames) e
  | .binary op l r _ => b.visit (.left op r :: frames) l
  | .bare _ => (.error .unsupported, b)
termination_by e => 3 * e.size + stepsLeft frames
decreasing_by all_goals simp only [Expr.size, stepsLeft, Frame.steps]; omega

/-- Hands a finished operand to the frames; without any it is the result. -/
def resume (b : Builder) (id : Int) : List Frame → Except NodeError Int × Builder
  | [] => (.ok id, b)
  | .negate :: frames =>
      let (id, b) := b.add .neg [id] none
      b.resume id frames
  | .left op r :: frames => b.visit (.right op id :: frames) r
  | .right op l :: frames =>
      let (id, b) := b.add (.arith op) [l, id] none
      b.resume id frames
termination_by frames => stepsLeft frames
decreasing_by all_goals simp only [stepsLeft, Frame.steps]; omega

end

/-- Forgets all nodes and starts numbering again. -/
def clear (b : Builder) : Builder := { b with nextId := 0, nodes := [] }

/-- Lowers an expression to a routine that returns its value. -/
def lower (b : Builder) (e : Expr) (name : String) : Except NodeError Routine × Builder :=
  match b.clear.visit [] e with
  | (.ok id, b) =>
      let b := (b.add .ret [id] none).2
      (.ok ⟨name, b.nodes.reverse⟩, b)
  | (.error reason, b) => (.error reason, b)

end Builder

/-- The routine of an expression. -/
def Expr.lower (e : Expr) (name : String) : Except NodeError Routine :=
  (Builder.empty.lower e name).1

/-- What lowering says of a finished routine. -/
def Routine.event (r : Routine) : Event := .lowered r.name r.nodes.length

end ArithJit
