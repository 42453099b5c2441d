import ArithJit.Code.Basic
import ArithJit.Diagnostic
import ArithJit.Ssa.Basic

/-!
# Emitting modules

A routine becomes a module node by node. A table gives each identifier the operand that it
stands for; a constant stands for itself, and a node that is defined again replaces the earlier
one. The first thing that does not fit is the error: an operand that is not given, one that is
not defined yet, a second return, or no return at the end.

Identifiers are written in decimals, in the names of registers and in the report of an operand that
is not defined. Where there is a limit to the digits of an integer that is written, an identifier
beyond it is an error where it would be written. Engines emit without a limit.
-/

namespace ArithJit.Ssa

/-- Why a routine has no module. -/
inductive EmitError where
  | namelessFunction
  | missingInput
  | undefinedInput (id : Int)
  | secondReturn
  | noReturn (name : String)
  | longInteger (limit : Nat)
  deriving DecidableEq, Repr

/-- The limit that an integer exceeds when it is written, if it does. Without a limit integers of
    any length are written. -/
def exceeded? (limit : Option Nat) (k : Int) : Option Nat :=
  limit.filter fun most => most < (Decimal.digits k.natAbs).length

/-- The error for an operand that is not defined, which names it if that can be written. -/
def EmitError.undefined (limit : Option Nat) (id : Int) : EmitError :=
  match exceeded? limit id with
  | none => .undefinedInput id
  | some most => .longInteger most

@[simp] theorem exceeded?_none (k : Int) : exceeded? none k = none := rfl

@[simp] theorem EmitError.undefined_none (id : Int) :
    EmitError.undefined none id = .undefinedInput id := rfl

/-- The diagnostic of the errors that have one. -/
def EmitError.diagnostic? : EmitError → Option Diagnostic
  | .undefinedInput id =>
      some (.internalError s!"IR node {id} is used before it is defined" [("node_id", .int id)])
  | .noReturn name =>
      some (.internalError ("IR function '" ++ name ++ "' does not end with a return") [])
  | _ => none

/-- A module in the making: what each identifier stands for, the latest first, and the
    instructions so far in reverse. -/
structure Emission where
  values : List (Int × Operand)
  body : List Instr
  deriving DecidableEq, Repr

namespace Emission

/-- The operand that a node names in a given position. -/
def operand (s : Emission) (n : Node) (index : Nat) (limit : Option Nat := none) :
    Except EmitError Operand :=
  match n.inputs[index]? with
  | none => .error .missingInput
  | some id =>
      match s.values.lookup id with
      | none => .error (.undefined limit id)
      | some x => .ok x

/-- A register that no instruction writes yet. -/
def fresh (s : Emission) (family : Family) (id : Int) : Register :=
  ⟨family, id, s.body.countP fun i => i.dest?.any fun r => r.family = family && r.id = id⟩

/-- A register for the result of a node, whose name has to be written. -/
def destination (s : Emission) (family : Family) (id : Int) (limit : Option Nat := none) :
    Except EmitError Register :=
  match exceeded? limit id with
  | none => .ok (s.fresh family id)
  | some most => .error (.longInteger most)

@[simp] theorem destination_none (s : Emission) (family : Family) (id : Int) :
    s.destination family id = .ok (s.fresh family id) := rfl

/-- Whether a return was emitted. -/
def terminated (s : Emission) : Bool := s.body.any fun i => i.dest?.isNone

/-- Emits one node. -/
def node (s : Emission) (n : Node) (limit : Option Nat := none) : Except EmitError Emission :=
  match n.op with
  | .const => .ok { s with values := (n.id, .const n.value) :: s.values }
  | .arith op => do
      let l ← s.operand n 0 limit
      let r ← s.operand n 1 limit
      let dest ← s.destination .op n.id limit
      return ⟨(n.id, .register dest) :: s.values, .arith dest op l r :: s.body⟩
  | .neg => do
      let x ← s.operand n 0 limit
      let dest ← s.destination .neg n.id limit
      return ⟨(n.id, .register dest) :: s.values, .negate dest x :: s.body⟩
  | .ret => do
      let x ← s.operand n 0 limit
      if s.terminated then .error .secondReturn
      else return { s with body := .ret x :: s.body }

/-- Emits nodes one after the other. -/
def nodes (s : Emission) (ns : List Node) (limit : Option Nat := none) :
    Except EmitError Emission :=
  match ns with
  | [] => .ok s
  | n :: ns => do
      let s ← s.node n limit
      s.nodes ns limit

end Emission

end ArithJit.Ssa

namespace ArithJit.Routine

open Ssa

/-- The module of a routine, whose identifiers are written within a limit if there is one. -/
def emit (r : Routine) (moduleName : String) (limit : Option Nat := none) :
    Except EmitError Module :=
  if r.name = "" then .error .namelessFunction
  else do
    let s ← Emission.nodes ⟨[], []⟩ r.nodes limit
    if s.terminated then return ⟨moduleName, r.name, s.body.reverse⟩
    else .error (.noReturn r.name)

end ArithJit.Routine
