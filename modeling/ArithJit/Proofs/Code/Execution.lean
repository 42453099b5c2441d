import ArithJit.Code.Basic

/-!
# The meaning of expressions and of straight-line code

An expression has a value unless a bare node stands in it: the operations are carried out from the
leaves up, and parentheses add nothing. A routine is carried out node by node over a store that
keeps the result of each node under its identifier; the first return ends it.
-/

namespace ArithJit

namespace Expr

/-- Whether no bare node stands in the tree. -/
def isWhole : Expr → Bool
  | .bare _ => false
  | .number _ _ => true
  | .negate e _ | .group e _ => e.isWhole
  | .binary _ l r _ => l.isWhole && r.isWhole

/-- The value of an expression; a tree with a bare node has none. -/
def value? : Expr → Option Binary64
  | .bare _ => none
  | .number x _ => some x
  | .negate e _ => e.value?.map .neg
  | .group e _ => e.value?
  | .binary op l r _ => do
      let x ← l.value?
      let y ← r.value?
      return op.apply x y

@[simp] theorem value?_negate (e : Expr) (place : Option Location) :
    (negate e place).value? = e.value?.map .neg := rfl

theorem value?_binary_eq_some_iff {op : BinaryOp} {l r : Expr} {place : Option Location}
    {v : Binary64} :
    (binary op l r place).value? = some v ↔
      ∃ x y, l.value? = some x ∧ r.value? = some y ∧ op.apply x y = v := by
  cases hl : l.value? with
  | none => simp [value?, hl]
  | some x =>
    cases hr : r.value? with
    | none => simp [value?, hl, hr]
    | some y => simp [value?, hl, hr]

theorem exists_value_of_isWhole {e : Expr} (h : e.isWhole = true) : ∃ v, e.value? = some v := by
  induction e with
  | bare => simp [isWhole] at h
  | number x => exact ⟨x, rfl⟩
  | negate e place ih =>
    obtain ⟨v, hv⟩ := ih h
    exact ⟨v.neg, by simp [hv]⟩
  | group e place ih => exact ih h
  | binary op l r place ihl ihr =>
    simp only [isWhole, Bool.and_eq_true] at h
    obtain ⟨x, hx⟩ := ihl h.1
    obtain ⟨y, hy⟩ := ihr h.2
    exact ⟨op.apply x y, value?_binary_eq_some_iff.2 ⟨x, y, hx, hy, rfl⟩⟩

end Expr

/-- The results of nodes under their identifiers, the latest first. -/
abbrev Store := List (Int × Binary64)

namespace Node

/-- The stored value that a node names in a given position. -/
def input? (n : Node) (s : Store) (index : Nat) : Option Binary64 :=
  n.inputs[index]?.bind fun id => s.lookup id

/-- What a node computes from the stored values; a constant without a value is zero. -/
def compute? (n : Node) (s : Store) : Option Binary64 :=
  match n.op with
  | .const => some (n.value.getD (.zero false))
  | .arith op => do
      let x ← n.input? s 0
      let y ← n.input? s 1
      return op.apply x y
  | .neg => (n.input? s 0).map .neg
  | .ret => n.input? s 0

end Node

/-- Carries out nodes up to the first return. There is no value if an input is not stored or no
    return is met. -/
def executeFrom (s : Store) : List Node → Option Binary64
  | [] => none
  | n :: ns =>
      match n.compute? s with
      | none => none
      | some x => if n.op = .ret then some x else executeFrom ((n.id, x) :: s) ns

/-- What a routine returns. -/
def Routine.execute (r : Routine) : Option Binary64 := executeFrom [] r.nodes

/-- The routine can be carried out to its last node, which is its only return. -/
structure Routine.Returns (r : Routine) (v : Binary64) : Prop where
  shape : ∃ ns ret, r.nodes = ns ++ [ret] ∧ ret.op = .ret ∧ ∀ n ∈ ns, n.op ≠ .ret
  execute_eq : r.execute = some v

theorem executeFrom_cons {n : Node} {s : Store} {x : Binary64} (hx : n.compute? s = some x)
    (hop : n.op ≠ .ret) (ns : List Node) :
    executeFrom s (n :: ns) = executeFrom ((n.id, x) :: s) ns := by
  simp [executeFrom, hx, hop]

theorem executeFrom_return {n : Node} {s : Store} (hop : n.op = .ret) (ns : List Node) :
    executeFrom s (n :: ns) = n.compute? s := by
  cases hx : n.compute? s with
  | none => simp [executeFrom, hx]
  | some x => simp [executeFrom, hx, hop]

end ArithJit
