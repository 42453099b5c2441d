import ArithJit.Code.Lowering
import ArithJit.Proofs.Code.Execution

/-!
# Lowering keeps the value

`Expr.code` gives the nodes of an expression by recursion on the tree: those of the operands, then
the node of the operation, numbered in this order. The machine that lowers expressions builds this
list whatever frames wait below, so its many interleavings reduce to one equation, `lower_eq`.

Carried out over any store, the nodes of an expression leave its value under the last identifier
and touch nothing below the first; this frame is what keeps a left operand safe while the right
one is computed.
-/

namespace ArithJit

namespace Expr

/-- How many nodes an expression has in code: parentheses have none. -/
def weight : Expr → Nat
  | .bare _ => 0
  | .number _ _ => 1
  | .negate e _ => e.weight + 1
  | .group e _ => e.weight
  | .binary _ l r _ => l.weight + r.weight + 1

/-- The identifier of the last of the nodes that are numbered from `n` on. -/
def root (e : Expr) (n : Nat) : Int := (n + e.weight : Nat) - 1

/-- The nodes of an expression, numbered from `n` on. -/
def code : Expr → Nat → List Node
  | .bare _, _ => []
  | .number x _, n => [⟨n, .const, [], some x⟩]
  | .negate e _, n => e.code n ++ [⟨(n + e.weight : Nat), .neg, [e.root n], none⟩]
  | .group e _, n => e.code n
  | .binary op l r _, n =>
      l.code n ++ r.code (n + l.weight) ++
        [⟨(n + l.weight + r.weight : Nat), .arith op, [l.root n, r.root (n + l.weight)], none⟩]

/-- The node that returns the value of an expression. -/
def returnNode (e : Expr) : Node := ⟨e.weight, .ret, [e.root 0], none⟩

@[simp] theorem root_group (e : Expr) (place : Option Location) (n : Nat) :
    (group e place).root n = e.root n := rfl

@[simp] theorem root_number (x : Binary64) (place : Option Location) (n : Nat) :
    (number x place).root n = n := by
  simp [root, weight]

@[simp] theorem root_negate (e : Expr) (place : Option Location) (n : Nat) :
    (negate e place).root n = (n + e.weight : Nat) := by
  simp only [root, weight]
  omega

@[simp] theorem root_binary (op : BinaryOp) (l r : Expr) (place : Option Location) (n : Nat) :
    (binary op l r place).root n = (n + l.weight + r.weight : Nat) := by
  simp only [root, weight]
  omega

theorem root_lt (e : Expr) (n : Nat) : e.root n < (n + e.weight : Nat) := by
  simp only [root]
  omega

theorem op_ne_ret_of_mem_code {e : Expr} {n : Nat} {node : Node} (h : node ∈ e.code n) :
    node.op ≠ .ret := by
  induction e generalizing n with
  | bare => simp [code] at h
  | number => simp_all [code]
  | negate e place ih =>
    rcases List.mem_append.1 h with h | h
    · exact ih h
    · simp_all
  | group e place ih => exact ih h
  | binary op l r place ihl ihr =>
    rcases List.mem_append.1 h with h | h
    · rcases List.mem_append.1 h with h | h
      · exact ihl h
      · exact ihr h
    · simp_all

end Expr

namespace Builder

/-- Adds the nodes of an expression. -/
def addCode (b : Builder) (e : Expr) : Builder :=
  ⟨b.nextId + e.weight, (e.code b.nextId).reverse ++ b.nodes⟩

/-- Lowering an expression adds its nodes and hands its last identifier to the frames. -/
theorem visit_eq {e : Expr} (h : e.isWhole = true) (b : Builder) (frames : List Frame) :
    b.visit frames e = (b.addCode e).resume (e.root b.nextId) frames := by
  induction e generalizing b frames with
  | bare => simp [Expr.isWhole] at h
  | number x place => simp [visit, add, addCode, Expr.code, Expr.weight]
  | negate e place ih =>
    rw [visit, ih h, resume]
    simp [add, addCode, Expr.code, Expr.weight, Nat.add_assoc]
  | group e place ih =>
    rw [visit, ih h]
    rfl
  | binary op l r place ihl ihr =>
    simp only [Expr.isWhole, Bool.and_eq_true] at h
    rw [visit, ihl h.1, resume, ihr h.2, resume]
    simp [add, addCode, Expr.code, Expr.weight, Nat.add_assoc]

end Builder

namespace Expr

/-- The routine of an expression is its code and a return of its last node. -/
theorem lower_eq {e : Expr} (h : e.isWhole = true) (name : String) :
    e.lower name = .ok ⟨name, e.code 0 ++ [e.returnNode]⟩ := by
  simp only [lower, Builder.lower, Builder.visit_eq h]
  simp [Builder.resume, Builder.addCode, Builder.clear, Builder.add, returnNode]

/-- The code of an expression stores its value under its last identifier, and what was stored
    under identifiers before its first stays. -/
theorem executeFrom_code {e : Expr} {v : Binary64} (hv : e.value? = some v) (n : Nat)
    (s : Store) :
    ∃ s' : Store, (∀ rest, executeFrom s (e.code n ++ rest) = executeFrom s' rest) ∧
      s'.lookup (e.root n) = some v ∧ ∀ id : Int, id < n → s'.lookup id = s.lookup id := by
  induction e generalizing v n s with
  | bare => simp [value?] at hv
  | number x place =>
    obtain rfl : x = v := by simpa [value?] using hv
    refine ⟨((n : Int), x) :: s, fun rest => ?_, by simp, fun id hid => ?_⟩
    · exact executeFrom_cons rfl (by simp) rest
    · rw [List.lookup_cons, beq_false_of_ne (by omega)]
  | group e place ih => exact ih hv n s
  | negate e place ih =>
    obtain ⟨x, hx, rfl⟩ := Option.map_eq_some_iff.1 hv
    obtain ⟨s₁, hrun, hroot, hframe⟩ := ih hx n s
    refine ⟨(((n + e.weight : Nat) : Int), x.neg) :: s₁, fun rest => ?_, by simp,
      fun id hid => ?_⟩
    · rw [code, List.append_assoc, hrun, List.singleton_append]
      exact executeFrom_cons (by simp [Node.compute?, Node.input?, hroot]) (by simp) rest
    · rw [List.lookup_cons, beq_false_of_ne (by omega)]
      exact hframe id hid
  | binary op l r place ihl ihr =>
    obtain ⟨x, y, hx, hy, rfl⟩ := value?_binary_eq_some_iff.1 hv
    obtain ⟨s₁, hrunl, hrootl, hframel⟩ := ihl hx n s
    obtain ⟨s₂, hrunr, hrootr, hframer⟩ := ihr hy (n + l.weight) s₁
    -- The right operand is numbered after the left one, so the left value is still there.
    have hleft : s₂.lookup (l.root n) = some x := (hframer _ (l.root_lt n)).trans hrootl
    refine ⟨(((n + l.weight + r.weight : Nat) : Int), op.apply x y) :: s₂, fun rest => ?_,
      by simp, fun id hid => ?_⟩
    · rw [code, List.append_assoc, List.append_assoc, hrunl, hrunr, List.singleton_append]
      exact executeFrom_cons (by simp [Node.compute?, Node.input?, hleft, hrootr]) (by simp) rest
    · rw [List.lookup_cons, beq_false_of_ne (by omega), hframer id (by omega)]
      exact hframel id hid

/-- The routine of an expression returns its value. -/
theorem returns_code {e : Expr} {v : Binary64} (hv : e.value? = some v) (name : String) :
    Routine.Returns ⟨name, e.code 0 ++ [e.returnNode]⟩ v where
  shape := ⟨e.code 0, e.returnNode, rfl, rfl, fun _ => op_ne_ret_of_mem_code⟩
  execute_eq := by
    obtain ⟨s, hrun, hroot, -⟩ := executeFrom_code hv 0 []
    calc executeFrom [] (e.code 0 ++ [e.returnNode])
        = executeFrom s [e.returnNode] := hrun _
      _ = e.returnNode.compute? s := executeFrom_return rfl []
      _ = some v := by simp [returnNode, Node.compute?, Node.input?, hroot]

/-- Lowering keeps the meaning of every tree without bare nodes: the tree has a value, its routine
    holds one return, which is its last node, and returns this value. -/
theorem exists_lower_execute_eq_value (e : Expr) (h : e.isWhole = true) (name : String) :
    ∃ v ns ret, e.value? = some v ∧ e.lower name = .ok ⟨name, ns ++ [ret]⟩ ∧
      Routine.execute ⟨name, ns ++ [ret]⟩ = some v ∧
      ret.op = .ret ∧ ∀ n ∈ ns, n.op ≠ .ret := by
  obtain ⟨v, hv⟩ := exists_value_of_isWhole h
  exact ⟨v, e.code 0, e.returnNode, hv, lower_eq h name, (returns_code hv name).execute_eq, rfl,
    fun n hn => op_ne_ret_of_mem_code hn⟩

/-- The case of `-0.0 - (inf / 1.0)`, where exchanged operands would show. -/
theorem exists_lower_execute_signed_zero :
    let e := binary .sub (negate (number (.zero false) none) none)
      (group (binary .div (number (.infinity false) none)
        (number ⟨0x3ff0000000000000⟩ none) none) none) none
    e.isWhole = true ∧ e.value? = some (.infinity true) ∧
      ∃ v ns ret, e.value? = some v ∧ e.lower "f" = .ok ⟨"f", ns ++ [ret]⟩ ∧
        Routine.execute ⟨"f", ns ++ [ret]⟩ = some v ∧
        ret.op = .ret ∧ ∀ n ∈ ns, n.op ≠ .ret :=
  ⟨by decide, by decide +kernel, exists_lower_execute_eq_value _ (by decide) "f"⟩

end Expr

end ArithJit
