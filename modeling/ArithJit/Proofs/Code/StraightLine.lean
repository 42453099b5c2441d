import Mathlib.Data.List.Forall2
import ArithJit.Proofs.Code.Lowering
import ArithJit.Proofs.Ssa.Listing

/-!
# The shape of lowered code

The nodes of a lowered expression are numbered by their places and read only nodes before them. The
last node is the only return, and every other node is read exactly once: nothing is computed in vain
and nothing is shared. `Expr.count_inputs_code` carries the last part. The code of an expression
reads all of its own nodes but the last, which is left for whoever stands above it.

A routine of this shape is emitted whatever it computes. As identifiers grow from node to node, no
register of a new identifier is written yet, so every name stands without a number behind it.
-/

namespace ArithJit

/-- How many operands an operation takes. -/
def Opcode.arity : Opcode → Nat
  | .const => 0
  | .neg | .ret => 1
  | .arith _ => 2

namespace Node

/-- Whether a node computes something from other nodes. -/
def isOperation (n : Node) : Bool :=
  match n.op with
  | .arith _ | .neg => true
  | .const | .ret => false

/-- A node in its place: its identifier is its number, it has the operands that its operation takes,
    all of them earlier nodes, and only a constant has a value. -/
structure Fits (n : Node) (i : Nat) : Prop where
  id_eq : n.id = i
  arity_eq : n.inputs.length = n.op.arity
  earlier : ∀ x ∈ n.inputs, 0 ≤ x ∧ x < n.id
  value_iff : n.value.isSome = true ↔ n.op = .const

end Node

/-- Every node is in its place, where places are counted from `n` on. -/
def FitFrom (n : Nat) (ns : List Node) : Prop :=
  ∀ i (node : Node), ns[i]? = some node → node.Fits (n + i)

/-- A routine of `k` values and a return. Every node is in its place, the last node is the only
    return, and each value is read once. -/
structure Routine.IsStraightLine (r : Routine) (k : Nat) : Prop where
  length_eq : r.nodes.length = k + 1
  fits : ∀ i (node : Node), r.nodes[i]? = some node → node.Fits i
  ret_iff : ∀ i node, r.nodes[i]? = some node → (node.op = .ret ↔ i = k)
  used_once : ∀ i : Nat, i < k → (r.nodes.flatMap Node.inputs).count (i : Int) = 1

section FitFrom

variable {n : Nat} {node : Node} {ns ms : List Node}

theorem fitFrom_nil (n : Nat) : FitFrom n [] := by
  intro i node h
  simp at h

theorem fitFrom_cons : FitFrom n (node :: ns) ↔ node.Fits n ∧ FitFrom (n + 1) ns := by
  constructor
  · intro h
    refine ⟨h 0 node rfl, fun i other hi => ?_⟩
    have hfits := h (i + 1) other (by simpa using hi)
    rwa [Nat.add_assoc, Nat.add_comm 1 i]
  · rintro ⟨hnode, hns⟩ i other hi
    cases i with
    | zero =>
      obtain rfl : node = other := by simpa using hi
      exact hnode
    | succ i =>
      have hfits := hns i other (by simpa using hi)
      rwa [Nat.add_assoc, Nat.add_comm 1 i] at hfits

theorem fitFrom_append : FitFrom n (ns ++ ms) ↔ FitFrom n ns ∧ FitFrom (n + ns.length) ms := by
  induction ns generalizing n with
  | nil => simp [fitFrom_nil]
  | cons node ns ih =>
    rw [List.cons_append, fitFrom_cons, fitFrom_cons, ih, List.length_cons, and_assoc,
      Nat.add_assoc, Nat.add_comm 1]

theorem fitFrom_concat :
    FitFrom n (ns ++ [node]) ↔ FitFrom n ns ∧ node.Fits (n + ns.length) := by
  simp [fitFrom_append, fitFrom_cons, fitFrom_nil]

end FitFrom

/-! ## Lowered expressions -/

namespace Expr

variable {e : Expr}

/-- How many opposites and operations on two operands a tree has. -/
def operations : Expr → Nat
  | .bare _ | .number _ _ => 0
  | .negate e _ => e.operations + 1
  | .group e _ => e.operations
  | .binary _ l r _ => l.operations + r.operations + 1

theorem weight_pos (h : e.isWhole = true) : 0 < e.weight := by
  induction e with
  | bare => simp [isWhole] at h
  | number => exact Nat.one_pos
  | negate e place => exact Nat.succ_pos _
  | group e place ih => exact ih h
  | binary op l r place => exact Nat.succ_pos _

theorem root_nonneg (h : e.isWhole = true) (n : Nat) : 0 ≤ e.root n := by
  have := weight_pos h
  simp only [root]
  omega

theorem length_code (e : Expr) (n : Nat) : (e.code n).length = e.weight := by
  induction e generalizing n with
  | bare => rfl
  | number => rfl
  | negate e place ih => simp [code, weight, ih]
  | group e place ih => exact ih n
  | binary op l r place ihl ihr => simp [code, weight, ihl, ihr, Nat.add_assoc]

theorem length_filter_code (e : Expr) (n : Nat) :
    ((e.code n).filter Node.isOperation).length = e.operations := by
  induction e generalizing n with
  | bare => rfl
  | number => rfl
  | negate e place ih =>
    rw [code, List.filter_append, List.length_append, ih]
    rfl
  | group e place ih => exact ih n
  | binary op l r place ihl ihr =>
    rw [code, List.filter_append, List.filter_append, List.length_append, List.length_append, ihl,
      ihr]
    rfl

theorem fitFrom_code (h : e.isWhole = true) (n : Nat) : FitFrom n (e.code n) := by
  induction e generalizing n with
  | bare => simp [isWhole] at h
  | number x place =>
    refine fitFrom_cons.2 ⟨⟨rfl, rfl, by simp, by simp⟩, fitFrom_nil _⟩
  | negate e place ih =>
    have hroot := root_nonneg (e := e) h n
    have hlt := e.root_lt n
    refine fitFrom_concat.2 ⟨ih h n, ?_⟩
    rw [length_code]
    exact ⟨rfl, rfl, by simpa using ⟨hroot, hlt⟩, by simp⟩
  | group e place ih => exact ih h n
  | binary op l r place ihl ihr =>
    simp only [isWhole, Bool.and_eq_true] at h
    have hl := root_nonneg h.1 n
    have hr := root_nonneg h.2 (n + l.weight)
    have hllt := l.root_lt n
    have hrlt := r.root_lt (n + l.weight)
    refine fitFrom_concat.2 ⟨fitFrom_append.2 ⟨ihl h.1 n, ?_⟩, ?_⟩
    · rw [length_code]
      exact ihr h.2 _
    · rw [List.length_append, length_code, length_code, ← Nat.add_assoc]
      refine ⟨rfl, rfl, ?_, by simp⟩
      simp only [List.mem_cons, List.not_mem_nil, or_false, forall_eq_or_imp, forall_eq]
      omega

/-- The code of an expression reads each of its nodes once, except the last. -/
theorem count_inputs_code (h : e.isWhole = true) (n : Nat) (id : Int) :
    ((e.code n).flatMap Node.inputs).count id = if n ≤ id ∧ id < e.root n then 1 else 0 := by
  induction e generalizing n with
  | bare => simp [isWhole] at h
  | number x place =>
    simp only [code, List.flatMap_cons, List.flatMap_nil, List.append_nil, List.count_nil,
      root_number]
    split <;> omega
  | negate e place ih =>
    have hpos := weight_pos (e := e) h
    have hroot : e.root n = (n + e.weight : Nat) - 1 := rfl
    simp only [code, List.flatMap_append, List.flatMap_cons, List.flatMap_nil, List.append_nil,
      List.count_append, List.count_singleton, beq_iff_eq, ih h, root_negate]
    split <;> split <;> split <;> omega
  | group e place ih => exact ih h n
  | binary op l r place ihl ihr =>
    simp only [isWhole, Bool.and_eq_true] at h
    have hlpos := weight_pos h.1
    have hrpos := weight_pos h.2
    have hl : l.root n = (n + l.weight : Nat) - 1 := rfl
    have hr : r.root (n + l.weight) = (n + l.weight + r.weight : Nat) - 1 := rfl
    simp only [code, List.flatMap_append, List.flatMap_cons, List.flatMap_nil, List.append_nil,
      List.count_append, List.count_cons, List.count_nil, beq_iff_eq, ihl h.1, ihr h.2,
      root_binary]
    -- The identifier is read in the left operand, in the right one, or it is the last of one of
    -- them and read by the new node.
    split <;> split <;> split <;> split <;> split <;> omega

theorem isStraightLine_code (h : e.isWhole = true) (name : String) :
    Routine.IsStraightLine ⟨name, e.code 0 ++ [e.returnNode]⟩ e.weight where
  length_eq := by simp [length_code]
  fits := by
    have hlast : e.returnNode.Fits (0 + (e.code 0).length) := by
      have hroot := root_nonneg h 0
      have hlt := e.root_lt 0
      rw [length_code]
      refine ⟨by simp [returnNode], rfl, ?_, by simp [returnNode]⟩
      simpa [returnNode, hroot] using hlt
    simpa [FitFrom] using fitFrom_concat.2 ⟨fitFrom_code h 0, hlast⟩
  ret_iff := by
    intro i node hi
    simp only [List.getElem?_append, length_code] at hi
    split at hi
    · next hlt =>
      have hop := op_ne_ret_of_mem_code (List.mem_of_getElem? hi)
      exact ⟨fun hret => absurd hret hop, fun heq => by omega⟩
    · next hge =>
      rw [List.getElem?_singleton] at hi
      split at hi
      · obtain rfl := Option.some.inj hi
        exact ⟨fun _ => by omega, fun _ => rfl⟩
      · simp at hi
  used_once := by
    intro i hi
    have hroot : e.root 0 = (0 + e.weight : Nat) - 1 := rfl
    simp only [List.flatMap_append, List.flatMap_cons, List.flatMap_nil, List.append_nil,
      List.count_append, count_inputs_code h, returnNode, List.count_singleton, beq_iff_eq]
    split <;> split <;> omega

end Expr

/-! ## Emission -/

namespace Ssa

open Listing

/-- A line computes a node under the name of its identifier alone. -/
inductive Listing.Line.Computes (n : Node) : Line → Prop
  | arith {op : BinaryOp} {l r : Atom} (h : n.op = .arith op) :
      Computes n (.arith (Register.base .op n.id) op l r)
  | negate {x : Atom} (h : n.op = .neg) : Computes n (.negate (Register.base .neg n.id) x)

/-- Nodes from the place `i` on can be emitted: there are operands for those before it, no register
    of a later one, and no return. -/
structure Emission.IsReady (σ : Emission) (i : Nat) : Prop where
  defined : ∀ id : Int, 0 ≤ id → id < i → ∃ x, σ.values.lookup id = some x
  unwritten : ∀ r ∈ dests σ.body, r.id < i
  unterminated : σ.terminated = false

namespace Emission.IsReady

variable {σ : Emission} {i : Nat} {n ret : Node} {ns : List Node}

theorem start : IsReady ⟨[], []⟩ 0 where
  defined id hid hlt := by omega
  unwritten r hr := by simp [dests] at hr
  unterminated := rfl

theorem fresh_eq (h : σ.IsReady i) (family : Family) : σ.fresh family i = ⟨family, i, 0⟩ := by
  simp only [fresh, Register.mk.injEq, true_and, List.countP_eq_zero]
  intro instr hinstr
  cases hdest : instr.dest? with
  | none => simp
  | some r =>
    have hlt := h.unwritten r (List.mem_filterMap.2 ⟨instr, hinstr, hdest⟩)
    simp only [Option.any_some, Bool.and_eq_true, decide_eq_true_eq]
    omega

theorem operand_eq_ok (h : σ.IsReady i) (hn : n.Fits i) {index : Nat}
    (hindex : index < n.op.arity) : ∃ x, σ.operand n index = .ok x := by
  rw [← hn.arity_eq] at hindex
  obtain ⟨hnonneg, hlt⟩ := hn.earlier _ (List.getElem_mem hindex)
  obtain ⟨x, hx⟩ := h.defined _ hnonneg (hn.id_eq ▸ hlt)
  exact ⟨x, by simp [operand, List.getElem?_eq_getElem hindex, hx]⟩

theorem define (h : σ.IsReady i) (x : Operand) :
    IsReady { σ with values := ((i : Int), x) :: σ.values } (i + 1) where
  defined id hid hlt := by
    by_cases heq : id = i
    · exact ⟨x, by simp [heq]⟩
    · obtain ⟨y, hy⟩ := h.defined id hid (by omega)
      exact ⟨y, by rw [List.lookup_cons, beq_false_of_ne heq, hy]⟩
  unwritten r hr := by
    have := h.unwritten r hr
    omega
  unterminated := h.unterminated

theorem write (h : σ.IsReady (i + 1)) {instr : Instr} {family : Family}
    (hdest : instr.dest? = some ⟨family, i, 0⟩) :
    IsReady { σ with body := instr :: σ.body } (i + 1) where
  defined := h.defined
  unwritten r hr := by
    simp only [dests, List.filterMap_cons_some hdest, List.mem_cons] at hr
    rcases hr with rfl | hr
    · exact Int.lt_add_one_iff.2 (Int.le_refl _)
    · exact h.unwritten r hr
  unterminated := by
    simpa [terminated, hdest] using h.unterminated

/-- A node in its place is emitted: a constant adds nothing, and an operation adds one line. -/
theorem node (h : σ.IsReady i) (hn : n.Fits i) (hop : n.op ≠ .ret) :
    ∃ (σ' : Emission) (instrs : List Instr), σ.node n = .ok σ' ∧
      σ'.body = instrs.reverse ++ σ.body ∧
      List.Forall₂ Line.Computes ([n].filter Node.isOperation) (instrs.map Line.ofInstr) ∧
      σ'.IsReady (i + 1) := by
  unfold Emission.node
  cases hcase : n.op with
  | const =>
    refine ⟨_, [], rfl, rfl, by simp [Node.isOperation, hcase], ?_⟩
    rw [hn.id_eq]
    exact h.define _
  | arith op =>
    obtain ⟨l, hl⟩ := h.operand_eq_ok hn (show 0 < n.op.arity by simp [hcase, Opcode.arity])
    obtain ⟨r, hr⟩ := h.operand_eq_ok hn (show 1 < n.op.arity by simp [hcase, Opcode.arity])
    have hfresh : σ.fresh .op n.id = ⟨.op, n.id, 0⟩ := by rw [hn.id_eq, h.fresh_eq]
    refine ⟨_, [.arith ⟨.op, n.id, 0⟩ op l r],
      by simp only [hl, hr, destination_none, hfresh]; rfl, rfl, ?_, ?_⟩
    · rw [List.filter_cons_of_pos (by simp [Node.isOperation, hcase])]
      exact .cons (.arith hcase) .nil
    · rw [hn.id_eq]
      exact (h.define _).write rfl
  | neg =>
    obtain ⟨x, hx⟩ := h.operand_eq_ok hn (show 0 < n.op.arity by simp [hcase, Opcode.arity])
    have hfresh : σ.fresh .neg n.id = ⟨.neg, n.id, 0⟩ := by rw [hn.id_eq, h.fresh_eq]
    refine ⟨_, [.negate ⟨.neg, n.id, 0⟩ x],
      by simp only [hx, destination_none, hfresh]; rfl, rfl, ?_, ?_⟩
    · rw [List.filter_cons_of_pos (by simp [Node.isOperation, hcase])]
      exact .cons (.negate hcase) .nil
    · rw [hn.id_eq]
      exact (h.define _).write rfl
  | ret => exact absurd hcase hop

/-- Nodes in their places before a return are emitted, one line for each operation. -/
theorem nodes (h : σ.IsReady i) (hns : FitFrom i (ns ++ [ret])) (hop : ∀ n ∈ ns, n.op ≠ .ret)
    (hret : ret.op = .ret) :
    ∃ (σ' : Emission) (instrs : List Instr) (x : Operand), σ.nodes (ns ++ [ret]) = .ok σ' ∧
      σ'.body = .ret x :: (instrs.reverse ++ σ.body) ∧
      List.Forall₂ Line.Computes (ns.filter Node.isOperation) (instrs.map Line.ofInstr) := by
  induction ns generalizing σ i with
  | nil =>
    have hfits := (fitFrom_cons.1 hns).1
    obtain ⟨x, hx⟩ := h.operand_eq_ok hfits (show 0 < ret.op.arity by simp [hret, Opcode.arity])
    refine ⟨{ σ with body := .ret x :: σ.body }, [], x, ?_, rfl, .nil⟩
    refine Emission.nodes_cons_eq_ok_iff.2 ⟨_, ?_, rfl⟩
    simp only [Emission.node, hret, hx, h.unterminated]
    rfl
  | cons n ns ih =>
    obtain ⟨hn, hns⟩ := fitFrom_cons.1 hns
    obtain ⟨τ, instrs, hnode, hbody, hlines, hready⟩ := h.node hn (hop n (by simp))
    obtain ⟨σ', more, x, hnodes, hbody', hlines'⟩ :=
      ih hready hns fun n hn => hop n (List.mem_cons_of_mem _ hn)
    refine ⟨σ', instrs ++ more, x, Emission.nodes_cons_eq_ok_iff.2 ⟨τ, hnode, hnodes⟩,
      by simp [hbody', hbody], ?_⟩
    rw [← List.singleton_append, List.filter_append, List.map_append]
    exact List.rel_append hlines hlines'

end Emission.IsReady

end Ssa

namespace Routine.IsStraightLine

open Ssa Ssa.Listing

variable {r : Routine} {k : Nat}

/-- Before the last node no return stands. -/
theorem exists_nodes_eq (h : r.IsStraightLine k) :
    ∃ ns ret, r.nodes = ns ++ [ret] ∧ ret.op = .ret ∧ ∀ n ∈ ns, n.op ≠ .ret := by
  obtain ⟨name, nodes⟩ := r
  have hlength : nodes.length = k + 1 := h.length_eq
  rcases List.eq_nil_or_concat' nodes with rfl | ⟨ns, ret, rfl⟩
  · simp at hlength
  · have hk : ns.length = k := by simpa using hlength
    refine ⟨ns, ret, rfl, (h.ret_iff k ret (by simp [← hk])).2 rfl, fun n hn hret => ?_⟩
    obtain ⟨i, hi, rfl⟩ := List.mem_iff_getElem.1 hn
    have hlast := (h.ret_iff i _ (by simp [List.getElem?_append_left hi])).1 hret
    omega

/-- Straight-line code with a name is emitted: the body that its module prints has a line for each
    operation, under the name of its identifier, and ends with the return. -/
theorem exists_emit (h : r.IsStraightLine k) (hname : r.name ≠ "") (moduleName triple : String) :
    ∃ m body x, r.emit moduleName = .ok m ∧ read? (m.text triple) = some (body ++ [.ret x]) ∧
      List.Forall₂ Line.Computes (r.nodes.filter Node.isOperation) body := by
  obtain ⟨ns, ret, hnodes, hret, hop⟩ := h.exists_nodes_eq
  have hfits : FitFrom 0 (ns ++ [ret]) := by
    simpa [FitFrom, hnodes] using h.fits
  obtain ⟨σ, instrs, x, hok, hbody, hlines⟩ := Emission.IsReady.start.nodes hfits hop hret
  have hterminated : σ.terminated = true := by simp [Emission.terminated, hbody, Instr.dest?]
  refine ⟨_, instrs.map Line.ofInstr, .ofOperand x,
    emit_of_nodes hname (hnodes ▸ hok) hterminated moduleName, ?_, ?_⟩
  · rw [read?_module]
    simp [hbody, Line.ofInstr]
  · have hlast : [ret].filter Node.isOperation = [] := by simp [Node.isOperation, hret]
    rw [hnodes, List.filter_append, hlast, List.append_nil]
    exact hlines

end Routine.IsStraightLine

namespace Expr

open Ssa Ssa.Listing

/-- Lowering gives straight-line code with a node for each node of the tree but parentheses, and a
    return. Under a name that is not empty it is emitted, and the module prints a line for each
    operation of the tree, in the order of the nodes, with no number behind its name. -/
theorem exists_lower_isStraightLine (e : Expr) (h : e.isWhole = true) (name : String) :
    ∃ r, e.lower name = .ok r ∧ r.name = name ∧ r.IsStraightLine e.weight ∧
      (name ≠ "" → ∀ moduleName triple, ∃ m body x, r.emit moduleName = .ok m ∧
        read? (m.text triple) = some (body ++ [.ret x]) ∧
        List.Forall₂ Line.Computes (r.nodes.filter Node.isOperation) body ∧
        body.length = e.operations) := by
  have hshape := isStraightLine_code h name
  refine ⟨_, lower_eq h name, rfl, hshape, fun hname moduleName triple => ?_⟩
  obtain ⟨m, body, x, hemit, hread, hlines⟩ := hshape.exists_emit hname moduleName triple
  refine ⟨m, body, x, hemit, hread, hlines, ?_⟩
  rw [← hlines.length_eq, List.filter_append, List.length_append, length_filter_code]
  rfl

/-- The case of `-(1 - 2) * 1`, in which two leaves are alike. -/
theorem exists_lower_isStraightLine_negated :
    let one : Binary64 := ⟨0x3ff0000000000000⟩
    let e := binary .mul (negate (group (binary .sub (number one none)
      (number ⟨0x4000000000000000⟩ none) none) none) none) (number one none) none
    e.isWhole = true ∧ e.weight = 6 ∧ e.operations = 3 ∧
      ∃ r, e.lower "f" = .ok r ∧ r.name = "f" ∧ r.IsStraightLine e.weight ∧
        ∃ m body x, r.emit "calcjit" = .ok m ∧
          read? (m.text "") = some (body ++ [.ret x]) ∧
          List.Forall₂ Line.Computes (r.nodes.filter Node.isOperation) body ∧
          body.length = e.operations := by
  intro one e
  obtain ⟨r, hlower, hname, hshape, hemit⟩ := exists_lower_isStraightLine e (by decide) "f"
  exact ⟨by decide, by decide, by decide, r, hlower, hname, hshape, hemit (by decide) "calcjit" ""⟩

end Expr

end ArithJit
