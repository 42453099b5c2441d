import ArithJit.Proofs.Code.Execution
import ArithJit.Ssa.Acceptance
import ArithJit.Ssa.Emission

/-!
# Emitted modules compute what their routines do

Emission keeps a table from identifiers to operands, while carrying out nodes keeps a store from
identifiers to values. `Agrees` joins them: each operand of the table has, in the registers written
so far, the value that the store has. A new register never shadows one that the table still names,
because registers of one family and identifier are counted.

`Routine.run_eq_execute` is the result for every routine that has a module, and `emit_eq_ok` says
that whatever can be carried out up to its only return has one. `Agrees.exists_return` goes the other
way: a routine that has a module, and in which no operation follows a return, is carried out to its
return, which is the last instruction.
-/

namespace ArithJit.Ssa

/-- How many instructions write registers of a family and an identifier. -/
def Emission.copies (σ : Emission) (family : Family) (id : Int) : Nat :=
  σ.body.countP fun i => i.dest?.any fun r => r.family = family && r.id = id

/-- The table of an emission and the registers stand for a store. -/
structure Agrees (σ : Emission) (regs : Registers) (s : Store) : Prop where
  undefined : ∀ id, σ.values.lookup id = none → s.lookup id = none
  defined : ∀ id x, σ.values.lookup id = some x →
    ∃ v, x.value? regs = some v ∧ s.lookup id = some v
  written : ∀ id r, σ.values.lookup id = some (.register r) → r.copy < σ.copies r.family r.id

namespace Agrees

variable {σ σ' : Emission} {regs : Registers} {s : Store} {n : Node} {v x : Binary64}

theorem start : Agrees ⟨[], []⟩ [] [] where
  undefined _ _ := rfl
  defined id x h := by simp at h
  written id r h := by simp at h

theorem operand_of_some (h : Agrees σ regs s) {index : Nat} (hv : n.input? s index = some v) :
    ∃ x, σ.operand n index = .ok x ∧ x.value? regs = some v := by
  obtain ⟨id, hid, hlookup⟩ := Option.bind_eq_some_iff.1 hv
  cases hx : σ.values.lookup id with
  | none => simp [h.undefined id hx] at hlookup
  | some x =>
    obtain ⟨w, hw, hstore⟩ := h.defined id x hx
    obtain rfl : w = v := by simpa [hstore] using hlookup
    exact ⟨x, by simp [Emission.operand, hid, hx], hw⟩

theorem operand_of_none (h : Agrees σ regs s) {index : Nat} (hv : n.input? s index = none) :
    ∃ e, σ.operand n index = .error e := by
  cases hid : n.inputs[index]? with
  | none => exact ⟨.missingInput, by simp [Emission.operand, hid]⟩
  | some id =>
    cases hx : σ.values.lookup id with
    | none => exact ⟨.undefinedInput id, by simp [Emission.operand, hid, hx]⟩
    | some x =>
      obtain ⟨w, -, hstore⟩ := h.defined id x hx
      simp [Node.input?, hid, hstore] at hv

/-- A new entry of the table stands for a new entry of the store, if the operands that the table
    had keep their values and no register is counted less. -/
theorem extend (h : Agrees σ regs s) {regs' : Registers} {id : Int} {x : Operand} {v : Binary64}
    (htable : σ'.values = (id, x) :: σ.values) (hv : x.value? regs' = some v)
    (hkept : ∀ id' y w, σ.values.lookup id' = some y → y.value? regs = some w →
      y.value? regs' = some w)
    (hcount : ∀ r : Register, σ.copies r.family r.id ≤ σ'.copies r.family r.id)
    (hx : ∀ r, x = .register r → r.copy < σ'.copies r.family r.id) :
    Agrees σ' regs' ((id, v) :: s) := by
  refine ⟨?_, ?_, ?_⟩
  · intro id' hid
    rw [htable] at hid
    by_cases heq : id' = id
    · simp [heq] at hid
    · simp only [List.lookup_cons, beq_false_of_ne heq] at hid ⊢
      exact h.undefined id' hid
  · intro id' y hy
    rw [htable] at hy
    by_cases heq : id' = id
    · subst heq
      obtain rfl : x = y := by simpa using hy
      exact ⟨v, hv, by simp⟩
    · simp only [List.lookup_cons, beq_false_of_ne heq] at hy ⊢
      obtain ⟨w, hw, hstore⟩ := h.defined id' y hy
      exact ⟨w, hkept id' y w hy hw, hstore⟩
  · intro id' r hr
    rw [htable] at hr
    by_cases heq : id' = id
    · subst heq
      exact hx r (by simpa using hr)
    · simp only [List.lookup_cons, beq_false_of_ne heq] at hr
      exact Nat.lt_of_lt_of_le (h.written id' r hr) (hcount r)

theorem const (h : Agrees σ regs s) (id : Int) (value : Option Binary64) :
    Agrees { σ with values := (id, .const value) :: σ.values } regs
      ((id, value.getD (.zero false)) :: s) := by
  apply h.extend rfl
  · cases value <;> simp [Operand.value?]
  · exact fun _ _ _ _ hw => hw
  · exact fun _ => Nat.le_refl _
  · simp

theorem ne_fresh {r : Register} (family : Family) (id : Int)
    (h : r.copy < σ.copies r.family r.id) : r ≠ σ.fresh family id := by
  rintro rfl
  exact Nat.lt_irrefl _ h

/-- A fresh register stands for what is written to it, and all others keep their values. -/
theorem define (h : Agrees σ regs s) {family : Family} {id : Int} {i : Instr}
    (hi : i.dest? = some (σ.fresh family id)) (v : Binary64) :
    Agrees ⟨(id, .register (σ.fresh family id)) :: σ.values, i :: σ.body⟩
      ((σ.fresh family id, v) :: regs) ((id, v) :: s) := by
  apply h.extend rfl
  · simp [Operand.value?]
  · intro id' y w hy hw
    cases y with
    | const value => cases value <;> exact hw
    | register r =>
      have hne := ne_fresh family id (h.written id' r hy)
      simpa [Operand.value?, List.lookup_cons, beq_false_of_ne hne] using hw
  · intro r
    simp only [Emission.copies, List.countP_cons]
    omega
  · rintro r hr
    obtain rfl := Operand.register.inj hr
    simp only [Emission.copies, List.countP_cons, hi, Emission.fresh, Option.any_some,
      decide_true, Bool.and_self, if_true]
    exact Nat.lt_succ_self _

/-- A node that can be carried out is emitted as at most one instruction, which computes the same
    value. -/
theorem node_of_compute (h : Agrees σ regs s) (hop : n.op ≠ .ret) (hx : n.compute? s = some x) :
    ∃ σ' instrs regs', σ.node n = .ok σ' ∧ σ'.body = instrs.reverse ++ σ.body ∧
      (∀ i ∈ instrs, i.dest?.isSome = true) ∧
      (∀ rest, runFrom regs (instrs ++ rest) = runFrom regs' rest) ∧
      Agrees σ' regs' ((n.id, x) :: s) := by
  unfold Node.compute? at hx
  unfold Emission.node
  cases hcase : n.op with
  | const =>
    simp only [hcase, Option.some.injEq] at hx
    subst hx
    exact ⟨_, [], regs, rfl, rfl, by simp, fun _ => rfl, h.const n.id n.value⟩
  | arith op =>
    simp only [hcase] at hx
    obtain ⟨l, hl, hx⟩ := Option.bind_eq_some_iff.1 hx
    obtain ⟨r, hr, hx⟩ := Option.bind_eq_some_iff.1 hx
    obtain rfl : op.apply l r = x := by simpa using hx
    obtain ⟨left, hleft, hlv⟩ := h.operand_of_some hl
    obtain ⟨right, hright, hrv⟩ := h.operand_of_some hr
    let i : Instr := .arith (σ.fresh .op n.id) op left right
    refine ⟨_, [i], _, ?_, rfl, by simp [i, Instr.dest?], fun rest => ?_,
      h.define (i := i) rfl (op.apply l r)⟩
    · simp only [hleft, hright]
      rfl
    · simp [i, runFrom, hlv, hrv]
  | neg =>
    simp only [hcase] at hx
    obtain ⟨y, hy, rfl⟩ := Option.map_eq_some_iff.1 hx
    obtain ⟨operand, hoperand, hyv⟩ := h.operand_of_some hy
    let i : Instr := .negate (σ.fresh .neg n.id) operand
    refine ⟨_, [i], _, ?_, rfl, by simp [i, Instr.dest?], fun rest => ?_,
      h.define (i := i) rfl y.neg⟩
    · simp only [hoperand]
      rfl
    · simp [i, runFrom, hyv]
  | ret => exact absurd hcase hop

/-- A node that cannot be carried out is refused. -/
theorem node_of_stuck (h : Agrees σ regs s) (hx : n.compute? s = none) :
    ∃ e, σ.node n = .error e := by
  unfold Node.compute? at hx
  unfold Emission.node
  cases hcase : n.op with
  | const => simp [hcase] at hx
  | arith op =>
    simp only [hcase] at hx ⊢
    cases hl : n.input? s 0 with
    | none =>
      obtain ⟨e, he⟩ := h.operand_of_none hl
      exact ⟨e, by simp only [he]; rfl⟩
    | some l =>
      obtain ⟨left, hleft, -⟩ := h.operand_of_some hl
      cases hr : n.input? s 1 with
      | none =>
        obtain ⟨e, he⟩ := h.operand_of_none hr
        exact ⟨e, by simp only [hleft, he]; rfl⟩
      | some r => simp [hl, hr] at hx
  | neg =>
    simp only [hcase] at hx ⊢
    obtain ⟨e, he⟩ := h.operand_of_none (Option.map_eq_none_iff.1 hx)
    exact ⟨e, by simp only [he]; rfl⟩
  | ret =>
    simp only [hcase] at hx ⊢
    obtain ⟨e, he⟩ := h.operand_of_none hx
    exact ⟨e, by simp only [he]; rfl⟩

/-- A return that can be carried out is emitted, unless there was one before. -/
theorem node_of_return (h : Agrees σ regs s) (hop : n.op = .ret) (hx : n.compute? s = some v) :
    ∃ x, x.value? regs = some v ∧ σ.node n =
      if σ.terminated then .error .secondReturn else .ok { σ with body := .ret x :: σ.body } := by
  simp only [Node.compute?, hop] at hx
  obtain ⟨x, hoperand, hxv⟩ := h.operand_of_some hx
  refine ⟨x, hxv, ?_⟩
  simp only [Emission.node, hop, hoperand]
  rfl

end Agrees

namespace Emission

variable {σ σ' : Emission} {n : Node} {ns : List Node} {limit : Option Nat}

theorem exists_of_bind_eq_ok {α β : Type} {x : Except EmitError α} {f : α → Except EmitError β}
    {b : β} (h : x >>= f = .ok b) : ∃ a, x = .ok a ∧ f a = .ok b := by
  cases x with
  | error e => simp [bind, Except.bind] at h
  | ok a => exact ⟨a, rfl, h⟩

theorem nodes_cons_eq_ok_iff :
    σ.nodes (n :: ns) limit = .ok σ' ↔
      ∃ τ, σ.node n limit = .ok τ ∧ τ.nodes ns limit = .ok σ' := by
  cases hnode : σ.node n limit with
  | error e => simp [nodes, hnode, bind, Except.bind]
  | ok τ => simp [nodes, hnode, bind, Except.bind]

/-- What a node adds to the body: nothing if it is a constant, an instruction that writes a fresh
    register if it is an operation, and a return if it is the first return. -/
theorem body_of_node (h : σ.node n = .ok σ') :
    (n.op = .const ∧ σ'.body = σ.body) ∨
    (n.op ≠ .const ∧ n.op ≠ .ret ∧
      ∃ i family, i.dest? = some (σ.fresh family n.id) ∧ σ'.body = i :: σ.body) ∨
    (n.op = .ret ∧ σ.terminated = false ∧ ∃ x, σ'.body = .ret x :: σ.body) := by
  unfold node at h
  split at h
  · next hop =>
    obtain rfl := Except.ok.inj h
    exact .inl ⟨hop, rfl⟩
  · next op hop =>
    obtain ⟨l, -, h⟩ := exists_of_bind_eq_ok h
    obtain ⟨r, -, h⟩ := exists_of_bind_eq_ok h
    obtain rfl := Except.ok.inj h
    exact .inr (.inl ⟨by simp [hop], by simp [hop],
      .arith (σ.fresh .op n.id) op l r, .op, rfl, rfl⟩)
  · next hop =>
    obtain ⟨x, -, h⟩ := exists_of_bind_eq_ok h
    obtain rfl := Except.ok.inj h
    exact .inr (.inl ⟨by simp [hop], by simp [hop], .negate (σ.fresh .neg n.id) x, .neg, rfl, rfl⟩)
  · next hop =>
    obtain ⟨x, -, h⟩ := exists_of_bind_eq_ok h
    split at h
    · simp at h
    · next hterminated =>
      obtain rfl := Except.ok.inj h
      exact .inr (.inr ⟨hop, by simpa using hterminated, x, rfl⟩)

/-- A node adds instructions and takes none away. -/
theorem body_suffix_of_node (h : σ.node n = .ok σ') : σ.body <:+ σ'.body := by
  rcases body_of_node h with ⟨-, hbody⟩ | ⟨-, -, i, family, -, hbody⟩ | ⟨-, -, x, hbody⟩
  · exact hbody ▸ List.suffix_rfl
  · rw [hbody]
    exact List.suffix_cons _ _
  · rw [hbody]
    exact List.suffix_cons _ _

theorem body_suffix_of_nodes (h : σ.nodes ns = .ok σ') : σ.body <:+ σ'.body := by
  induction ns generalizing σ with
  | nil =>
    obtain rfl := Except.ok.inj h
    exact List.suffix_rfl
  | cons n ns ih =>
    obtain ⟨τ, hnode, hnodes⟩ := nodes_cons_eq_ok_iff.1 h
    exact (body_suffix_of_node hnode).trans (ih hnodes)

theorem terminated_of_body {is : List Instr} (hbody : σ'.body = is.reverse ++ σ.body)
    (his : ∀ i ∈ is, i.dest?.isSome = true) : σ'.terminated = σ.terminated := by
  have hnone : is.reverse.any (·.dest?.isNone) = false := by
    simpa [Option.isSome_iff_ne_none] using his
  simp only [terminated, hbody, List.any_append, hnone, Bool.false_or]

/-- After a return only constants can come, and they add nothing. -/
theorem body_of_nodes (hσ : σ.terminated = true) (hns : ∀ n ∈ ns, n.op = .const ∨ n.op = .ret)
    (h : σ.nodes ns = .ok σ') : σ'.body = σ.body := by
  induction ns generalizing σ with
  | nil =>
    obtain rfl := Except.ok.inj h
    rfl
  | cons n ns ih =>
    obtain ⟨τ, hnode, hnodes⟩ := nodes_cons_eq_ok_iff.1 h
    rcases body_of_node hnode with ⟨-, hbody⟩ | ⟨hconst, hret, -⟩ | ⟨-, hnot, -⟩
    · have hτ : τ.terminated = true := by rw [terminated, hbody, ← terminated, hσ]
      rw [ih hτ (fun n hn => hns n (List.mem_cons_of_mem _ hn)) hnodes, hbody]
    · rcases hns n (by simp) with hop | hop
      · exact absurd hop hconst
      · exact absurd hop hret
    · simp [hσ] at hnot

end Emission

/-- No operation follows a return. -/
def EndsAtReturn (ns : List Node) : Prop :=
  ns.Pairwise fun n later => n.op = .ret → later.op = .const ∨ later.op = .ret

instance (ns : List Node) : Decidable (EndsAtReturn ns) := List.instDecidablePairwise ns

namespace Agrees

variable {σ σ' : Emission} {regs : Registers} {s : Store} {ns : List Node} {v : Binary64}

/-- The instructions that nodes add compute what the nodes do. -/
theorem runFrom_eq (h : Agrees σ regs s) (hok : σ.nodes ns = .ok σ') :
    ∃ instrs, σ'.body = instrs.reverse ++ σ.body ∧ runFrom regs instrs = executeFrom s ns := by
  induction ns generalizing σ regs s with
  | nil =>
    simp only [Emission.nodes, Except.ok.injEq] at hok
    exact ⟨[], by simp [hok], rfl⟩
  | cons n ns ih =>
    obtain ⟨τ, hnode, hnodes⟩ := Emission.nodes_cons_eq_ok_iff.1 hok
    cases hx : n.compute? s with
    | none =>
      obtain ⟨e, he⟩ := h.node_of_stuck hx
      simp [he] at hnode
    | some x =>
      by_cases hop : n.op = .ret
      · -- Both sides end here; what is emitted after the return is never carried out.
        obtain ⟨operand, hvalue, hret⟩ := h.node_of_return hop hx
        rw [hnode] at hret
        split at hret
        · simp at hret
        · obtain rfl := Except.ok.inj hret
          obtain ⟨more, hmore⟩ := Emission.body_suffix_of_nodes hnodes
          refine ⟨.ret operand :: more.reverse, by simp [← hmore], ?_⟩
          rw [executeFrom_return hop, hx]
          exact hvalue
      · obtain ⟨τ', instrs, regs', hnode', hbody, -, hrun, hagrees⟩ := h.node_of_compute hop hx
        obtain rfl : τ' = τ := by simpa [hnode'] using hnode
        obtain ⟨more, hmore, hrun'⟩ := ih hagrees hnodes
        refine ⟨instrs ++ more, by simp [hmore, hbody], ?_⟩
        rw [hrun, hrun', executeFrom_cons hx hop]

/-- Nodes that can be carried out up to a return, the only one, are emitted. -/
theorem nodes_eq_ok (h : Agrees σ regs s) (hσ : σ.terminated = false) {ret : Node}
    (hns : ∀ n ∈ ns, n.op ≠ .ret) (hret : ret.op = .ret)
    (hv : executeFrom s (ns ++ [ret]) = some v) :
    ∃ (σ' : Emission) (instrs : List Instr) (x : Operand), σ.nodes (ns ++ [ret]) = .ok σ' ∧
      σ'.body = .ret x :: (instrs.reverse ++ σ.body) ∧ ∀ i ∈ instrs, i.dest?.isSome = true := by
  induction ns generalizing σ regs s with
  | nil =>
    rw [List.nil_append, executeFrom_return hret] at hv
    obtain ⟨x, -, hnode⟩ := h.node_of_return hret hv
    refine ⟨{ σ with body := .ret x :: σ.body }, [], x, ?_, rfl, by simp⟩
    exact Emission.nodes_cons_eq_ok_iff.2 ⟨_, by simp [hnode, hσ], rfl⟩
  | cons n ns ih =>
    have hop := hns n (by simp)
    cases hx : n.compute? s with
    | none => simp [executeFrom, hx] at hv
    | some x =>
      obtain ⟨τ, instrs, regs', hnode, hbody, hdest, -, hagrees⟩ := h.node_of_compute hop hx
      have hτ : τ.terminated = false := (Emission.terminated_of_body hbody hdest).trans hσ
      rw [List.cons_append, executeFrom_cons hx hop] at hv
      obtain ⟨σ', more, y, hnodes, hbody', hdest'⟩ :=
        ih hagrees hτ (fun n hn => hns n (List.mem_cons_of_mem _ hn)) hv
      refine ⟨σ', instrs ++ more, y, Emission.nodes_cons_eq_ok_iff.2 ⟨τ, hnode, hnodes⟩,
        by simp [hbody', hbody], ?_⟩
      intro i hi
      rcases List.mem_append.1 hi with hi | hi
      · exact hdest i hi
      · exact hdest' i hi

/-- Nodes that are emitted with a return, which no operation follows, are carried out to it, and
    their instructions end with it. -/
theorem exists_return (h : Agrees σ regs s) (hσ : σ.terminated = false)
    (hok : σ.nodes ns = .ok σ') (hσ' : σ'.terminated = true) (hends : EndsAtReturn ns) :
    ∃ (is : List Instr) (x : Operand) (v : Binary64), σ'.body = .ret x :: (is.reverse ++ σ.body) ∧
      (∀ i ∈ is, i.dest?.isSome = true) ∧ executeFrom s ns = some v := by
  induction ns generalizing σ regs s with
  | nil =>
    obtain rfl := Except.ok.inj hok
    simp [hσ] at hσ'
  | cons n ns ih =>
    obtain ⟨hlater, hends⟩ := List.pairwise_cons.1 hends
    obtain ⟨τ, hnode, hnodes⟩ := Emission.nodes_cons_eq_ok_iff.1 hok
    cases hx : n.compute? s with
    | none =>
      obtain ⟨e, he⟩ := h.node_of_stuck hx
      simp [he] at hnode
    | some v =>
      by_cases hop : n.op = .ret
      · obtain ⟨x, -, hret⟩ := h.node_of_return hop hx
        obtain rfl : { σ with body := .ret x :: σ.body } = τ := by
          simpa [hσ, hnode] using hret.symm
        have hbody := Emission.body_of_nodes rfl (fun m hm => hlater m hm hop) hnodes
        exact ⟨[], x, v, hbody, by simp, by rw [executeFrom_return hop, hx]⟩
      · obtain ⟨τ', is, regs', hnode', hbody, his, -, hagrees⟩ := h.node_of_compute hop hx
        obtain rfl : τ' = τ := by simpa [hnode'] using hnode
        have hτ : τ'.terminated = false := (Emission.terminated_of_body hbody his).trans hσ
        obtain ⟨more, x, w, hmore, hdests, hexecute⟩ := ih hagrees hτ hnodes hends
        refine ⟨is ++ more, x, w, by simp [hmore, hbody], ?_, ?_⟩
        · intro i hi
          rcases List.mem_append.1 hi with hi | hi
          · exact his i hi
          · exact hdests i hi
        · rw [executeFrom_cons hx hop, hexecute]

end Agrees

end ArithJit.Ssa

namespace ArithJit.Routine

open Ssa

variable {r : Routine} {moduleName : String} {limit : Option Nat} {m : Module} {v : Binary64}

/-- A module holds what the nodes of its routine were emitted as. -/
theorem exists_nodes_of_emit (h : r.emit moduleName limit = .ok m) :
    ∃ σ, Emission.nodes ⟨[], []⟩ r.nodes limit = .ok σ ∧ σ.terminated = true ∧
      m = ⟨moduleName, r.name, σ.body.reverse⟩ := by
  unfold emit at h
  split at h
  · simp at h
  · obtain ⟨σ, hnodes, h⟩ := Emission.exists_of_bind_eq_ok h
    split at h
    · next hterminated => exact ⟨σ, hnodes, hterminated, (Except.ok.inj h).symm⟩
    · simp at h

/-- A routine with a name whose nodes are emitted, a return among them, has a module. -/
theorem emit_of_nodes {σ : Emission} (hname : r.name ≠ "")
    (hok : Emission.nodes ⟨[], []⟩ r.nodes limit = .ok σ) (hterminated : σ.terminated = true)
    (moduleName : String) :
    r.emit moduleName limit = .ok ⟨moduleName, r.name, σ.body.reverse⟩ := by
  simp only [emit, hname, hok, hterminated, if_false, if_true, bind, Except.bind, pure, Except.pure]

/-- The module of a routine returns what the routine does. -/
theorem run_eq_execute (h : r.emit moduleName = .ok m) : m.run = r.execute := by
  obtain ⟨σ, hnodes, -, rfl⟩ := exists_nodes_of_emit h
  obtain ⟨instrs, hbody, hrun⟩ := Agrees.start.runFrom_eq hnodes
  have hinstrs : σ.body.reverse = instrs := by simp [hbody]
  simp only [Module.run, hinstrs, hrun, execute]

/-- A routine with a name that can be carried out to its only return, its last node, has a module,
    whose body ends with its only return. -/
theorem emit_eq_ok (hname : r.name ≠ "") (h : r.Returns v) (moduleName : String) :
    ∃ m, r.emit moduleName = .ok m ∧ m.name = moduleName ∧ m.entry = r.name ∧
      m.endsWithReturn = true := by
  obtain ⟨⟨ns, ret, hnodes, hret, hns⟩, hv⟩ := h
  rw [execute, hnodes] at hv
  obtain ⟨σ, instrs, x, hok, hbody, hdest⟩ := Agrees.start.nodes_eq_ok rfl hns hret hv
  have hterminated : σ.terminated = true := by simp [Emission.terminated, hbody, Instr.dest?]
  refine ⟨_, emit_of_nodes hname (hnodes ▸ hok) hterminated moduleName, rfl, rfl, ?_⟩
  simp only [Module.endsWithReturn, hbody, List.append_nil, List.reverse_cons,
    List.reverse_reverse, List.dropLast_concat, List.getLast?_concat, Option.any_some,
    Bool.and_eq_true, List.all_eq_true]
  exact ⟨rfl, hdest⟩

end ArithJit.Routine
