import Mathlib.Data.List.Induction
import Mathlib.Data.Nat.Find
import ArithJit.Proofs.Code.StraightLine

/-!
# Which routines have a module, and why others have none

A node can be emitted if each operand that its operation takes is given and is the identifier of an
earlier node that has a value, and if it is not a second return. These are conditions on the list of
nodes alone: identifiers may repeat, and operands beyond those that are taken do not matter. Where
there is a limit to the integers that are written, the identifier of an operation must also be
within it, for it stands in the name of a register; without a limit it always is.

`Fault` says which error a node has that breaks a condition. The operands are looked at from left to
right, each for being given and then for being defined, and after them the name or the return. An
operand that is not defined is reported by its identifier, so that has to be written as well.

`Emission.Tracks` ties an emission to the nodes that it went through: its table has an entry for the
identifiers that they define, and it has a return if they do. One step keeps this or reports the
fault, so a run over all nodes ends with the first fault in the list, if there is one.
-/

namespace ArithJit

open Ssa (exceeded?)

/-- One of the nodes has the identifier and is not a return, which defines nothing. -/
def Defines (past : List Node) (id : Int) : Prop := ∃ m ∈ past, m.id = id ∧ m.op ≠ .ret

namespace Node

/-- An operand of a node is given, and is defined by earlier nodes. -/
def HasOperand (n : Node) (past : List Node) (i : Nat) : Prop :=
  ∃ id, n.inputs[i]? = some id ∧ Defines past id

/-- A node that can stand after others. -/
structure IsSound (limit : Option Nat) (n : Node) (past : List Node) : Prop where
  operands : ∀ i < n.op.arity, n.HasOperand past i
  writable : n.isOperation = true → exceeded? limit n.id = none
  first : n.op = .ret → ∀ m ∈ past, m.op ≠ .ret

/-- The first condition that a node breaks after others, as an error. -/
inductive Fault (limit : Option Nat) (n : Node) (past : List Node) : Ssa.EmitError → Prop
  | missing {i : Nat} (taken : i < n.op.arity) (before : ∀ j < i, n.HasOperand past j)
      (absent : n.inputs[i]? = none) : Fault limit n past .missingInput
  | undefined {i : Nat} {id : Int} (taken : i < n.op.arity) (before : ∀ j < i, n.HasOperand past j)
      (given : n.inputs[i]? = some id) (unknown : ¬Defines past id)
      (short : exceeded? limit id = none) : Fault limit n past (.undefinedInput id)
  | unreportable {i most : Nat} {id : Int} (taken : i < n.op.arity)
      (before : ∀ j < i, n.HasOperand past j) (given : n.inputs[i]? = some id)
      (unknown : ¬Defines past id) (long : exceeded? limit id = some most) :
      Fault limit n past (.longInteger most)
  | unnameable {most : Nat} (operation : n.isOperation = true)
      (operands : ∀ i < n.op.arity, n.HasOperand past i)
      (long : exceeded? limit n.id = some most) : Fault limit n past (.longInteger most)
  | secondReturn {m : Node} (ret : n.op = .ret) (operands : ∀ i < n.op.arity, n.HasOperand past i)
      (mem : m ∈ past) (earlier : m.op = .ret) : Fault limit n past .secondReturn

theorem isSound_or_fault (limit : Option Nat) (n : Node) (past : List Node) :
    n.IsSound limit past ∨ ∃ error, n.Fault limit past error := by
  classical
  by_cases hoperands : ∀ i < n.op.arity, n.HasOperand past i
  · by_cases hfirst : n.op = .ret → ∀ m ∈ past, m.op ≠ .ret
    · by_cases hoperation : n.isOperation = true
      · cases hlong : exceeded? limit n.id with
        | none => exact .inl ⟨hoperands, fun _ => hlong, hfirst⟩
        | some most => exact .inr ⟨_, .unnameable hoperation hoperands hlong⟩
      · exact .inl ⟨hoperands, fun h => absurd h hoperation, hfirst⟩
    · simp only [not_forall, not_not] at hfirst
      obtain ⟨hret, m, hm, hop⟩ := hfirst
      exact .inr ⟨_, .secondReturn hret hoperands hm hop⟩
  · -- Of the operands that are missing or not defined the leftmost counts.
    simp only [not_forall] at hoperands
    have hbad : ∃ i, i < n.op.arity ∧ ¬n.HasOperand past i := by simpa using hoperands
    obtain ⟨htaken, hnot⟩ := Nat.find_spec hbad
    have hbefore : ∀ j < Nat.find hbad, n.HasOperand past j := by
      intro j hj
      have hmin := Nat.find_min hbad hj
      by_contra hj'
      exact hmin ⟨Nat.lt_trans hj htaken, hj'⟩
    cases hinput : n.inputs[Nat.find hbad]? with
    | none => exact .inr ⟨_, .missing htaken hbefore hinput⟩
    | some id =>
      have hunknown : ¬Defines past id := fun hdefines => hnot ⟨id, hinput, hdefines⟩
      cases hlong : exceeded? limit id with
      | none => exact .inr ⟨_, .undefined htaken hbefore hinput hunknown hlong⟩
      | some most => exact .inr ⟨_, .unreportable htaken hbefore hinput hunknown hlong⟩

end Node

/-- Every node can stand after the given ones and those before it. -/
def SoundAfter (limit : Option Nat) (past ns : List Node) : Prop :=
  ∀ before n after, ns = before ++ n :: after → n.IsSound limit (past ++ before)

section SoundAfter

variable {limit : Option Nat} {past ns : List Node} {n : Node}

theorem soundAfter_nil (past : List Node) : SoundAfter limit past [] := by
  intro before n after h
  simp at h

theorem soundAfter_cons :
    SoundAfter limit past (n :: ns) ↔ n.IsSound limit past ∧ SoundAfter limit (past ++ [n]) ns := by
  constructor
  · intro h
    refine ⟨by simpa using h [] n ns rfl, ?_⟩
    intro before m after hns
    have hm := h (n :: before) m after (by rw [hns, List.cons_append])
    rwa [List.append_assoc, List.singleton_append]
  · rintro ⟨hn, hns⟩ before m after heq
    cases before with
    | nil =>
      simp only [List.nil_append, List.cons.injEq] at heq
      rw [← heq.1, List.append_nil]
      exact hn
    | cons k before =>
      simp only [List.cons_append, List.cons.injEq] at heq
      have hm := hns before m after heq.2
      rwa [heq.1, List.append_assoc, List.singleton_append] at hm

/-- Unless every node can stand where it does, there is a first that cannot. -/
theorem soundAfter_or_fault (limit : Option Nat) (past ns : List Node) :
    SoundAfter limit past ns ∨ ∃ before n after error, ns = before ++ n :: after ∧
      SoundAfter limit past before ∧ n.Fault limit (past ++ before) error := by
  induction ns generalizing past with
  | nil => exact .inl (soundAfter_nil past)
  | cons n ns ih =>
    rcases n.isSound_or_fault limit past with hn | ⟨error, hfault⟩
    · rcases ih (past ++ [n]) with hns | ⟨before, m, after, error, rfl, hbefore, hfault⟩
      · exact .inl (soundAfter_cons.2 ⟨hn, hns⟩)
      · refine .inr ⟨n :: before, m, after, error, rfl, soundAfter_cons.2 ⟨hn, hbefore⟩, ?_⟩
        rwa [List.append_assoc, List.singleton_append] at hfault
    · refine .inr ⟨[], n, ns, error, rfl, soundAfter_nil past, ?_⟩
      rwa [List.append_nil]

/-- No return follows another exactly if there is at most one. -/
theorem countP_ret_le_one_iff :
    ns.countP (fun n => n.op = .ret) ≤ 1 ↔
      ∀ before n after, ns = before ++ n :: after → n.op = .ret → ∀ m ∈ before, m.op ≠ .ret := by
  constructor
  · rintro h before n after rfl hn m hm hret
    have hpos : 0 < before.countP (fun n => n.op = .ret) :=
      List.countP_pos_iff.2 ⟨m, hm, by simpa using hret⟩
    simp only [List.countP_append, List.countP_cons, hn, decide_true, if_true] at h
    omega
  · intro h
    induction ns using List.reverseRecOn with
    | nil => simp
    | append_singleton ns n ih =>
      have hle := ih fun before m after hns => h before m (after ++ [n]) (by simp [hns])
      rw [List.countP_append, List.countP_singleton]
      by_cases hn : n.op = .ret
      · -- The last node is a return, so none stands before it.
        have hnone : ns.countP (fun n => n.op = .ret) = 0 := by
          rw [List.countP_eq_zero]
          intro m hm
          simpa using h ns n [] rfl hn m hm
        simp [hnone, hn]
      · simpa [hn] using hle

end SoundAfter

/-- Nodes that all can stand where they do, with a return among them, are those whose operands are
    there, of which one is a return, and whose names can be written. -/
theorem soundAfter_nil_iff {limit : Option Nat} {ns : List Node} :
    (SoundAfter limit [] ns ∧ ∃ n ∈ ns, n.op = .ret) ↔
      (∀ before n after, ns = before ++ n :: after → ∀ i < n.op.arity, n.HasOperand before i) ∧
        ns.countP (fun n => n.op = .ret) = 1 ∧
        ∀ n ∈ ns, n.isOperation = true → exceeded? limit n.id = none := by
  have hcount : (∃ n ∈ ns, n.op = .ret) ↔ 0 < ns.countP (fun n => n.op = .ret) := by
    simp [List.countP_pos_iff]
  constructor
  · rintro ⟨hsound, hret⟩
    have hle := countP_ret_le_one_iff.2 fun before n after hns => (hsound before n after hns).first
    have hpos := hcount.1 hret
    refine ⟨fun before n after hns => (hsound before n after hns).operands, by omega, ?_⟩
    intro n hn
    obtain ⟨before, after, hns⟩ := List.append_of_mem hn
    exact (hsound before n after hns).writable
  · rintro ⟨hoperands, hone, hwritable⟩
    refine ⟨?_, hcount.2 (by omega)⟩
    intro before n after hns
    exact ⟨hoperands before n after hns, hwritable n (by simp [hns]),
      countP_ret_le_one_iff.1 (Nat.le_of_eq hone) before n after hns⟩

namespace Ssa.Emission

variable {σ σ' : Emission} {limit : Option Nat} {past ns : List Node} {n : Node}
  {error : EmitError}

/-- What an emission knows of the nodes that it went through. -/
structure Tracks (σ : Emission) (past : List Node) : Prop where
  defined : ∀ id, (∃ x, σ.values.lookup id = some x) ↔ Defines past id
  terminated : σ.terminated = true ↔ ∃ m ∈ past, m.op = .ret

/-! ## One node -/

/-- The first operand that cannot be found is the error of the node. -/
theorem node_of_operand_error {i : Nat} (htaken : i < n.op.arity)
    (hbefore : ∀ j < i, ∃ x, σ.operand n j limit = .ok x)
    (herror : σ.operand n i limit = .error error) : σ.node n limit = .error error := by
  unfold node
  cases hop : n.op with
  | const => simp [hop, Opcode.arity] at htaken
  | neg | ret =>
    obtain rfl : i = 0 := by simpa [hop, Opcode.arity] using htaken
    simp only [herror]
    rfl
  | arith op =>
    simp only [hop, Opcode.arity] at htaken
    by_cases hi : i = 0
    · subst hi
      simp only [herror]
      rfl
    · obtain rfl : i = 1 := by omega
      obtain ⟨x, hx⟩ := hbefore 0 Nat.one_pos
      simp only [hx, herror]
      rfl

namespace Tracks

theorem start : Tracks ⟨[], []⟩ [] where
  defined id := by simp [Defines]
  terminated := by simp [Emission.terminated]

theorem operand_of_hasOperand (h : σ.Tracks past) {i : Nat} (hi : n.HasOperand past i) :
    ∃ x, σ.operand n i limit = .ok x := by
  obtain ⟨id, hinput, hdefines⟩ := hi
  obtain ⟨x, hx⟩ := (h.defined id).2 hdefines
  exact ⟨x, by simp [operand, hinput, hx]⟩

theorem operand_of_not_defines (h : σ.Tracks past) {i : Nat} {id : Int}
    (hinput : n.inputs[i]? = some id) (hid : ¬Defines past id) :
    σ.operand n i limit = .error (.undefined limit id) := by
  cases hx : σ.values.lookup id with
  | none => simp [operand, hinput, hx]
  | some x => exact absurd ((h.defined id).1 ⟨x, hx⟩) hid

/-- A node with a value enters its identifier into the table. -/
theorem define (h : σ.Tracks past) (hop : n.op ≠ .ret) {x : Operand}
    (hvalues : σ'.values = (n.id, x) :: σ.values) (hterminated : σ'.terminated = σ.terminated) :
    σ'.Tracks (past ++ [n]) where
  defined id := by
    by_cases hid : id = n.id
    · subst hid
      exact iff_of_true ⟨x, by simp [hvalues]⟩ ⟨n, by simp, rfl, hop⟩
    · rw [hvalues, List.lookup_cons, beq_false_of_ne hid, h.defined id]
      simp [Defines, or_and_right, exists_or, Ne.symm hid]
  terminated := by
    rw [hterminated, h.terminated]
    simp [or_and_right, exists_or, hop]

/-- A node that can stand where it does is emitted. -/
theorem node_of_isSound (h : σ.Tracks past) (hn : n.IsSound limit past) :
    ∃ σ', σ.node n limit = .ok σ' ∧ σ'.Tracks (past ++ [n]) := by
  have hoperand (i : Nat) (hi : i < n.op.arity) : ∃ x, σ.operand n i limit = .ok x :=
    h.operand_of_hasOperand (hn.operands i hi)
  unfold Emission.node
  cases hop : n.op with
  | const => exact ⟨_, rfl, h.define (by simp [hop]) rfl rfl⟩
  | arith op =>
    obtain ⟨l, hl⟩ := hoperand 0 (by simp [hop, Opcode.arity])
    obtain ⟨r, hr⟩ := hoperand 1 (by simp [hop, Opcode.arity])
    have hshort := hn.writable (by simp [Node.isOperation, hop])
    refine ⟨_, by simp only [hl, hr, destination, hshort]; rfl, h.define (by simp [hop]) rfl ?_⟩
    simp [Emission.terminated, Instr.dest?]
  | neg =>
    obtain ⟨x, hx⟩ := hoperand 0 (by simp [hop, Opcode.arity])
    have hshort := hn.writable (by simp [Node.isOperation, hop])
    refine ⟨_, by simp only [hx, destination, hshort]; rfl, h.define (by simp [hop]) rfl ?_⟩
    simp [Emission.terminated, Instr.dest?]
  | ret =>
    obtain ⟨x, hx⟩ := hoperand 0 (by simp [hop, Opcode.arity])
    have hopen : σ.terminated = false := by
      rw [← Bool.not_eq_true, h.terminated]
      rintro ⟨m, hm, hret⟩
      exact hn.first hop m hm hret
    refine ⟨{ σ with body := .ret x :: σ.body }, by simp only [hx, hopen]; rfl, ?_, ?_⟩
    · intro id
      rw [h.defined id]
      simp [Defines, or_and_right, exists_or, hop]
    · refine iff_of_true ?_ ⟨n, by simp, hop⟩
      simp [Emission.terminated, Instr.dest?]

/-- An operation that has its operands fails if its name cannot be written. -/
theorem node_of_unnameable (h : σ.Tracks past) (hoperation : n.isOperation = true)
    (hoperands : ∀ i < n.op.arity, n.HasOperand past i) {most : Nat}
    (hlong : exceeded? limit n.id = some most) : σ.node n limit = .error (.longInteger most) := by
  have hoperand (i : Nat) (hi : i < n.op.arity) : ∃ x, σ.operand n i limit = .ok x :=
    h.operand_of_hasOperand (hoperands i hi)
  unfold Emission.node
  cases hop : n.op with
  | const | ret => simp [Node.isOperation, hop] at hoperation
  | arith op =>
    obtain ⟨l, hl⟩ := hoperand 0 (by simp [hop, Opcode.arity])
    obtain ⟨r, hr⟩ := hoperand 1 (by simp [hop, Opcode.arity])
    simp only [hl, hr, destination, hlong]
    rfl
  | neg =>
    obtain ⟨x, hx⟩ := hoperand 0 (by simp [hop, Opcode.arity])
    simp only [hx, destination, hlong]
    rfl

/-- The fault of a node is its error. -/
theorem node_of_fault (h : σ.Tracks past) (hn : n.Fault limit past error) :
    σ.node n limit = .error error := by
  cases hn with
  | missing taken before absent =>
    apply node_of_operand_error taken
    · exact fun j hj => h.operand_of_hasOperand (before j hj)
    · simp [operand, absent]
  | undefined taken before given unknown short =>
    apply node_of_operand_error taken
    · exact fun j hj => h.operand_of_hasOperand (before j hj)
    · rw [h.operand_of_not_defines given unknown, EmitError.undefined, short]
  | unreportable taken before given unknown long =>
    apply node_of_operand_error taken
    · exact fun j hj => h.operand_of_hasOperand (before j hj)
    · rw [h.operand_of_not_defines given unknown, EmitError.undefined, long]
  | unnameable operation operands long => exact h.node_of_unnameable operation operands long
  | @secondReturn m ret operands mem earlier =>
    have hoperand : ∃ x, σ.operand n 0 limit = .ok x :=
      h.operand_of_hasOperand (operands 0 (by simp [ret, Opcode.arity]))
    obtain ⟨x, hx⟩ := hoperand
    have hterminated : σ.terminated = true := h.terminated.2 ⟨m, mem, earlier⟩
    simp only [Emission.node, ret, hx, hterminated]
    rfl

/-! ## All nodes -/

theorem nodes_of_soundAfter (h : σ.Tracks past) (hns : SoundAfter limit past ns) :
    ∃ σ', σ.nodes ns limit = .ok σ' ∧ σ'.Tracks (past ++ ns) := by
  induction ns generalizing σ past with
  | nil => exact ⟨σ, rfl, by simpa using h⟩
  | cons n ns ih =>
    obtain ⟨hn, hns⟩ := soundAfter_cons.1 hns
    obtain ⟨τ, hnode, hτ⟩ := h.node_of_isSound hn
    obtain ⟨σ', hnodes, hσ'⟩ := ih hτ hns
    refine ⟨σ', nodes_cons_eq_ok_iff.2 ⟨τ, hnode, hnodes⟩, ?_⟩
    rwa [List.append_assoc, List.singleton_append] at hσ'

/-- The first fault in the list is the error of the list, whatever follows. -/
theorem nodes_of_fault (h : σ.Tracks past) {before : List Node}
    (hbefore : SoundAfter limit past before) (hn : n.Fault limit (past ++ before) error)
    (after : List Node) : σ.nodes (before ++ n :: after) limit = .error error := by
  induction before generalizing σ past with
  | nil =>
    have hnode := h.node_of_fault (by simpa using hn)
    simp only [List.nil_append, nodes, hnode]
    rfl
  | cons m before ih =>
    obtain ⟨hm, hbefore⟩ := soundAfter_cons.1 hbefore
    obtain ⟨τ, hnode, hτ⟩ := h.node_of_isSound hm
    have hrest := ih hτ hbefore (by rwa [List.append_assoc, List.singleton_append])
    simp only [List.cons_append, nodes, hnode]
    exact hrest

end Tracks

/-! ## The limit -/

/-- With a limit a result is the one without, or the error is that the limit is exceeded. -/
def SameOrExceeded {α : Type} (limit : Option Nat) (limited free : Except EmitError α) : Prop :=
  limited = free ∨ ∃ most, limit = some most ∧ limited = .error (.longInteger most)

theorem SameOrExceeded.bind {α β : Type} {limited free : Except EmitError α}
    {f g : α → Except EmitError β} (h : SameOrExceeded limit limited free)
    (hfg : ∀ a, SameOrExceeded limit (f a) (g a)) :
    SameOrExceeded limit (limited >>= f) (free >>= g) := by
  rcases h with rfl | ⟨most, hlimit, rfl⟩
  · cases limited with
    | error e => exact .inl rfl
    | ok a => exact hfg a
  · exact .inr ⟨most, hlimit, rfl⟩

theorem limit_of_exceeded? {k : Int} {most : Nat} (h : exceeded? limit k = some most) :
    limit = some most :=
  (Option.filter_eq_some_iff.1 h).1

theorem operand_sameOrExceeded (σ : Emission) (n : Node) (i : Nat) (limit : Option Nat) :
    SameOrExceeded limit (σ.operand n i limit) (σ.operand n i) := by
  unfold operand
  cases n.inputs[i]? with
  | none => exact .inl rfl
  | some id =>
    dsimp only
    cases σ.values.lookup id with
    | some x => exact .inl rfl
    | none =>
      cases hlong : exceeded? limit id with
      | none => exact .inl (by simp [EmitError.undefined, hlong])
      | some most =>
        exact .inr ⟨most, limit_of_exceeded? hlong, by simp [EmitError.undefined, hlong]⟩

theorem destination_sameOrExceeded (σ : Emission) (family : Family) (id : Int)
    (limit : Option Nat) :
    SameOrExceeded limit (σ.destination family id limit) (σ.destination family id) := by
  cases hlong : exceeded? limit id with
  | none => exact .inl (by simp [destination, hlong])
  | some most => exact .inr ⟨most, limit_of_exceeded? hlong, by simp [destination, hlong]⟩

theorem node_sameOrExceeded (σ : Emission) (n : Node) (limit : Option Nat) :
    SameOrExceeded limit (σ.node n limit) (σ.node n) := by
  unfold node
  cases n.op with
  | const => exact .inl rfl
  | arith op =>
    apply (operand_sameOrExceeded σ n 0 limit).bind
    intro l
    apply (operand_sameOrExceeded σ n 1 limit).bind
    intro r
    apply (destination_sameOrExceeded σ .op n.id limit).bind
    exact fun dest => .inl rfl
  | neg =>
    apply (operand_sameOrExceeded σ n 0 limit).bind
    intro x
    apply (destination_sameOrExceeded σ .neg n.id limit).bind
    exact fun dest => .inl rfl
  | ret =>
    apply (operand_sameOrExceeded σ n 0 limit).bind
    exact fun x => .inl rfl

theorem nodes_sameOrExceeded (σ : Emission) (ns : List Node) (limit : Option Nat) :
    SameOrExceeded limit (σ.nodes ns limit) (σ.nodes ns) := by
  induction ns generalizing σ with
  | nil => exact .inl rfl
  | cons n ns ih => exact (node_sameOrExceeded σ n limit).bind ih

end Ssa.Emission

namespace Routine

open Ssa

variable {r : Routine} {limit : Option Nat} {error : EmitError}

/-! ## Routines -/

theorem emit_of_soundAfter (hname : r.name ≠ "") (hsound : SoundAfter limit [] r.nodes)
    (moduleName : String) :
    if ∃ n ∈ r.nodes, n.op = .ret then ∃ m, r.emit moduleName limit = .ok m
    else r.emit moduleName limit = .error (.noReturn r.name) := by
  obtain ⟨σ, hnodes, htracks⟩ := Emission.Tracks.start.nodes_of_soundAfter hsound
  have hterminated := htracks.terminated
  rw [List.nil_append] at hterminated
  split
  · next hret => exact ⟨_, emit_of_nodes hname hnodes (hterminated.2 hret) moduleName⟩
  · next hret =>
    have hopen : σ.terminated = false := by
      rw [← Bool.not_eq_true, hterminated]
      exact hret
    simp [emit, hname, hnodes, hopen, bind, Except.bind]

theorem emit_of_fault {before after : List Node} {n : Node} (hname : r.name ≠ "")
    (hnodes : r.nodes = before ++ n :: after) (hbefore : SoundAfter limit [] before)
    (hfault : n.Fault limit before error) (moduleName : String) :
    r.emit moduleName limit = .error error := by
  have herror := Emission.Tracks.start.nodes_of_fault hbefore hfault after
  simp [emit, hname, hnodes, herror, bind, Except.bind]

theorem emit_sameOrExceeded (r : Routine) (moduleName : String) (limit : Option Nat) :
    Emission.SameOrExceeded limit (r.emit moduleName limit) (r.emit moduleName) := by
  unfold emit
  split
  · exact .inl rfl
  · apply (Emission.nodes_sameOrExceeded ⟨[], []⟩ r.nodes limit).bind
    exact fun σ => .inl rfl

theorem exists_emit_iff {moduleName : String} :
    (∃ m, r.emit moduleName limit = .ok m) ↔
      r.name ≠ "" ∧ SoundAfter limit [] r.nodes ∧ ∃ n ∈ r.nodes, n.op = .ret := by
  constructor
  · rintro ⟨m, hm⟩
    have hname : r.name ≠ "" := by
      intro hempty
      simp [emit, hempty] at hm
    rcases soundAfter_or_fault limit [] r.nodes with
      hsound | ⟨before, n, after, error, hnodes, hbefore, hfault⟩
    · refine ⟨hname, hsound, ?_⟩
      by_contra hret
      have hemit := emit_of_soundAfter hname hsound moduleName
      rw [if_neg hret, hm] at hemit
      simp at hemit
    · simp [emit_of_fault hname hnodes hbefore hfault] at hm
  · rintro ⟨hname, hsound, hret⟩
    have hemit := emit_of_soundAfter hname hsound moduleName
    rwa [if_pos hret] at hemit

theorem emit_eq_error_iff {moduleName : String} :
    r.emit moduleName limit = .error error ↔
      (r.name = "" ∧ error = .namelessFunction) ∨
      (r.name ≠ "" ∧ ∃ before n after, r.nodes = before ++ n :: after ∧
        SoundAfter limit [] before ∧ n.Fault limit before error) ∨
      (r.name ≠ "" ∧ SoundAfter limit [] r.nodes ∧ (∀ n ∈ r.nodes, n.op ≠ .ret) ∧
        error = .noReturn r.name) := by
  constructor
  · intro h
    by_cases hname : r.name = ""
    · refine .inl ⟨hname, ?_⟩
      simpa [emit, hname] using h.symm
    · rcases soundAfter_or_fault limit [] r.nodes with
        hsound | ⟨before, n, after, error', hnodes, hbefore, hfault⟩
      · have hemit := emit_of_soundAfter hname hsound moduleName
        split at hemit
        · simp [h] at hemit
        · next hret =>
          refine .inr (.inr ⟨hname, hsound, ?_, ?_⟩)
          · intro n hn hop
            exact hret ⟨n, hn, hop⟩
          · rw [h] at hemit
            exact Except.error.inj hemit
      · have hemit := emit_of_fault hname hnodes hbefore hfault moduleName
        rw [h] at hemit
        obtain rfl := Except.error.inj hemit
        exact .inr (.inl ⟨hname, before, n, after, hnodes, hbefore, hfault⟩)
  · rintro (⟨hname, rfl⟩ | ⟨hname, before, n, after, hnodes, hbefore, hfault⟩ |
      ⟨hname, hsound, hnone, rfl⟩)
    · simp [emit, hname]
    · exact emit_of_fault hname hnodes hbefore hfault moduleName
    · have hemit := emit_of_soundAfter hname hsound moduleName
      rwa [if_neg] at hemit
      rintro ⟨n, hn, hop⟩
      exact hnone n hn hop

/-- A routine has a module exactly if it has a name, every operand that its nodes take is given and
    is the identifier of an earlier node other than a return, it has one return, and the identifiers
    of its operations are within the limit to the integers that are written, if there is one. All
    that a limit adds is the error that it is exceeded. A routine without a name has no other error.
    One with a name has the error of the first node with a fault or, if no node has one, lacks a
    return. Operands that are not defined and a missing return are reported in a diagnostic, the
    former with their identifier; the other errors have none. -/
theorem emit_outcome (r : Routine) (moduleName : String) (limit : Option Nat) :
    ((∃ m, r.emit moduleName limit = .ok m) ↔ r.name ≠ "" ∧
      (∀ before n after, r.nodes = before ++ n :: after →
        ∀ i < n.op.arity, n.HasOperand before i) ∧
      r.nodes.countP (fun n => n.op = .ret) = 1 ∧
      ∀ n ∈ r.nodes, n.isOperation = true → exceeded? limit n.id = none) ∧
    (r.emit moduleName limit = r.emit moduleName ∨
      ∃ most, limit = some most ∧ r.emit moduleName limit = .error (.longInteger most)) ∧
    (∀ error, r.emit moduleName limit = .error error ↔
      (r.name = "" ∧ error = .namelessFunction) ∨
      (r.name ≠ "" ∧ ∃ before n after, r.nodes = before ++ n :: after ∧
        SoundAfter limit [] before ∧ n.Fault limit before error) ∨
      (r.name ≠ "" ∧ SoundAfter limit [] r.nodes ∧ (∀ n ∈ r.nodes, n.op ≠ .ret) ∧
        error = .noReturn r.name)) ∧
    ∀ error, r.emit moduleName limit = .error error →
      match error with
      | .undefinedInput id => ∃ d, error.diagnostic? = some d ∧ d.kind = .internalError ∧
          Json.member? "node_id" d.details = some (.int id)
      | .noReturn _ => ∃ d, error.diagnostic? = some d ∧ d.kind = .internalError ∧
          d.message = "IR function '" ++ r.name ++ "' does not end with a return"
      | .namelessFunction | .missingInput | .secondReturn | .longInteger _ =>
          error.diagnostic? = none := by
  refine ⟨?_, emit_sameOrExceeded r moduleName limit, fun error => emit_eq_error_iff, ?_⟩
  · rw [exists_emit_iff, soundAfter_nil_iff]
  · intro error herror
    cases error with
    | namelessFunction | missingInput | secondReturn | longInteger => rfl
    | undefinedInput id => exact ⟨_, rfl, rfl, by simp [Json.member?, Diagnostic.internalError]⟩
    | noReturn name =>
      obtain rfl : name = r.name := by
        rcases emit_eq_error_iff.1 herror with ⟨-, h⟩ | ⟨-, _, _, _, -, -, h⟩ | ⟨-, -, -, h⟩
        · simp at h
        · nomatch h
        · simpa using h
      exact ⟨_, rfl, rfl, rfl⟩

/-- A second return is looked at for its operand first. -/
example : Routine.emit ⟨"f", [⟨0, .const, [], none⟩, ⟨1, .ret, [0, 9], none⟩, ⟨1, .ret, [1], none⟩,
    ⟨2, .neg, [], none⟩]⟩ "m" = .error (.undefinedInput 1) := by
  decide

/-- Only what is written has to be short: constants may have any identifier. -/
example : Routine.emit ⟨"f", [⟨1000, .const, [], none⟩, ⟨999, .neg, [1000], none⟩,
    ⟨1000, .neg, [999], none⟩, ⟨0, .ret, [], none⟩]⟩ "m" (some 3) = .error (.longInteger 3) := by
  decide

end Routine

end ArithJit
