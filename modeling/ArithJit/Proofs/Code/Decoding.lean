import ArithJit.Proofs.Code.Lowering
import ArithJit.Proofs.Expr.Phrase

/-!
# Reading a tree back from its code

Nodes can be replayed over trees as they are carried out over doubles: each node puts its operation
on top of the trees that stand under the identifiers it reads, and the return gives the tree. What
comes out of the code of an expression is the expression without parentheses and places, for these
are all that lowering leaves out. So two expressions have the same nodes exactly if they differ in
nothing else.

`Replays` says what a stretch of code does inside any other code. As with values, the frame is what
matters: a right operand leaves alone whatever stands under the identifiers of the left one.
-/

namespace ArithJit

/-- The trees of nodes under their identifiers, the latest first. -/
abbrev Forest := List (Int × Expr)

namespace Node

/-- The tree that a node names in a given position. -/
def subtree? (n : Node) (s : Forest) (index : Nat) : Option Expr :=
  n.inputs[index]?.bind fun id => s.lookup id

/-- The tree of a node over the trees that it reads. A constant without a value writes none. -/
def tree? (n : Node) (s : Forest) : Option Expr :=
  match n.op with
  | .const => n.value.map fun x => .number x none
  | .arith op => do
      let l ← n.subtree? s 0
      let r ← n.subtree? s 1
      return .binary op l r none
  | .neg => (n.subtree? s 0).map fun e => .negate e none
  | .ret => n.subtree? s 0

end Node

/-- Replays nodes up to the first return. There is no tree if an input has none or no return is
    met. -/
def decodeFrom (s : Forest) : List Node → Option Expr
  | [] => none
  | n :: ns =>
      match n.tree? s with
      | none => none
      | some e => if n.op = .ret then some e else decodeFrom ((n.id, e) :: s) ns

/-- The tree that a routine returns the value of. -/
def Routine.decode? (r : Routine) : Option Expr := decodeFrom [] r.nodes

theorem decodeFrom_cons {n : Node} {s : Forest} {e : Expr} (he : n.tree? s = some e)
    (hop : n.op ≠ .ret) (ns : List Node) :
    decodeFrom s (n :: ns) = decodeFrom ((n.id, e) :: s) ns := by
  simp [decodeFrom, he, hop]

theorem decodeFrom_return {n : Node} {s : Forest} {e : Expr} (he : n.tree? s = some e)
    (hop : n.op = .ret) (ns : List Node) : decodeFrom s (n :: ns) = some e := by
  simp [decodeFrom, he, hop]

/-- Replaying nodes leads from a forest to another one, whatever nodes follow. What stands under the
    identifiers before the first of the nodes stays. -/
structure Replays (first : Nat) (ns : List Node) (s s' : Forest) : Prop where
  decodeFrom_append : ∀ rest, decodeFrom s (ns ++ rest) = decodeFrom s' rest
  lookup_eq : ∀ id : Int, id < first → s'.lookup id = s.lookup id

namespace Replays

variable {first second : Nat} {n : Node} {ns ms : List Node} {s s₁ s₂ : Forest} {e : Expr}

theorem nil (first : Nat) (s : Forest) : Replays first [] s s := ⟨fun _ => rfl, fun _ _ => rfl⟩

theorem append (h : Replays first ns s s₁) (h' : Replays second ms s₁ s₂) (hle : first ≤ second) :
    Replays first (ns ++ ms) s s₂ where
  decodeFrom_append rest := by
    rw [List.append_assoc, h.decodeFrom_append, h'.decodeFrom_append]
  lookup_eq id hid := by
    rw [h'.lookup_eq id (by omega), h.lookup_eq id hid]

theorem concat (h : Replays first ns s s₁) (he : n.tree? s₁ = some e) (hop : n.op ≠ .ret)
    (hid : first ≤ n.id) : Replays first (ns ++ [n]) s ((n.id, e) :: s₁) where
  decodeFrom_append rest := by
    rw [List.append_assoc, h.decodeFrom_append, List.singleton_append]
    exact decodeFrom_cons he hop rest
  lookup_eq id hlt := by
    have hne : id ≠ n.id := by omega
    rw [List.lookup_cons, beq_false_of_ne hne]
    exact h.lookup_eq id hlt

end Replays

namespace Expr

/-! ## What lowering leaves out -/

@[simp] theorem weight_skeleton (e : Expr) : e.skeleton.weight = e.weight := by
  induction e with
  | bare | number => rfl
  | negate e place ih => simp [skeleton, weight, ih]
  | group e place ih => exact ih
  | binary op l r place ihl ihr => simp [skeleton, weight, ihl, ihr]

@[simp] theorem root_skeleton (e : Expr) (n : Nat) : e.skeleton.root n = e.root n := by
  simp [root]

/-- Parentheses and places leave no mark in the code. -/
@[simp] theorem code_skeleton (e : Expr) (n : Nat) : e.skeleton.code n = e.code n := by
  induction e generalizing n with
  | bare | number => rfl
  | negate e place ih => simp [skeleton, code, ih]
  | group e place ih => exact ih n
  | binary op l r place ihl ihr => simp [skeleton, code, ihl, ihr]

@[simp] theorem returnNode_skeleton (e : Expr) : e.skeleton.returnNode = e.returnNode := by
  simp [returnNode]

/-- So trees that differ in nothing else are lowered to the same routine. -/
theorem lower_of_skeleton_eq {e₁ e₂ : Expr} (h₁ : e₁.isWhole = true) (h₂ : e₂.isWhole = true)
    (h : e₁.skeleton = e₂.skeleton) (name : String) : e₁.lower name = e₂.lower name := by
  rw [lower_eq h₁, lower_eq h₂, ← e₁.code_skeleton, ← e₁.returnNode_skeleton, h, code_skeleton,
    returnNode_skeleton]

/-! ## What lowering keeps -/

/-- The code of an expression puts its skeleton under its last identifier. -/
theorem exists_replays_code {e : Expr} (h : e.isWhole = true) (n : Nat) (s : Forest) :
    ∃ s', Replays n (e.code n) s s' ∧ s'.lookup (e.root n) = some e.skeleton := by
  induction e generalizing n s with
  | bare => simp [isWhole] at h
  | number x place =>
    exact ⟨_, (Replays.nil n s).concat rfl (by simp) (Int.le_refl _), by simp [skeleton]⟩
  | group e place ih => exact ih h n s
  | negate e place ih =>
    obtain ⟨s₁, hcode, hroot⟩ := ih h n s
    refine ⟨_, hcode.concat (e := .negate e.skeleton none) ?_ (by simp) ?_, by simp [skeleton]⟩
    · simp [Node.tree?, Node.subtree?, hroot]
    · show (n : Int) ≤ (n + e.weight : Nat)
      omega
  | binary op l r place ihl ihr =>
    simp only [isWhole, Bool.and_eq_true] at h
    obtain ⟨s₁, hcodel, hrootl⟩ := ihl h.1 n s
    obtain ⟨s₂, hcoder, hrootr⟩ := ihr h.2 (n + l.weight) s₁
    -- The nodes of the right operand stand above those of the left one, whose tree is still there.
    have hleft : s₂.lookup (l.root n) = some l.skeleton := by
      rw [hcoder.lookup_eq _ (l.root_lt n)]
      exact hrootl
    have hoperands := hcodel.append hcoder (Nat.le_add_right n l.weight)
    refine ⟨_, hoperands.concat (e := .binary op l.skeleton r.skeleton none) ?_ (by simp) ?_,
      by simp [skeleton]⟩
    · simp [Node.tree?, Node.subtree?, hleft, hrootr]
    · show (n : Int) ≤ (n + l.weight + r.weight : Nat)
      omega

theorem decode?_code {e : Expr} (h : e.isWhole = true) (name : String) :
    Routine.decode? ⟨name, e.code 0 ++ [e.returnNode]⟩ = some e.skeleton := by
  obtain ⟨s, hcode, hroot⟩ := exists_replays_code h 0 []
  have hreturn : e.returnNode.tree? s = some e.skeleton := by
    simpa [returnNode, Node.tree?, Node.subtree?] using hroot
  show decodeFrom [] (e.code 0 ++ [e.returnNode]) = some e.skeleton
  rw [hcode.decodeFrom_append]
  exact decodeFrom_return hreturn rfl []

/-- Lowering loses nothing but parentheses and places. Replaying the nodes of a tree gives the tree
    without them, so two trees have the same nodes exactly if they are the same without them. -/
theorem lower_nodes_eq_iff (e₁ e₂ : Expr) (h₁ : e₁.isWhole = true) (h₂ : e₂.isWhole = true)
    (name₁ name₂ : String) :
    ∃ r₁ r₂, e₁.lower name₁ = .ok r₁ ∧ e₂.lower name₂ = .ok r₂ ∧
      (r₁.nodes = r₂.nodes ↔ e₁.skeleton = e₂.skeleton) ∧
      r₁.decode? = some e₁.skeleton ∧ r₂.decode? = some e₂.skeleton := by
  have hdecode₁ := decode?_code h₁ name₁
  have hdecode₂ := decode?_code h₂ name₂
  refine ⟨_, _, lower_eq h₁ name₁, lower_eq h₂ name₂, ⟨?_, ?_⟩, hdecode₁, hdecode₂⟩
  · intro hnodes
    have hsame : some e₁.skeleton = some e₂.skeleton := by
      rw [← hdecode₁, ← hdecode₂, Routine.decode?, Routine.decode?]
      exact congrArg (decodeFrom []) hnodes
    exact Option.some.inj hsame
  · intro hskeleton
    have hlower := lower_of_skeleton_eq h₁ h₂ hskeleton name₁
    rw [lower_eq h₁, lower_eq h₂, Except.ok.injEq, Routine.mk.injEq] at hlower
    exact hlower.2

/-- The two ways to put parentheses into `0 - inf - -0` have the same constants in the same order,
    and different nodes. -/
theorem lower_nodes_ne_of_brackets :
    let a := number (.zero false) none
    let b := number (.infinity false) none
    let c := number (.zero true) none
    let left := binary .sub (group (binary .sub a b none) none) c none
    let right := binary .sub a (group (binary .sub b c none) none) none
    left.isWhole = true ∧ right.isWhole = true ∧
      ∃ r₁ r₂, left.lower "f" = .ok r₁ ∧ right.lower "f" = .ok r₂ ∧ r₁.nodes ≠ r₂.nodes ∧
        r₁.decode? = some (binary .sub (binary .sub a b none) c none) ∧
        r₂.decode? = some (binary .sub a (binary .sub b c none) none) := by
  intro a b c left right
  obtain ⟨r₁, r₂, hlower₁, hlower₂, hiff, hdecode₁, hdecode₂⟩ :=
    lower_nodes_eq_iff left right (by decide) (by decide) "f" "f"
  have hne : left.skeleton ≠ right.skeleton := by decide
  exact ⟨by decide, by decide, r₁, r₂, hlower₁, hlower₂, fun h => hne (hiff.1 h), hdecode₁,
    hdecode₂⟩

end Expr

end ArithJit
