import ArithJit.Proofs.Code.Lowering
import ArithJit.Proofs.Expr.Rendering

/-!
# Rendering and lowering refuse the same trees

The renderer and the machine that lowers expressions keep different lists of what is still to be
done, but both come to every node of a tree. So each of them refuses a tree exactly if a bare node
stands somewhere in it. A tree that is not refused is rendered as recursion on the tree does it, and
a builder that has stopped in the middle of a tree lowers later trees as a new one does, because it
forgets what it held.
-/

namespace ArithJit

namespace Expr

/-- A tree stands in another one, as the whole of it or below one of its nodes. -/
inductive Occurs (part : Expr) : Expr → Prop
  | here : Occurs part part
  | negate {e : Expr} {place : Option Location} (inside : Occurs part e) :
      Occurs part (.negate e place)
  | group {e : Expr} {place : Option Location} (inside : Occurs part e) :
      Occurs part (.group e place)
  | left {op : BinaryOp} {l r : Expr} {place : Option Location} (inside : Occurs part l) :
      Occurs part (.binary op l r place)
  | right {op : BinaryOp} {l r : Expr} {place : Option Location} (inside : Occurs part r) :
      Occurs part (.binary op l r place)

/-- A bare node stands somewhere in the tree. -/
def HoldsBare (e : Expr) : Prop := ∃ place, Occurs (.bare place) e

/-- The text of an expression, put together from the texts of its operands. -/
def rendering : Expr → Except NodeError String
  | .bare _ => .error .unsupported
  | .number x _ => .ok x.literal
  | .negate e _ => do
      let operand ← e.rendering
      return "(-" ++ operand ++ ")"
  | .group e _ => e.rendering
  | .binary op l r _ => do
      let left ← l.rendering
      let right ← r.rendering
      return "(" ++ left ++ " " ++ op.symbol ++ " " ++ right ++ ")"

variable {e : Expr}

/-- The first bare node of an operation stands in its left operand, or else in its right one. -/
theorem isWhole_binary_eq_false {op : BinaryOp} {l r : Expr} {place : Option Location}
    (h : (binary op l r place).isWhole = false) :
    l.isWhole = false ∨ l.isWhole = true ∧ r.isWhole = false := by
  by_cases hl : l.isWhole = true
  · exact .inr ⟨hl, by simpa [isWhole, hl] using h⟩
  · exact .inl (eq_false_of_ne_true hl)

theorem Occurs.isWhole_eq_false {place : Option Location} (h : Occurs (.bare place) e) :
    e.isWhole = false := by
  induction h with
  | here => rfl
  | negate _ ih | group _ ih => exact ih
  | left _ ih => simp [isWhole, ih]
  | right _ ih => simp [isWhole, ih]

theorem holdsBare_of_isWhole_eq_false (h : e.isWhole = false) : e.HoldsBare := by
  induction e with
  | bare place => exact ⟨place, .here⟩
  | number x place => simp [isWhole] at h
  | negate e place ih =>
    obtain ⟨place, hinside⟩ := ih h
    exact ⟨place, .negate hinside⟩
  | group e place ih =>
    obtain ⟨place, hinside⟩ := ih h
    exact ⟨place, .group hinside⟩
  | binary op l r place ihl ihr =>
    rcases isWhole_binary_eq_false h with hl | ⟨-, hr⟩
    · obtain ⟨place, hinside⟩ := ihl hl
      exact ⟨place, .left hinside⟩
    · obtain ⟨place, hinside⟩ := ihr hr
      exact ⟨place, .right hinside⟩

theorem holdsBare_iff : e.HoldsBare ↔ e.isWhole = false := by
  constructor
  · intro h
    cases h with
    | intro place hoccurs => exact hoccurs.isWhole_eq_false
  · exact holdsBare_of_isWhole_eq_false

/-! ## Rendering -/

/-- The renderer comes to the bare node, whatever it has written and whatever waits behind. -/
theorem renderPieces_of_not_isWhole (h : e.isWhole = false) (out : List String)
    (rest : List Piece) : renderPieces out (.node e :: rest) = .error .unsupported := by
  induction e generalizing out rest with
  | bare place => rw [renderPieces]
  | number x place => simp [isWhole] at h
  | negate e place ih => rw [renderPieces, renderPieces, ih h]
  | group e place ih => rw [renderPieces, ih h]
  | binary op l r place ihl ihr =>
    rw [renderPieces, renderPieces]
    rcases isWhole_binary_eq_false h with hl | ⟨hl, hr⟩
    · rw [ihl hl]
    · rw [renderPieces_node hl, renderPieces, ihr hr]

theorem rendering_of_isWhole (h : e.isWhole = true) :
    e.rendering = .ok (String.join e.fragments) := by
  induction e with
  | bare place => simp [isWhole] at h
  | number x place => simp [rendering, fragments, String.join_cons, String.join_nil]
  | negate e place ih =>
    rw [rendering, ih h, fragments, String.join_cons, String.join_append]
    simp [bind, Except.bind, pure, Except.pure, String.append_assoc, String.join_cons,
      String.join_nil]
  | group e place ih => exact ih h
  | binary op l r place ihl ihr =>
    simp only [isWhole, Bool.and_eq_true] at h
    rw [rendering, ihl h.1, ihr h.2, fragments]
    simp [bind, Except.bind, pure, Except.pure, String.append_assoc, String.join_cons,
      String.join_append, String.join_nil]

theorem rendering_of_not_isWhole (h : e.isWhole = false) :
    e.rendering = .error .unsupported := by
  induction e with
  | bare place => rfl
  | number x place => simp [isWhole] at h
  | negate e place ih =>
    rw [rendering, ih h]
    rfl
  | group e place ih => exact ih h
  | binary op l r place ihl ihr =>
    rcases isWhole_binary_eq_false h with hl | ⟨hl, hr⟩
    · rw [rendering, ihl hl]
      rfl
    · rw [rendering, rendering_of_isWhole hl, ihr hr]
      rfl

/-- Working through the pieces comes to the same as recursion. -/
theorem render_eq_rendering (e : Expr) : e.render = e.rendering := by
  by_cases h : e.isWhole = true
  · rw [render_eq h, rendering_of_isWhole h]
  · have hbare := eq_false_of_ne_true h
    rw [render, renderPieces_of_not_isWhole hbare, rendering_of_not_isWhole hbare]

end Expr

/-! ## Lowering -/

namespace Builder

variable {e : Expr}

/-- The machine comes to the bare node, whatever nodes it holds and whatever frames wait. -/
theorem visit_of_not_isWhole (h : e.isWhole = false) (b : Builder) (frames : List Frame) :
    (b.visit frames e).1 = .error .unsupported := by
  induction e generalizing b frames with
  | bare place => rw [visit]
  | number x place => simp [Expr.isWhole] at h
  | negate e place ih =>
    rw [visit]
    exact ih h b _
  | group e place ih =>
    rw [visit]
    exact ih h b _
  | binary op l r place ihl ihr =>
    rw [visit]
    rcases Expr.isWhole_binary_eq_false h with hl | ⟨hl, hr⟩
    · exact ihl hl b _
    · rw [visit_eq hl, resume]
      exact ihr hr _ _

theorem lower_of_not_isWhole (h : e.isWhole = false) (b : Builder) (name : String) :
    (b.lower e name).1 = .error .unsupported := by
  have hvisit := visit_of_not_isWhole h b.clear []
  unfold lower
  split
  · next hok => simp [hok] at hvisit
  · simp_all

/-- Lowers trees one after the other with one builder, each under its name. -/
def lowerAll (b : Builder) : List (Expr × String) → List (Except NodeError Routine)
  | [] => []
  | (e, name) :: rest => (b.lower e name).1 :: (b.lower e name).2.lowerAll rest

/-- What a builder holds does not count: lowering begins with nothing. -/
theorem lower_eq_empty (b : Builder) (e : Expr) (name : String) :
    b.lower e name = empty.lower e name := rfl

theorem lowerAll_eq (b : Builder) (jobs : List (Expr × String)) :
    b.lowerAll jobs = jobs.map fun job => job.1.lower job.2 := by
  induction jobs generalizing b with
  | nil => rfl
  | cons job rest ih =>
    rw [lowerAll, ih, lower_eq_empty]
    rfl

end Builder

namespace Expr

theorem lower_eq_error_iff {e : Expr} {name : String} :
    e.lower name = .error .unsupported ↔ e.HoldsBare := by
  rw [holdsBare_iff]
  constructor
  · intro h
    apply eq_false_of_ne_true
    intro hwhole
    simp [lower_eq hwhole] at h
  · intro h
    exact Builder.lower_of_not_isWhole h .empty name

theorem render_eq_error_iff {e : Expr} : e.render = .error .unsupported ↔ e.HoldsBare := by
  rw [holdsBare_iff, render_eq_rendering]
  constructor
  · intro h
    apply eq_false_of_ne_true
    intro hwhole
    simp [rendering_of_isWhole hwhole] at h
  · exact rendering_of_not_isWhole

/-- Rendering and lowering refuse exactly the trees that hold a bare node. Every other tree has the
    text that recursion gives it. A builder lowers each of any trees as a new one does, although
    some of the trees before it may have been refused in the middle. -/
theorem render_lower_refuse_alike (e : Expr) :
    (e.render = .error .unsupported ↔ e.HoldsBare) ∧
    (∀ name, e.lower name = .error .unsupported ↔ e.HoldsBare) ∧
    (¬e.HoldsBare → ∃ text, e.rendering = .ok text ∧ e.render = .ok text) ∧
    ∀ (b : Builder) (name : String) (jobs : List (Expr × String)),
      (b.lower e name).2.lowerAll jobs = jobs.map fun job => job.1.lower job.2 := by
  refine ⟨render_eq_error_iff, fun name => lower_eq_error_iff, ?_, ?_⟩
  · intro h
    rw [holdsBare_iff, Bool.not_eq_false] at h
    exact ⟨_, rendering_of_isWhole h, render_eq h⟩
  · intro b name jobs
    exact (b.lower e name).2.lowerAll_eq jobs

/-- A builder that stops in the middle keeps the nodes of the operand before the bare node. -/
example :
    let e := binary .add (number (.zero false) none) (negate (bare none) none) none
    (Builder.empty.lower e "f").2 = ⟨1, [⟨0, .const, [], some (.zero false)⟩]⟩ := by
  decide +kernel

end Expr

end ArithJit
