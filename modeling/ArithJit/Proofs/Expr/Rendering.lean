import ArithJit.Expr.Rendering
import ArithJit.Proofs.Code.Execution

/-!
# Rendering by recursion on the tree

The renderer works through a list of pieces. Here is the text of a tree by recursion, in fragments,
and the renderer writes just these, whatever pieces wait behind: it fails on no tree without bare
nodes.
-/

namespace ArithJit.Expr

/-- The fragments of the text of an expression, from left to right. -/
def fragments : Expr → List String
  | .bare _ => []
  | .number x _ => [x.literal]
  | .negate e _ => "(-" :: (e.fragments ++ [")"])
  | .group e _ => e.fragments
  | .binary op l r _ =>
      "(" :: (l.fragments ++ (" " ++ op.symbol ++ " ") :: (r.fragments ++ [")"]))

/-- The renderer writes the fragments of a tree and goes on with the pieces behind it. -/
theorem renderPieces_node {e : Expr} (h : e.isWhole = true) (out : List String)
    (rest : List Piece) :
    renderPieces out (.node e :: rest) = renderPieces (e.fragments.reverse ++ out) rest := by
  induction e generalizing out rest with
  | bare => simp [isWhole] at h
  | number x place => simp [renderPieces, fragments]
  | negate e place ih =>
    rw [renderPieces, renderPieces, ih h, renderPieces]
    simp [fragments]
  | group e place ih =>
    rw [renderPieces, ih h]
    rfl
  | binary op l r place ihl ihr =>
    simp only [isWhole, Bool.and_eq_true] at h
    rw [renderPieces, renderPieces, ihl h.1, renderPieces, ihr h.2, renderPieces]
    simp [fragments]

/-- The text of a tree without bare nodes is its fragments, joined. -/
theorem render_eq {e : Expr} (h : e.isWhole = true) : e.render = .ok (String.join e.fragments) := by
  rw [render, renderPieces_node h, renderPieces, List.append_nil, List.reverse_reverse]

end ArithJit.Expr
