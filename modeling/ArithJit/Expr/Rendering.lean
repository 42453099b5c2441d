import ArithJit.Expr.Basic
import ArithJit.Decimal.Layout

/-!
# Rendering expressions

An expression is written with parentheses around every operation, so the text shows how it was
grouped; the parentheses of the tree itself add nothing. Rendering keeps a list of what is still
to be written, texts and trees mixed, so that no depth of nesting is too much for it.
-/

namespace ArithJit

/-- The text of a number: an integer in full if it is one, with no sign for zero. -/
def Binary64.literal (x : Binary64) : String :=
  match x.toInt? with
  | some n => toString n
  | none => x.message

namespace Expr

/-- What is still to be written. -/
inductive Piece where
  | text (s : String)
  | node (e : Expr)

/-- How many steps a tree takes to write. -/
def steps : Expr → Nat
  | .bare _ | .number _ _ => 1
  | .group e _ => e.steps + 1
  | .negate e _ => e.steps + 3
  | .binary _ l r _ => l.steps + r.steps + 4

/-- How many steps a piece takes to write. -/
def Piece.steps : Piece → Nat
  | .text _ => 1
  | .node e => e.steps

/-- How many steps a list of pieces takes to write. -/
def stepsLeft : List Piece → Nat
  | [] => 0
  | p :: ps => p.steps + stepsLeft ps

/-- Writes the pieces one after the other; `out` holds the texts so far in reverse. -/
def renderPieces (out : List String) : List Piece → Except NodeError String
  | [] => .ok (String.join out.reverse)
  | .text s :: rest => renderPieces (s :: out) rest
  | .node (.number x _) :: rest => renderPieces (x.literal :: out) rest
  | .node (.group e _) :: rest => renderPieces out (.node e :: rest)
  | .node (.negate e _) :: rest =>
      renderPieces out (.text "(-" :: .node e :: .text ")" :: rest)
  | .node (.binary op l r _) :: rest =>
      renderPieces out
        (.text "(" :: .node l :: .text (" " ++ op.symbol ++ " ") :: .node r :: .text ")" :: rest)
  | .node (.bare _) :: _ => .error .unsupported
termination_by pieces => stepsLeft pieces
decreasing_by all_goals simp only [stepsLeft, Piece.steps, steps]; omega

/-- The text of an expression. -/
def render (e : Expr) : Except NodeError String := renderPieces [] [.node e]

end Expr

end ArithJit
