import ArithJit.Proofs.Parser.ViablePrefix
import Mathlib.Data.List.Basic

/-!
# How errors are classified

Which error a parser reports can be read off the tokens before the one that it refuses: whether
they end where an operand has to follow, and which of their parentheses are open. The parser itself
looks at its mode and at its stack. `Covers` ties the two together, since the stacks stand for the
tokens taken so far: a derived operand closes what it opens and ends with a number or a closing
parenthesis, so the mode and the open parentheses of the stack are those of the tokens.
-/

namespace ArithJit

/-- The open parentheses after one more token, the innermost first. -/
def Token.track (opened : List Token) (t : Token) : List Token :=
  match t.kind with
  | .openParen => t :: opened
  | .closeParen => opened.tail
  | _ => opened

/-- The parentheses that tokens open and do not close, the innermost first. -/
def openParens (ts : List Token) : List Token := ts.foldl Token.track []

variable {n : Nonterminal} {t : Token} {op : BinaryOp} {ts us opened : List Token} {e : Expr}

/-! ## Derived tokens -/

theorem Token.track_of_ne (hopen : t.kind ≠ .openParen) (hclose : t.kind ≠ .closeParen) :
    t.track opened = opened := by
  unfold track
  split
  · contradiction
  · contradiction
  · rfl

theorem Token.track_operator (h : t.kind = op.kind) : t.track opened = opened := by
  apply track_of_ne
  · cases op <;> simp [h, BinaryOp.kind]
  · cases op <;> simp [h, BinaryOp.kind]

/-- Derived tokens close all the parentheses that they open. -/
theorem Derives.foldl_track (h : Derives n ts e) (opened : List Token) :
    ts.foldl Token.track opened = opened := by
  induction h generalizing opened with
  | number kind => simp [Token.track, kind]
  | negation kind _ ih => simp [Token.track, kind, ih]
  | group opening _ closing ih => simp [Token.track, opening, closing, ih]
  | factor _ ih | term _ ih => exact ih opened
  | product _ kind _ _ ihl ihr | sum _ kind _ _ ihl ihr =>
    simp [ihl, ihr, Token.track_operator kind]

theorem openParens_append (ts us : List Token) :
    openParens (ts ++ us) = us.foldl Token.track (openParens ts) := by
  simp [openParens]

theorem Derives.openParens_append (h : Derives n us e) (ts : List Token) :
    openParens (ts ++ us) = openParens ts := by
  rw [ArithJit.openParens_append, h.foldl_track]

end ArithJit

/-! ## Tokens that the stacks stand for -/

namespace ArithJit.Parser

variable {m : Mode} {ps : List Pending} {os : List Expr} {t : Token} {ts : List Token}
  {err : ParseError}

/-- The open parentheses of the stack are those of the tokens, in their order. -/
theorem Awaiting.filterMap_openPlace? (h : Awaiting ps os ts) :
    ps.filterMap Pending.openPlace? = (openParens ts).map Token.place := by
  induction h with
  | start => rfl
  | negation _ kind ih =>
    rw [List.filterMap_cons_none rfl, ih]
    simp [openParens_append, Token.track, kind]
  | openParen _ kind ih => simp [openParens_append, Token.track, kind, Pending.openPlace?, ih]
  | operator _ _ left kind ih =>
    rw [List.filterMap_cons_none rfl, ih, openParens_append, left.openParens_append]
    simp [Token.track_operator kind]

theorem Covers.filterMap_openPlace? (h : Covers m ps os ts) :
    ps.filterMap Pending.openPlace? = (openParens ts).map Token.place := by
  cases m with
  | operand => exact Awaiting.filterMap_openPlace? h
  | operator =>
    obtain ⟨below, _, operand⟩ := h
    rw [operand.openParens_append, below.filterMap_openPlace?]

end ArithJit.Parser

namespace ArithJit

open ArithJit.Parser

end ArithJit
