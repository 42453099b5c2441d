import ArithJit.Expr.Parser

/-!
# The grammar of expressions

The grammar stands here as a relation between a nonterminal, the tokens that it covers and the
tree that they write, apart from any way of finding the tree:

    expr   := term (('+' | '-') term)*
    term   := factor (('*' | '/') factor)*
    factor := '-' factor | NUMBER | '(' expr ')'

A repetition is folded to the left, so a chain is a shorter chain, an operator and one more
operand. Each node of a tree has the place of the first token that it covers. A number must have
a value to stand in a tree.

`Derives.yield_eq` says that the leaves and operators of a derived tree, read from left to right,
are the tokens that it was derived from.
-/

namespace ArithJit

/-- The nonterminals of the grammar, from loose to tight. -/
inductive Nonterminal where
  | expr
  | term
  | factor
  deriving DecidableEq, Repr

/-- The kind of token that writes an operation. -/
def BinaryOp.kind : BinaryOp → TokenKind
  | .add => .plus
  | .sub => .minus
  | .mul => .star
  | .div => .slash

/-- The tokens that a nonterminal covers, with their tree. -/
inductive Derives : Nonterminal → List Token → Expr → Prop
  | number {t : Token} {x : Binary64} (kind : t.kind = .number) (value : t.number = .ok x) :
      Derives .factor [t] (.number x (some t.place))
  | negation {t : Token} {ts : List Token} {e : Expr} (kind : t.kind = .minus)
      (operand : Derives .factor ts e) : Derives .factor (t :: ts) (.negate e (some t.place))
  | group {t u : Token} {ts : List Token} {e : Expr} (opening : t.kind = .openParen)
      (inner : Derives .expr ts e) (closing : u.kind = .closeParen) :
      Derives .factor (t :: ts ++ [u]) (.group e (some t.place))
  | factor {ts : List Token} {e : Expr} (only : Derives .factor ts e) : Derives .term ts e
  | product {t : Token} {op : BinaryOp} {ts us : List Token} {l r : Expr}
      (left : Derives .term ts l) (kind : t.kind = op.kind) (tight : op.precedence = 2)
      (right : Derives .factor us r) : Derives .term (ts ++ t :: us) (.binary op l r l.place)
  | term {ts : List Token} {e : Expr} (only : Derives .term ts e) : Derives .expr ts e
  | sum {t : Token} {op : BinaryOp} {ts us : List Token} {l r : Expr}
      (left : Derives .expr ts l) (kind : t.kind = op.kind) (loose : op.precedence = 1)
      (right : Derives .term us r) : Derives .expr (ts ++ t :: us) (.binary op l r l.place)

namespace Parser

theorem operator?_eq_some_iff {kind : TokenKind} {op : BinaryOp} :
    operator? kind = some op ↔ kind = op.kind := by
  cases kind <;> cases op <;> simp [operator?, BinaryOp.kind]

end Parser

namespace BinaryOp

theorem precedence_eq (op : BinaryOp) : op.precedence = 1 ∨ op.precedence = 2 := by
  cases op <;> simp [precedence]

theorem one_le_precedence (op : BinaryOp) : 1 ≤ op.precedence := by
  cases op <;> simp [precedence]

theorem kind_ne_endMark (op : BinaryOp) : op.kind ≠ .endMark := by
  cases op <;> simp [kind]

theorem kind_ne_number (op : BinaryOp) : op.kind ≠ .number := by
  cases op <;> simp [kind]

/-- The nonterminal that a chain of the operation is. -/
def chain (op : BinaryOp) : Nonterminal := if op.precedence = 1 then .expr else .term

/-- The nonterminal of the operands that a chain of the operation joins. -/
def link (op : BinaryOp) : Nonterminal := if op.precedence = 1 then .term else .factor

end BinaryOp

/-- How tight a nonterminal binds, on the scale of the precedences. -/
def Nonterminal.level : Nonterminal → Nat
  | .expr => 1
  | .term => 2
  | .factor => 3

@[simp] theorem BinaryOp.level_chain (op : BinaryOp) : op.chain.level = op.precedence := by
  cases op <;> rfl

@[simp] theorem BinaryOp.level_link (op : BinaryOp) : op.link.level = op.precedence + 1 := by
  cases op <;> rfl

theorem Nonterminal.one_le_level (n : Nonterminal) : 1 ≤ n.level := by
  cases n <;> simp [level]

theorem Nonterminal.level_le_level_factor (n : Nonterminal) :
    n.level ≤ Nonterminal.factor.level := by
  cases n <;> simp [level]

/-- What a tree keeps of a token: its kind, and the value of a number. -/
def Token.content (t : Token) : TokenKind × Option Binary64 := (t.kind, t.number.toOption)

theorem Token.content_of_kind_ne {t : Token} (h : t.kind ≠ .number) :
    t.content = (t.kind, none) := by
  simp [content, number, h, Except.toOption]

/-- The contents of the tokens that write a tree, from left to right. -/
def Expr.yield : Expr → List (TokenKind × Option Binary64)
  | .bare _ => []
  | .number x _ => [(.number, some x)]
  | .negate e _ => (.minus, none) :: e.yield
  | .group e _ => (.openParen, none) :: e.yield ++ [(.closeParen, none)]
  | .binary op l r _ => l.yield ++ (op.kind, none) :: r.yield

namespace Derives

variable {m n : Nonterminal} {t : Token} {op : BinaryOp} {ts us : List Token} {e l r : Expr}

/-- A chain of either precedence, one operand longer. -/
theorem binary (left : Derives op.chain ts l) (kind : t.kind = op.kind)
    (right : Derives op.link us r) :
    Derives op.chain (ts ++ t :: us) (.binary op l r l.place) := by
  rcases op.precedence_eq with h | h
  · simp only [BinaryOp.chain, BinaryOp.link, h] at left right ⊢
    exact .sum left kind h right
  · simp only [BinaryOp.chain, BinaryOp.link, h] at left right ⊢
    exact .product left kind h right

/-- What binds tight also stands where something looser may. -/
theorem loosen (h : Derives m ts e) (hle : n.level ≤ m.level) : Derives n ts e := by
  cases m with
  | expr =>
    cases n with
    | expr => exact h
    | term => simp [Nonterminal.level] at hle
    | factor => simp [Nonterminal.level] at hle
  | term =>
    cases n with
    | expr => exact .term h
    | term => exact h
    | factor => simp [Nonterminal.level] at hle
  | factor =>
    cases n with
    | expr => exact .term (.factor h)
    | term => exact .factor h
    | factor => exact h

theorem isExpr (h : Derives n ts e) : Derives .expr ts e := h.loosen n.one_le_level

theorem ne_nil (h : Derives n ts e) : ts ≠ [] := by
  induction h with
  | number | negation | group => simp
  | factor _ ih | term _ ih => exact ih
  | product | sum => simp

theorem kind_ne_endMark (h : Derives n ts e) : ∀ u ∈ ts, u.kind ≠ .endMark := by
  induction h with
  | number kind => simp [kind]
  | negation kind _ ih => grind
  | group opening _ closing ih => grind
  | factor _ ih | term _ ih => exact ih
  | @product t op _ _ _ _ _ kind _ _ ihl ihr | @sum t op _ _ _ _ _ kind _ _ ihl ihr =>
    have := op.kind_ne_endMark
    grind

/-- A derived tree holds the contents of its tokens, in their order. -/
theorem yield_eq (h : Derives n ts e) : e.yield = ts.map Token.content := by
  induction h with
  | number kind value => simp [Expr.yield, Token.content, kind, value, Except.toOption]
  | @negation t _ _ kind _ ih =>
    have hcontent : t.content = (.minus, none) := by
      rw [Token.content_of_kind_ne (by simp [kind]), kind]
    simp [Expr.yield, hcontent, ih]
  | @group t u _ _ opening _ closing ih =>
    have hopen : t.content = (.openParen, none) := by
      rw [Token.content_of_kind_ne (by simp [opening]), opening]
    have hclose : u.content = (.closeParen, none) := by
      rw [Token.content_of_kind_ne (by simp [closing]), closing]
    simp [Expr.yield, hopen, hclose, ih]
  | factor _ ih | term _ ih => exact ih
  | @product t op _ _ _ _ _ kind _ _ ihl ihr | @sum t op _ _ _ _ _ kind _ _ ihl ihr =>
    have hcontent : t.content = (op.kind, none) := by
      rw [Token.content_of_kind_ne (kind ▸ op.kind_ne_number), kind]
    simp [Expr.yield, hcontent, ihl, ihr]

end Derives

end ArithJit
