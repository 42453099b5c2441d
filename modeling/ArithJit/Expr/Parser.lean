import ArithJit.Expr.Basic
import ArithJit.Token.Lexer

/-!
# Parsing expressions

The grammar, from loose to tight:

    expr   := term (('+' | '-') term)*
    term   := factor (('*' | '/') factor)*
    factor := '-' factor | NUMBER | '(' expr ')'

Operations of one precedence group to the left. The parser looks at one token at a time. Finished
operands lie on one stack; operators that wait for their right operand, and parentheses that wait
to be closed, lie on another. A parser keeps its stacks when a call fails, so a later call goes on
from there.

`step` handles one token, `run` goes on until the expression is complete or a token does not fit.
`remaining_step` says that every step that goes on leaves fewer tokens to read.
-/

namespace ArithJit

/-- Why tokens are no expression. -/
inductive ParseError where
  | operandExpected (found : Token)
  | closeExpected (found : Token)
  | unclosed (opened place : Location)
  | empty (place : Location)
  | trailing (found : Token)
  deriving DecidableEq, Repr

/-- The diagnostic of a grammatical error. -/
def ParseError.diagnostic : ParseError → Diagnostic
  | .operandExpected found =>
      .unexpectedToken found.describe "a number, '(' or '-'" (some found.place)
  | .closeExpected found => .unexpectedToken found.describe "')'" (some found.place)
  | .unclosed opened place => .unmatchedParen opened (some place)
  | .empty place => .emptyExpression (some place)
  | .trailing found => .trailingInput found.describe (some found.place)

/-- Why a call of the parser fails: the tokens are no expression, the text has no next token, the
    tokens stop without an end mark, a number cannot be read, or a stack is too short. The last
    of these does not happen. -/
inductive ParseFailure where
  | grammar (error : ParseError)
  | lexical (error : LexError)
  | unended
  | numeral (error : NumeralError)
  | underflow
  deriving DecidableEq, Repr

/-- Where a parser takes its tokens from. -/
inductive TokenSource where
  | given (tokens : List Token)
  | lexer (stream : Lexer)

namespace TokenSource

/-- The next token. -/
def next : TokenSource → Except ParseFailure Token × TokenSource
  | .given [] => (.error .unended, .given [])
  | .given (t :: ts) => (.ok t, .given ts)
  | .lexer l =>
      match l.next with
      | (.ok (some t), l') => (.ok t, .lexer l')
      | (.ok none, l') => (.error .unended, .lexer l')
      | (.error e, l') => (.error (.lexical e), .lexer l')

/-- What the source has said. -/
def events : TokenSource → List Event
  | .given _ => []
  | .lexer l => l.events

/-- How much is left to read. -/
def remaining : TokenSource → Nat
  | .given ts => ts.length
  | .lexer l => l.remaining

/-- Every token leaves less to read. -/
theorem remaining_next {s s' : TokenSource} {t : Token} (h : s.next = (.ok t, s')) :
    s'.remaining < s.remaining := by
  unfold next at h
  split at h
  · simp at h
  · simp only [Prod.mk.injEq] at h
    simp [← h.2, remaining]
  · split at h
    · next l _ u l' hl =>
      simp only [Prod.mk.injEq] at h
      rw [← h.2]
      exact Lexer.remaining_next hl
    · simp at h
    · simp at h

end TokenSource

/-- What waits on the stack of operators. -/
inductive Pending where
  | operator (op : BinaryOp)
  | negation (place : Location)
  | openParen (place : Location)
  deriving DecidableEq, Repr

namespace Pending

/-- Whether a waiting entry is applied before an operator that comes after its operand: negations
    always are, and operators of the same or a tighter precedence. -/
def yieldsTo (op : BinaryOp) : Pending → Bool
  | .operator top => op.precedence ≤ top.precedence
  | .negation _ => true
  | .openParen _ => false

/-- The place of an open parenthesis. -/
def openPlace? : Pending → Option Location
  | .openParen place => some place
  | _ => none

end Pending

/-- Applies waiting entries from the top of the stack as long as `applies` allows and no open
    parenthesis is met. A negation takes the top operand, an operator the two top ones, of which
    the upper is the right one. Fails if operands are missing. -/
def reduce (applies : Pending → Bool) :
    List Pending → List Expr → Option (List Pending × List Expr)
  | [], operands => some ([], operands)
  | .openParen place :: rest, operands => some (.openParen place :: rest, operands)
  | .negation place :: rest, operands =>
      if applies (.negation place) then
        match operands with
        | e :: below => reduce applies rest (.negate e (some place) :: below)
        | [] => none
      else some (.negation place :: rest, operands)
  | .operator op :: rest, operands =>
      if applies (.operator op) then
        match operands with
        | right :: left :: below =>
            reduce applies rest (.binary op left right left.place :: below)
        | _ => none
      else some (.operator op :: rest, operands)

/-- A parser: the tokens to come, the token under view, and the two stacks, tops first. -/
structure Parser where
  source : TokenSource
  current : Token
  operands : List Expr
  pending : List Pending

namespace Parser

/-- What the parser waits for. -/
inductive Mode where
  | operand
  | operator
  deriving DecidableEq, Repr

/-- How a step ends. -/
inductive Progress where
  | more (mode : Mode)
  | done (tree : Expr)
  | failed (reason : ParseFailure)

/-- A parser on a source, which must have a first token. -/
def ofSource (source : TokenSource) : Except ParseFailure Parser :=
  match source.next with
  | (.ok t, rest) => .ok ⟨rest, t, [], []⟩
  | (.error e, _) => .error e

/-- Takes the next token under view and goes on; without one the parser stays at its token. -/
def consume (p : Parser) (go : Parser → Progress × Parser) : Progress × Parser :=
  match p.source.next with
  | (.ok t, rest) => go { p with source := rest, current := t }
  | (.error e, rest) => (.failed e, { p with source := rest })

/-- Puts an entry on the stack of operators and waits for an operand. -/
def push (entry : Pending) (p : Parser) : Progress × Parser :=
  (.more .operand, { p with pending := entry :: p.pending })

/-- Fails at the token under view. -/
def reject (p : Parser) (error : ParseError) : Progress × Parser :=
  (.failed (.grammar error), p)

/-- The operator that a token writes between two operands. -/
def operator? : TokenKind → Option BinaryOp
  | .plus => some .add
  | .minus => some .sub
  | .star => some .mul
  | .slash => some .div
  | _ => none

/-- One token where an operand is awaited. -/
def operandStep (p : Parser) : Progress × Parser :=
  match p.current.kind with
  | .minus => p.consume (push (.negation p.current.place))
  | .openParen => p.consume (push (.openParen p.current.place))
  | .number => p.consume fun q =>
      match p.current.number with
      | .ok x =>
          (.more .operator, { q with operands := .number x (some p.current.place) :: q.operands })
      | .error e => (.failed (.numeral e), q)
  | _ => p.reject (.operandExpected p.current)

/-- An operator after an operand: what binds at least as tight is applied first. -/
def binaryStep (p : Parser) (op : BinaryOp) : Progress × Parser :=
  p.consume fun q =>
    match reduce (Pending.yieldsTo op) q.pending q.operands with
    | some (pending, operands) =>
        push (.operator op) { q with pending := pending, operands := operands }
    | none => (.failed .underflow, q)

/-- A closing parenthesis after an operand: everything back to the open one is applied. -/
def closeStep (p : Parser) : Progress × Parser :=
  match reduce (fun _ => true) p.pending p.operands with
  | some (.openParen place :: pending, operands) =>
      consume { p with pending := .openParen place :: pending, operands := operands } fun q =>
        match q.operands with
        | inner :: below =>
            (.more .operator,
              { q with pending := pending, operands := .group inner (some place) :: below })
        | [] => (.failed .underflow, q)
  | some ([], operands) =>
      reject { p with pending := [], operands := operands } (.trailing p.current)
  | _ => (.failed .underflow, p)

/-- The innermost parenthesis that is open. -/
def innermostOpen? (p : Parser) : Option Location := p.pending.findSome? Pending.openPlace?

/-- The end mark after an operand: the expression is complete if no parenthesis is open. -/
def endStep (p : Parser) : Progress × Parser :=
  match p.innermostOpen? with
  | some opened => p.reject (.unclosed opened p.current.place)
  | none =>
      match reduce (fun _ => true) p.pending p.operands with
      | some (pending, tree :: operands) =>
          (.done tree, { p with pending := pending, operands := operands })
      | _ => (.failed .underflow, p)

/-- One token where an operator is awaited. -/
def operatorStep (p : Parser) : Progress × Parser :=
  match operator? p.current.kind with
  | some op => p.binaryStep op
  | none =>
      match p.current.kind with
      | .closeParen => p.closeStep
      | .endMark => p.endStep
      | _ =>
          match p.innermostOpen? with
          | some _ => p.reject (.closeExpected p.current)
          | none => p.reject (.trailing p.current)

/-- One token. -/
def step (p : Parser) : Mode → Progress × Parser
  | .operand => p.operandStep
  | .operator => p.operatorStep

/-- What goes on after a token was taken has less to read, if it leaves the source alone. -/
theorem remaining_consume {p p' : Parser} {go : Parser → Progress × Parser} {m : Mode}
    (hgo : ∀ q q', go q = (.more m, q') → q'.source = q.source)
    (h : p.consume go = (.more m, p')) : p'.source.remaining < p.source.remaining := by
  unfold consume at h
  split at h
  · next t rest hnext =>
    rw [hgo _ _ h]
    exact TokenSource.remaining_next hnext
  · simp at h

/-- Every step that goes on leaves less to read. -/
theorem remaining_step {p p' : Parser} {m m' : Mode} (h : p.step m = (.more m', p')) :
    p'.source.remaining < p.source.remaining := by
  cases m with
  | operand =>
    simp only [step, operandStep] at h
    split at h
    · exact remaining_consume (by intro q q' hq; simp [push] at hq; simp [← hq.2]) h
    · exact remaining_consume (by intro q q' hq; simp [push] at hq; simp [← hq.2]) h
    · refine remaining_consume ?_ h
      intro q q' hq
      split at hq
      · simp only [Prod.mk.injEq] at hq
        simp [← hq.2]
      · simp at hq
    · simp [reject] at h
  | operator =>
    simp only [step, operatorStep] at h
    split at h
    · refine remaining_consume ?_ h
      intro q q' hq
      split at hq
      · simp only [push, Prod.mk.injEq] at hq
        simp [← hq.2]
      · simp at hq
    · split at h
      · unfold closeStep at h
        split at h
        · refine Nat.lt_of_lt_of_le (remaining_consume ?_ h) (Nat.le_refl _)
          intro q q' hq
          split at hq
          · simp only [Prod.mk.injEq] at hq
            simp [← hq.2]
          · simp at hq
        · simp [reject] at h
        · simp at h
      · unfold endStep at h
        split at h
        · simp [reject] at h
        · split at h <;> simp at h
      · split at h <;> simp [reject] at h

/-- Takes tokens until the expression is complete or one does not fit. -/
def run (p : Parser) (mode : Mode) : Except ParseFailure Expr × Parser :=
  match _h : p.step mode with
  | (.more mode', p') => p'.run mode'
  | (.done tree, p') => (.ok tree, p')
  | (.failed reason, p') => (.error reason, p')
termination_by p.source.remaining
decreasing_by exact remaining_step _h

/-- Reads one expression up to the end mark. -/
def parse (p : Parser) : Except ParseFailure Expr × Parser :=
  if p.current.kind = .endMark then (.error (.grammar (.empty p.current.place)), p)
  else p.run .operand

end Parser

end ArithJit
