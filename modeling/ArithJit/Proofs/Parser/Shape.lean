import ArithJit.Proofs.Parser.Classification
import ArithJit.Proofs.Parser.Reuse

/-!
# The shape of the stacks

Between the steps of a first call the stacks have a shape of their own. The open parentheses cut
the stack of operators into segments; in each segment operators of strictly rising precedence lie
at the bottom and negations on top of them. There are as many operands as operators that wait, and
one more where an operator is awaited. The open parentheses are those that the tokens taken so far
leave open.

Every step keeps `Covers`, whatever it pushes or applies, so the shape need only be read off the
stacks that stand for tokens. There an operator lies on a looser one, on a parenthesis or at the
bottom, and on a negation lie only negations and parentheses. `Awaiting.isSegment` follows a segment
from its top down, with what was passed of it as a segment of its own.
-/

namespace ArithJit

/-- Whether an entry is a parenthesis that waits to be closed. -/
def Pending.isOpen : Pending → Bool
  | .openParen _ => true
  | .operator _ | .negation _ => false

namespace Parser

/-- What one call on a parser comes to between its steps, and what is awaited there. -/
inductive Visits (p : Parser) : Parser → Mode → Prop
  | start : Visits p p .operand
  | more {q q' : Parser} {m m' : Mode} (before : Visits p q m)
      (step : q.step m = (.more m', q')) : Visits p q' m'

/-- Operators of strictly rising precedence and then negations, from the bottom up. -/
def IsSegment (entries : List Pending) : Prop :=
  ∃ (ops : List BinaryOp) (places : List Location),
    entries = ops.map .operator ++ places.map .negation ∧
      ops.Pairwise fun lower upper => lower.precedence < upper.precedence

/-- The shape of the stacks after some tokens. -/
structure Shaped (m : Mode) (ps : List Pending) (os : List Expr) (taken : List Token) : Prop where
  segments : ∀ segment ∈ ps.reverse.splitOnP Pending.isOpen,
    IsSegment segment ∧ segment.countP Pending.isOperator ≤ 2
  operand : m = .operand → os.length = ps.countP Pending.isOperator
  operator : m = .operator → os.length = ps.countP Pending.isOperator + 1
  opened : ps.filterMap Pending.openPlace? = (openParens taken).map Token.place

variable {p q : Parser} {m : Mode} {op : BinaryOp} {place : Location} {above ps : List Pending}
  {os : List Expr} {t : Token} {ts : List Token}

/-! ## Segments -/

theorem isSegment_nil : IsSegment [] := ⟨[], [], rfl, .nil⟩

theorem IsSegment.operator (h : IsSegment above)
    (hrising : ∀ upper, .operator upper ∈ above → op.precedence < upper.precedence) :
    IsSegment (.operator op :: above) := by
  obtain ⟨ops, places, rfl, hops⟩ := h
  refine ⟨op :: ops, places, rfl, List.pairwise_cons.2 ⟨?_, hops⟩⟩
  intro upper hmem
  apply hrising
  simp [hmem]

theorem IsSegment.negation (h : IsSegment above) (hnone : ∀ upper, .operator upper ∉ above) :
    IsSegment (.negation place :: above) := by
  obtain ⟨ops, places, rfl, -⟩ := h
  cases ops with
  | nil => exact ⟨[], place :: places, rfl, .nil⟩
  | cons upper ops => exact absurd (by simp) (hnone upper)

theorem IsSegment.isOpen_eq_false (h : IsSegment above) :
    ∀ entry ∈ above, entry.isOpen = false := by
  obtain ⟨ops, places, rfl, -⟩ := h
  intro entry hmem
  rcases List.mem_append.1 hmem with hmem | hmem
  · obtain ⟨upper, -, rfl⟩ := List.mem_map.1 hmem
    rfl
  · obtain ⟨place, -, rfl⟩ := List.mem_map.1 hmem
    rfl

/-- There are two precedences, so no more than two operators can rise. -/
theorem length_le_two_of_rising {ops : List BinaryOp}
    (h : ops.Pairwise fun lower upper => lower.precedence < upper.precedence) :
    ops.length ≤ 2 := by
  match ops, h with
  | [], _ | [_], _ | [_, _], _ => simp
  | a :: b :: c :: rest, h =>
    have hab : a.precedence < b.precedence := List.rel_of_pairwise_cons h (by simp)
    have hbc : b.precedence < c.precedence := List.rel_of_pairwise_cons h.tail (by simp)
    have ha := a.precedence_eq
    have hc := c.precedence_eq
    omega

theorem IsSegment.countP_le_two (h : IsSegment above) :
    above.countP Pending.isOperator ≤ 2 := by
  obtain ⟨ops, places, rfl, hops⟩ := h
  have hcount : (ops.map Pending.operator ++ places.map Pending.negation).countP
      Pending.isOperator = ops.length := by
    simp [List.countP_map, Function.comp_def, Pending.isOperator]
  rw [hcount]
  exact length_le_two_of_rising hops

/-! ## Stacks -/

/-- A segment that has room on the stack completes the one on top of it, and all the others are
    complete. -/
theorem Awaiting.isSegment (h : Awaiting ps os ts) (habove : IsSegment above)
    (hroom : ∀ upper, .operator upper ∈ above → slot ps ≤ upper.precedence) :
    ∀ segment ∈ (ps.reverse ++ above).splitOnP Pending.isOpen, IsSegment segment := by
  induction h generalizing above with
  | start =>
    rw [List.reverse_nil, List.nil_append, List.splitOnP_eq_singleton habove.isOpen_eq_false]
    intro segment hmem
    exact List.mem_singleton.1 hmem ▸ habove
  | @negation t ps os ts _ _ ih =>
    -- Nothing binds as tight as the operand of a negation, so no operator lies on one.
    have hnone : ∀ upper, .operator upper ∉ above := by
      intro upper hmem
      have hle : 3 ≤ upper.precedence := hroom upper hmem
      have hupper := upper.precedence_eq
      omega
    rw [List.reverse_cons, List.append_assoc, List.singleton_append]
    apply ih (habove.negation hnone)
    intro upper hmem
    exact absurd (by simpa using hmem) (hnone upper)
  | @openParen t ps os ts _ _ ih =>
    have hbelow := ih isSegment_nil (by simp)
    rw [List.append_nil] at hbelow
    rw [List.reverse_cons, List.append_assoc, List.singleton_append,
      List.splitOnP_append_cons _ _ rfl, List.splitOnP_eq_singleton habove.isOpen_eq_false]
    intro segment hmem
    rcases List.mem_append.1 hmem with hmem | hmem
    · exact hbelow segment hmem
    · exact List.mem_singleton.1 hmem ▸ habove
  | @operator t op ps os ts us l _ room _ _ ih =>
    have hrising : ∀ upper, .operator upper ∈ above → op.precedence < upper.precedence := hroom
    rw [List.reverse_cons, List.append_assoc, List.singleton_append]
    apply ih (habove.operator hrising)
    intro upper hmem
    rcases List.mem_cons.1 hmem with hsame | hmem
    · cases hsame
      exact room
    · exact Nat.le_trans room (Nat.le_of_lt (hrising upper hmem))

theorem Awaiting.length_operands (h : Awaiting ps os ts) :
    os.length = ps.countP Pending.isOperator := by
  induction h with
  | start => rfl
  | negation _ _ ih | openParen _ _ ih => simpa [Pending.isOperator] using ih
  | operator _ _ _ _ ih => rw [List.length_cons, ih, List.countP_cons_of_pos rfl]

theorem Covers.exists_awaiting (h : Covers m ps os ts) : ∃ fs us, Awaiting ps fs us := by
  cases m with
  | operand => exact ⟨os, ts, h⟩
  | operator =>
    obtain ⟨below, _, _⟩ := h
    exact ⟨_, _, below⟩

/-- Stacks that stand for tokens have the shape that belongs to them. -/
theorem Covers.shaped (h : Covers m ps os ts) : Shaped m ps os ts where
  segments := by
    obtain ⟨fs, us, hawaiting⟩ := h.exists_awaiting
    have hsegments := hawaiting.isSegment isSegment_nil (by simp)
    rw [List.append_nil] at hsegments
    intro segment hmem
    have hsegment := hsegments segment hmem
    exact ⟨hsegment, hsegment.countP_le_two⟩
  operand := by
    rintro rfl
    exact Awaiting.length_operands h
  operator := by
    rintro rfl
    obtain ⟨below, _, _⟩ := h
    rw [List.length_cons, below.length_operands]
  opened := h.filterMap_openPlace?

/-! ## Calls -/

theorem Visits.exists_reached (h : Visits ⟨.given ts, t, [], []⟩ q m) :
    ∃ before rest, Reached t ts before rest q m := by
  induction h with
  | start => exact ⟨[], ts, .start t ts⟩
  | more _ step ih =>
    obtain ⟨before, rest, hreached⟩ := ih
    obtain ⟨rest', hreached'⟩ := hreached.step step
    exact ⟨_, rest', hreached'⟩

/-- Wherever a first call on given tokens comes to between its steps, some of the tokens are taken,
    one is under view and the others are still to come, and the stacks have their shape: from the
    bottom up, every segment between open parentheses consists of operators of strictly rising
    precedence, at most two, and then negations; the operands are as many as the operators that
    wait, or one more where an operator is awaited; and the open parentheses are those that the
    tokens taken leave open, in their order and with their places. The call ends as it would from
    there. -/
theorem stacks_shaped_between_steps (hp : ofSource (.given ts) = .ok p) (h : Visits p q m) :
    (∃ taken rest, ts = taken ++ q.current :: rest ∧ q.source = .given rest ∧
      Shaped m q.pending q.operands taken) ∧
    (p.current.kind ≠ .endMark → p.parse = q.run m) := by
  obtain ⟨t, us, rfl, rfl⟩ := exists_cons_of_ofSource hp
  obtain ⟨taken, rest, hreached⟩ := h.exists_reached
  refine ⟨⟨taken, rest, hreached.tokens, hreached.source, hreached.covers.shaped⟩, ?_⟩
  intro hkind
  have hrun := hreached.run_eq us rest hreached.tokens
  rw [← hreached.source] at hrun
  simpa [parse, hkind] using hrun

/-- In `((0)+0*-0` the last number is met with the sum, the product and the negation waiting inside
    the outer parenthesis, and with two operands. -/
theorem stacks_shaped_inside_paren :
    let outer : Token := ⟨.openParen, "(", ⟨0, 1, 1⟩⟩
    let inner : Token := ⟨.openParen, "(", ⟨1, 1, 2⟩⟩
    let closing : Token := ⟨.closeParen, ")", ⟨3, 1, 4⟩⟩
    let plus : Token := ⟨.plus, "+", ⟨4, 1, 5⟩⟩
    let star : Token := ⟨.star, "*", ⟨6, 1, 7⟩⟩
    let minus : Token := ⟨.minus, "-", ⟨7, 1, 8⟩⟩
    let ts : List Token := [outer, inner, bareZero, closing, plus, bareZero, star, minus, bareZero]
    let zero : Expr := .number (.zero false) (some bareZero.place)
    let q : Parser := ⟨.given [], bareZero, [zero, .group zero (some inner.place)],
      [.negation minus.place, .operator .mul, .operator .add, .openParen outer.place]⟩
    ∃ p, ofSource (.given ts) = .ok p ∧ Visits p q .operand ∧
      (∃ taken rest, ts = taken ++ q.current :: rest ∧ q.source = .given rest ∧
        Shaped .operand q.pending q.operands taken) ∧
      (p.current.kind ≠ .endMark → p.parse = q.run .operand) := by
  intro outer inner closing plus star minus ts zero q
  let p : Parser := ⟨.given ts.tail, outer, [], []⟩
  have houter : Visits p ⟨.given (ts.drop 2), inner, [], [.openParen outer.place]⟩ .operand :=
    .more .start (step_eq_more_iff.2 ⟨rfl, .openParen rfl⟩)
  have hinner : Visits p ⟨.given (ts.drop 3), bareZero, [],
      [.openParen inner.place, .openParen outer.place]⟩ .operand :=
    houter.more (step_eq_more_iff.2 ⟨rfl, .openParen rfl⟩)
  have hzero : Visits p ⟨.given (ts.drop 4), closing, [zero],
      [.openParen inner.place, .openParen outer.place]⟩ .operator :=
    hinner.more (step_eq_more_iff.2 ⟨rfl, .number rfl number_bareZero⟩)
  have hclosing : Visits p ⟨.given (ts.drop 5), plus, [.group zero (some inner.place)],
      [.openParen outer.place]⟩ .operator :=
    hzero.more (step_eq_more_iff.2 ⟨rfl, .closeParen rfl rfl⟩)
  have hplus : Visits p ⟨.given (ts.drop 6), bareZero, [.group zero (some inner.place)],
      [.operator .add, .openParen outer.place]⟩ .operand :=
    hclosing.more (step_eq_more_iff.2 ⟨rfl, .operator rfl rfl⟩)
  have hfactor : Visits p ⟨.given (ts.drop 7), star, [zero, .group zero (some inner.place)],
      [.operator .add, .openParen outer.place]⟩ .operator :=
    hplus.more (step_eq_more_iff.2 ⟨rfl, .number rfl number_bareZero⟩)
  have hstar : Visits p ⟨.given (ts.drop 8), minus, [zero, .group zero (some inner.place)],
      [.operator .mul, .operator .add, .openParen outer.place]⟩ .operand :=
    hfactor.more (step_eq_more_iff.2 ⟨rfl, .operator rfl rfl⟩)
  have hminus : Visits p q .operand :=
    hstar.more (step_eq_more_iff.2 ⟨rfl, .negation rfl⟩)
  exact ⟨p, rfl, hminus, stacks_shaped_between_steps rfl hminus⟩

end Parser

end ArithJit
