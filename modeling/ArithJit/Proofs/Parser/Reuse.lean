import ArithJit.Proofs.Parser.Acceptance

/-!
# Calling a parser again

A parser keeps its stacks when a call fails, and the next call waits for an operand on top of
whatever is there. So the exact balance of operands and operators that holds during a first call is
lost, but an inequality stays: there are at least as many operands as operators that wait, and one
more where an operator is awaited. `Balanced` is this inequality. Every step keeps it, and so does
every way to fail, also for want of a token when the entries before a closing parenthesis were
applied already. It is all that applying entries needs, so no stack ever runs short.
-/

namespace ArithJit

/-- Whether an entry is an operator, which takes two operands for one. -/
def Pending.isOperator : Pending → Bool
  | .operator _ => true
  | .negation _ | .openParen _ => false

namespace Parser

/-- There are operands for all operators that wait, and one more if an operator is awaited. -/
def Balanced (m : Mode) (ps : List Pending) (os : List Expr) : Prop :=
  match m with
  | .operand => ps.countP Pending.isOperator ≤ os.length
  | .operator => ps.countP Pending.isOperator < os.length

/-- The parser after some calls. -/
def after (p : Parser) : Nat → Parser
  | 0 => p
  | n + 1 => p.parse.2.after n

/-- What calls on a parser come to, step by step, and what is awaited there. A call begins where an
    operand is awaited, with the parser as the call before it left it. -/
inductive Meets (p : Parser) : Parser → Mode → Prop
  | start : Meets p p .operand
  | more {q q' : Parser} {m m' : Mode} (before : Meets p q m)
      (step : q.step m = (.more m', q')) : Meets p q' m'
  | done {q q' : Parser} {m : Mode} {tree : Expr} (before : Meets p q m)
      (step : q.step m = (.done tree, q')) : Meets p q' .operand
  | failed {q q' : Parser} {m : Mode} {f : ParseFailure} (before : Meets p q m)
      (step : q.step m = (.failed f, q')) : Meets p q' .operand

variable {p p' q q' : Parser} {m m' : Mode} {t : Token} {ps ps' : List Pending}
  {os os' : List Expr} {tree : Expr} {f : ParseFailure} {s : TokenSource}

/-! ## Steps -/

/-- One operand more than operators suffices for applying entries, and is still there after it. -/
theorem Balanced.exists_reduce (h : Balanced .operator ps os) (applies : Pending → Bool) :
    ∃ ps' os', reduce applies ps os = some (ps', os') ∧ Balanced .operator ps' os' := by
  simp only [Balanced] at h
  fun_induction reduce applies ps os with
  | case1 os => exact ⟨[], os, rfl, h⟩
  | case2 os place rest => exact ⟨_, _, rfl, h⟩
  | case3 place rest happ e below ih => exact ih (by simpa [Pending.isOperator] using h)
  | case4 place rest happ => simp at h
  | case5 os place rest happ => exact ⟨_, _, rfl, h⟩
  | case6 op rest happ right left below ih =>
    apply ih
    simp only [List.countP_cons, Pending.isOperator, if_true, List.length_cons] at h ⊢
    omega
  | case7 op rest os happ hfew =>
    -- The operator asks for two operands, and the balance has them.
    simp only [List.countP_cons, Pending.isOperator, if_true] at h
    rcases os with _ | ⟨right, _ | ⟨left, below⟩⟩
    · simp at h
    · simp at h
    · exact (hfew right left below rfl).elim
  | case8 os op rest happ => exact ⟨_, _, rfl, h⟩

theorem Balanced.reduce (h : Balanced .operator ps os) {applies : Pending → Bool}
    (hreduce : reduce applies ps os = some (ps', os')) : Balanced .operator ps' os' := by
  obtain ⟨qs, fs, hsome, hbalanced⟩ := h.exists_reduce applies
  rw [hreduce] at hsome
  obtain ⟨rfl, rfl⟩ := Prod.mk.inj (Option.some.inj hsome)
  exact hbalanced

/-- Where an operator is awaited, an operand is on top, whatever is applied. -/
theorem Balanced.exists_reduce_cons (h : Balanced .operator ps os) (applies : Pending → Bool) :
    ∃ ps' e os', ArithJit.reduce applies ps os = some (ps', e :: os') := by
  obtain ⟨ps', os', hreduce, hbalanced⟩ := h.exists_reduce applies
  cases os' with
  | nil => simp [Balanced] at hbalanced
  | cons e os' => exact ⟨ps', e, os', hreduce⟩

theorem Balanced.not_short (h : Balanced .operator ps os) : ¬Short ps os := by
  rintro ⟨applies, hshort⟩
  obtain ⟨ps', e, os', hreduce⟩ := h.exists_reduce_cons applies
  exact hshort ps' e os' hreduce

/-- The surplus operand is not asked for where an operand is awaited. -/
theorem Balanced.operand (h : Balanced m ps os) : Balanced .operand ps os := by
  cases m with
  | operand => exact h
  | operator => exact Nat.le_of_lt h

theorem Balanced.shift (h : Balanced m ps os) (hshifts : Shifts t m ps os m' ps' os') :
    Balanced m' ps' os' := by
  cases hshifts with
  | negation | openParen => simpa [Balanced, Pending.isOperator] using h
  | number => simpa [Balanced, Nat.lt_succ_iff] using h
  | operator kind reduced =>
    have hleft := h.reduce reduced
    simp only [Balanced, List.countP_cons, Pending.isOperator, if_true] at hleft ⊢
    omega
  | closeParen kind reduced => simpa [Balanced, Pending.isOperator] using h.reduce reduced

/-- A step that fails leaves the stacks alone, or with the entries before a closing parenthesis
    applied. -/
theorem stacks_of_failed (h : p.step m = (.failed f, p')) :
    (p'.pending = p.pending ∧ p'.operands = p.operands) ∨
      m = .operator ∧
        reduce (fun _ => true) p.pending p.operands = some (p'.pending, p'.operands) := by
  cases m with
  | operand =>
    left
    simp only [step, operandStep, consume, push, reject] at h
    grind
  | operator =>
    simp only [step, operatorStep] at h
    split at h
    · left
      simp only [binaryStep, consume, push] at h
      grind
    · split at h
      · simp only [closeStep, consume, reject] at h
        grind
      · left
        simp only [endStep, reject] at h
        grind
      · left
        simp only [reject] at h
        grind

theorem Balanced.failed (h : Balanced m p.pending p.operands)
    (hfailed : p.step m = (.failed f, p')) : Balanced .operand p'.pending p'.operands := by
  rcases stacks_of_failed hfailed with ⟨hps, hos⟩ | ⟨rfl, hreduce⟩
  · rw [hps, hos]
    exact h.operand
  · exact (h.reduce hreduce).operand

theorem Balanced.done (h : Balanced m p.pending p.operands)
    (hdone : p.step m = (.done tree, p')) : Balanced .operand p'.pending p'.operands := by
  obtain ⟨rfl, -, -, hreduce, -⟩ := step_eq_done hdone
  have hleft := h.reduce hreduce
  simp only [Balanced, List.length_cons] at hleft ⊢
  omega

/-! ## Calls -/

/-- A source has no next token because its text has none, or because it is at its end. -/
theorem next_eq_error {rest : TokenSource} (h : s.next = (.error f, rest)) :
    (∃ e, f = .lexical e) ∨ f = .unended := by
  unfold TokenSource.next at h
  grind

theorem Meets.run (h : Meets p q m) : Meets p (q.run m).2 .operand := by
  obtain ⟨r, k, hmeets, ⟨tree, r', hdone, hrun⟩ | ⟨f, r', hfailed, hrun⟩⟩ :=
    exists_last_step (I := Meets p) Meets.more h
  · rw [hrun]
    exact hmeets.done hdone
  · rw [hrun]
    exact hmeets.failed hfailed

theorem Meets.parse (h : Meets p q .operand) : Meets p q.parse.2 .operand := by
  unfold Parser.parse
  split
  · exact h
  · exact h.run

theorem Meets.after (h : Meets p q .operand) (n : Nat) : Meets p (q.after n) .operand := by
  induction n generalizing q with
  | zero => exact h
  | succ n ih => exact ih h.parse

/-- A step fails because the token is refused, there is no next one or a number has no value. -/
theorem Balanced.failed_cases (h : Balanced m p.pending p.operands)
    (hfailed : p.step m = (.failed f, p')) :
    (∃ e, f = .grammar e) ∨ (∃ e, f = .lexical e) ∨ f = .unended ∨ ∃ e, f = .numeral e := by
  rcases step_eq_failed hfailed with ⟨e, hf, -⟩ | ⟨rest, hnext, -⟩ | ⟨e, hf, -⟩ | ⟨rfl, hshort⟩
  · exact .inl ⟨e, hf⟩
  · rcases next_eq_error hnext with hlexical | hunended
    · exact .inr (.inl hlexical)
    · exact .inr (.inr (.inl hunended))
  · exact .inr (.inr (.inr ⟨e, hf⟩))
  · exact absurd hshort h.not_short

end Parser

end ArithJit
