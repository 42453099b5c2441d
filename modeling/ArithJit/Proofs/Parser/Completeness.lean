import ArithJit.Proofs.Parser.Step

/-!
# Every derived tree is found

Operators are applied late: when the parser has read an operand, negations and operators of that
operand may still wait on its stacks. So the stacks after an operand are not those of the finished
tree, but they come to the same as soon as something looser is met. `Settles` says this, and
`Reads` says that a run over the tokens of an operand ends with such stacks, whatever was on the
stacks before and whatever comes after. One lemma for each rule of the grammar carries the
induction; `Derives.reads` joins them.
-/

namespace ArithJit.Parser

/-- Two pairs of stacks come to the same once everything of at least a level is applied. -/
def Settles (level : Nat) (ps : List Pending) (os : List Expr) (ps' : List Pending)
    (os' : List Expr) : Prop :=
  ∀ applies : Pending → Bool, (∀ place, applies (.negation place) = true) →
    (∀ op : BinaryOp, level ≤ op.precedence → applies (.operator op) = true) →
    reduce applies ps os = reduce applies ps' os'

/-- The level that an operand must have for the top of the stack: after an operator it must bind
    tighter than that, and after a negation it must be a factor. -/
def slot : List Pending → Nat
  | [] | .openParen _ :: _ => 1
  | .operator op :: _ => op.precedence + 1
  | .negation _ :: _ => 3

/-- The tokens of an operand lead a run to its tree. -/
def Reads (level : Nat) (ts : List Token) (e : Expr) : Prop :=
  ∀ (ps : List Pending) (os : List Expr) (t u : Token) (us rest : List Token), slot ps ≤ level →
    t :: us = ts ++ u :: rest →
    ∃ qs fs, run ⟨.given us, t, os, ps⟩ .operand = run ⟨.given rest, u, fs, qs⟩ .operator ∧
      Settles level qs fs ps (e :: os)

variable {level : Nat} {t u : Token} {op : BinaryOp} {ts us : List Token} {e l r : Expr}
  {ps ps' : List Pending} {os os' : List Expr}

/-- What does not yield to an operator leaves room for a chain of it. -/
theorem reduce_of_slot_le (h : slot ps ≤ op.precedence) :
    reduce (Pending.yieldsTo op) ps os = some (ps, os) := by
  cases ps with
  | nil => rfl
  | cons top ps =>
    cases top with
    | openParen place => rfl
    | operator top =>
      have hyield : ¬ op.precedence ≤ top.precedence := by
        simp only [slot] at h
        omega
      simp [reduce, Pending.yieldsTo, hyield]
    | negation place =>
      have := op.precedence_eq
      simp only [slot] at h
      omega

theorem Reads.loosen {tighter : Nat} (h : Reads tighter ts e) (hle : level ≤ tighter) :
    Reads level ts e := by
  intro ps os t u us rest hslot htokens
  obtain ⟨qs, fs, hrun, hsettles⟩ := h ps os t u us rest (Nat.le_trans hslot hle) htokens
  refine ⟨qs, fs, hrun, fun applies hneg hop => ?_⟩
  exact hsettles applies hneg fun op hle' => hop op (Nat.le_trans hle hle')

theorem Reads.number {x : Binary64} (kind : t.kind = .number) (value : t.number = .ok x) :
    Reads 3 [t] (.number x (some t.place)) := by
  intro ps os t' u us rest _ htokens
  simp only [List.singleton_append, List.cons.injEq] at htokens
  obtain ⟨rfl, rfl⟩ := htokens
  refine ⟨ps, .number x (some t'.place) :: os, ?_, fun _ _ _ => rfl⟩
  exact run_of_more (step_eq_more_iff.2 ⟨rfl, .number kind value⟩)

theorem Reads.negation (kind : t.kind = .minus) (operand : Reads 3 ts e) :
    Reads 3 (t :: ts) (.negate e (some t.place)) := by
  intro ps os t' u us rest _ htokens
  simp only [List.cons_append, List.cons.injEq] at htokens
  obtain ⟨rfl, rfl⟩ := htokens
  obtain ⟨v, vs, hvs⟩ := List.exists_cons_of_ne_nil (l := ts ++ u :: rest) (by simp)
  have hstep : run ⟨.given (ts ++ u :: rest), t', os, ps⟩ .operand =
      run ⟨.given vs, v, os, .negation t'.place :: ps⟩ .operand := by
    rw [hvs]
    exact run_of_more (step_eq_more_iff.2 ⟨rfl, .negation kind⟩)
  obtain ⟨qs, fs, hrun, hsettles⟩ :=
    operand (.negation t'.place :: ps) os v u vs rest (Nat.le_refl 3) hvs.symm
  refine ⟨qs, fs, hstep.trans hrun, fun applies hneg hop => ?_⟩
  rw [hsettles applies hneg hop]
  simp [reduce, hneg]

theorem Reads.group (opening : t.kind = .openParen) (inner : Reads 1 ts e)
    (closing : u.kind = .closeParen) : Reads 3 (t :: ts ++ [u]) (.group e (some t.place)) := by
  intro ps os t' u' us rest _ htokens
  simp only [List.cons_append, List.append_assoc, List.nil_append,
    List.cons.injEq] at htokens
  obtain ⟨rfl, rfl⟩ := htokens
  obtain ⟨v, vs, hvs⟩ := List.exists_cons_of_ne_nil (l := ts ++ u :: u' :: rest) (by simp)
  have hopen : run ⟨.given (ts ++ u :: u' :: rest), t', os, ps⟩ .operand =
      run ⟨.given vs, v, os, .openParen t'.place :: ps⟩ .operand := by
    rw [hvs]
    exact run_of_more (step_eq_more_iff.2 ⟨rfl, .openParen opening⟩)
  obtain ⟨qs, fs, hrun, hsettles⟩ :=
    inner (.openParen t'.place :: ps) os v u vs (u' :: rest) (Nat.le_refl 1) hvs.symm
  -- The closing parenthesis applies all that waits, so the stacks are those of the inner tree.
  have hreduce : reduce (fun _ => true) qs fs = some (.openParen t'.place :: ps, e :: os) := by
    rw [hsettles (fun _ => true) (fun _ => rfl) (fun _ _ => rfl)]
    rfl
  have hclose : run ⟨.given (u' :: rest), u, fs, qs⟩ .operator =
      run ⟨.given rest, u', .group e (some t'.place) :: os, ps⟩ .operator :=
    run_of_more (step_eq_more_iff.2 ⟨rfl, .closeParen closing hreduce⟩)
  exact ⟨ps, .group e (some t'.place) :: os, hopen.trans (hrun.trans hclose), fun _ _ _ => rfl⟩

theorem Reads.binary (left : Reads op.precedence ts l) (kind : t.kind = op.kind)
    (right : Reads (op.precedence + 1) us r) :
    Reads op.precedence (ts ++ t :: us) (.binary op l r l.place) := by
  intro ps os t' u' us' rest hslot htokens
  rw [List.append_assoc, List.cons_append] at htokens
  obtain ⟨v, vs, hvs⟩ := List.exists_cons_of_ne_nil (l := us ++ u' :: rest) (by simp)
  obtain ⟨qs, fs, hrun, hsettles⟩ := left ps os t' t us' (us ++ u' :: rest) hslot htokens
  -- The left operand is finished when the operator comes, and nothing below it is touched.
  have hreduce : reduce (Pending.yieldsTo op) qs fs = some (ps, l :: os) := by
    rw [hsettles (Pending.yieldsTo op) (fun _ => rfl) (fun _ h => by simp [Pending.yieldsTo, h])]
    exact reduce_of_slot_le hslot
  have hstep : run ⟨.given (us ++ u' :: rest), t, fs, qs⟩ .operator =
      run ⟨.given vs, v, l :: os, .operator op :: ps⟩ .operand := by
    rw [hvs]
    exact run_of_more (step_eq_more_iff.2 ⟨rfl, .operator kind hreduce⟩)
  obtain ⟨qs', fs', hrun', hsettles'⟩ :=
    right (.operator op :: ps) (l :: os) v u' vs rest (Nat.le_refl _) hvs.symm
  refine ⟨qs', fs', hrun.trans (hstep.trans hrun'), fun applies hneg hop => ?_⟩
  rw [hsettles' applies hneg fun op' hle => hop op' (by omega)]
  simp [reduce, hop op (Nat.le_refl _)]

end ArithJit.Parser

namespace ArithJit

open ArithJit.Parser

/-- A run over derived tokens builds their tree. -/
theorem Derives.reads {n : Nonterminal} {ts : List Token} {e : Expr} (h : Derives n ts e) :
    Reads n.level ts e := by
  induction h with
  | number kind value => exact .number kind value
  | negation kind _ ih => exact .negation kind ih
  | group opening _ closing ih => exact .group opening ih closing
  | factor _ ih | term _ ih => exact ih.loosen (by simp [Nonterminal.level])
  | @product _ op _ _ _ _ _ kind tight _ ihl ihr =>
    have hlevel : Nonterminal.term.level = op.precedence := tight.symm
    rw [hlevel] at ihl ⊢
    exact .binary ihl kind (by rw [tight]; exact ihr)
  | @sum _ op _ _ _ _ _ kind loose _ ihl ihr =>
    have hlevel : Nonterminal.expr.level = op.precedence := loose.symm
    rw [hlevel] at ihl ⊢
    exact .binary ihl kind (by rw [loose]; exact ihr)

end ArithJit
