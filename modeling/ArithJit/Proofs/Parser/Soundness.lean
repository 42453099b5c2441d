import ArithJit.Proofs.Parser.Completeness

/-!
# What the stacks stand for

While a parser works, its two stacks stand for the tokens that it has taken. `Awaiting` says so
where an operand is awaited: every entry of the stacks is a token, or an operator together with
the left operand that was derived for it. `Holding` adds a derived operand on top. Between steps
that operand is a factor; while entries are applied it grows along the grammar, and its level never
falls below what the entry under it asks for.

`Covers.shift` says that taking a token keeps this, and `Covers.not_short` that no stack ever runs
short of operands.
-/

namespace ArithJit.Parser

/-- The stacks stand for tokens after which an operand is awaited. -/
inductive Awaiting : List Pending → List Expr → List Token → Prop
  | start : Awaiting [] [] []
  | negation {t : Token} {ps : List Pending} {os : List Expr} {ts : List Token}
      (below : Awaiting ps os ts) (kind : t.kind = .minus) :
      Awaiting (.negation t.place :: ps) os (ts ++ [t])
  | openParen {t : Token} {ps : List Pending} {os : List Expr} {ts : List Token}
      (below : Awaiting ps os ts) (kind : t.kind = .openParen) :
      Awaiting (.openParen t.place :: ps) os (ts ++ [t])
  | operator {t : Token} {op : BinaryOp} {ps : List Pending} {os : List Expr}
      {ts us : List Token} {l : Expr} (below : Awaiting ps os ts)
      (room : slot ps ≤ op.precedence) (left : Derives op.chain us l) (kind : t.kind = op.kind) :
      Awaiting (.operator op :: ps) (l :: os) (ts ++ us ++ [t])

/-- The stacks stand for tokens that end with an operand of a nonterminal. -/
inductive Holding (n : Nonterminal) (ps : List Pending) : List Expr → List Token → Prop
  | mk {os : List Expr} {ts us : List Token} {e : Expr} (below : Awaiting ps os ts)
      (room : slot ps ≤ n.level) (operand : Derives n us e) : Holding n ps (e :: os) (ts ++ us)

/-- The stacks stand for tokens, in either mode. -/
def Covers : Mode → List Pending → List Expr → List Token → Prop
  | .operand, ps, os, ts => Awaiting ps os ts
  | .operator, ps, os, ts => Holding .factor ps os ts

/-- Whether nothing more is applied: the top is an open parenthesis or does not apply. -/
def Stopped (applies : Pending → Bool) : List Pending → Prop
  | [] | .openParen _ :: _ => True
  | top :: _ => applies top = false

variable {n : Nonterminal} {k : Nat} {t : Token} {op : BinaryOp} {applies : Pending → Bool}
  {m m' : Mode} {ps ps' : List Pending} {os os' : List Expr} {ts us : List Token} {e : Expr}

theorem slot_le_level_factor (ps : List Pending) : slot ps ≤ Nonterminal.factor.level := by
  cases ps with
  | nil => simp [slot, Nonterminal.level]
  | cons top ps =>
    cases top with
    | openParen | negation => simp [slot, Nonterminal.level]
    | operator op =>
      have := op.precedence_eq
      simp only [slot, Nonterminal.level]
      omega

/-- What an operator leaves on the stack has room for its chain. -/
theorem Stopped.slot_le (h : Stopped (Pending.yieldsTo op) ps) : slot ps ≤ op.precedence := by
  have hop := op.precedence_eq
  cases ps with
  | nil =>
    simp only [slot]
    omega
  | cons top ps =>
    cases top with
    | openParen place =>
      simp only [slot]
      omega
    | negation place => simp [Stopped, Pending.yieldsTo] at h
    | operator top =>
      simp only [Stopped, Pending.yieldsTo, decide_eq_false_iff_not] at h
      simp only [slot]
      omega

/-- Applying entries keeps the tokens that the stacks stand for, and the operand on top keeps any
    level that the applied operators have. -/
theorem Holding.reduce (h : Holding n ps os ts) (hk : k ≤ n.level)
    (happlies : ∀ op, applies (.operator op) = true → k ≤ op.precedence) :
    ∃ n' ps' os', reduce applies ps os = some (ps', os') ∧ Holding n' ps' os' ts ∧
      k ≤ n'.level ∧ ps' <:+ ps ∧ Stopped applies ps' := by
  obtain ⟨below, room, operand⟩ := h
  rename_i os ts us e
  induction below generalizing n us e with
  | start => exact ⟨n, [], _, rfl, ⟨.start, room, operand⟩, hk, List.suffix_rfl, trivial⟩
  | openParen below kind _ =>
    exact ⟨n, _, _, rfl, ⟨.openParen below kind, room, operand⟩, hk, List.suffix_rfl, trivial⟩
  | @negation t ps os ts below kind ih =>
    cases happ : applies (.negation t.place) with
    | false =>
      refine ⟨n, .negation t.place :: ps, e :: os, ?_, ⟨.negation below kind, room, operand⟩, hk,
        List.suffix_rfl, happ⟩
      simp [ArithJit.reduce, happ]
    | true =>
      have hfactor : Derives .factor (t :: us) (.negate e (some t.place)) :=
        .negation kind (operand.loosen room)
      obtain ⟨n', ps', os', hreduce, hholding, hk', hsuffix, hstopped⟩ :=
        ih (Nat.le_trans hk n.level_le_level_factor) (slot_le_level_factor ps) hfactor
      refine ⟨n', ps', os', ?_, ?_, hk', hsuffix.trans (List.suffix_cons _ _), hstopped⟩
      · simpa [ArithJit.reduce, happ] using hreduce
      · simpa using hholding
  | @operator t op ps os ts ls l below room' left kind ih =>
    cases happ : applies (.operator op) with
    | false =>
      refine ⟨n, .operator op :: ps, e :: l :: os, ?_,
        ⟨.operator below room' left kind, room, operand⟩, hk, List.suffix_rfl, happ⟩
      simp [ArithJit.reduce, happ]
    | true =>
      have hright : Derives op.link us e := operand.loosen (by simpa [slot] using room)
      obtain ⟨n', ps', os', hreduce, hholding, hk', hsuffix, hstopped⟩ :=
        ih (by simpa using happlies op happ) (by simpa using room') (left.binary kind hright)
      refine ⟨n', ps', os', ?_, ?_, hk', hsuffix.trans (List.suffix_cons _ _), hstopped⟩
      · simpa [ArithJit.reduce, happ] using hreduce
      · simpa using hholding

/-- Whatever is applied, there is an expression on top, and it stands for as many tokens. -/
theorem Covers.reduce_all (h : Covers .operator ps os ts) (applies : Pending → Bool) :
    ∃ n ps' os', reduce applies ps os = some (ps', os') ∧ Holding n ps' os' ts ∧ ps' <:+ ps := by
  obtain ⟨n', ps', os', hreduce, hholding, -, hsuffix, -⟩ :=
    Holding.reduce h Nonterminal.factor.one_le_level fun op _ => op.one_le_precedence
  exact ⟨n', ps', os', hreduce, hholding, hsuffix⟩

theorem Covers.not_short (h : Covers .operator ps os ts) : ¬ Short ps os := by
  rintro ⟨applies, hshort⟩
  obtain ⟨n, ps', os', hreduce, hholding, -⟩ := h.reduce_all applies
  obtain ⟨below, room, operand⟩ := hholding
  exact hshort _ _ _ hreduce

/-- Taking a token adds it to the tokens that the stacks stand for. -/
theorem Covers.shift (h : Covers m ps os ts) (hshifts : Shifts t m ps os m' ps' os') :
    Covers m' ps' os' (ts ++ [t]) := by
  cases hshifts with
  | negation kind => exact Awaiting.negation h kind
  | openParen kind => exact Awaiting.openParen h kind
  | number kind value => exact ⟨h, slot_le_level_factor _, .number kind value⟩
  | @operator op _ _ _ _ kind reduced =>
    -- Only operators that bind at least as tight are applied, so the result is a chain of `op`.
    have hyields : ∀ top, Pending.yieldsTo op (.operator top) = true →
        op.precedence ≤ top.precedence := by
      intro top happ
      simpa [Pending.yieldsTo] using happ
    have hop : op.precedence ≤ Nonterminal.factor.level := by cases op <;> decide
    obtain ⟨n, ps', os', hreduce, hholding, hlevel, -, hstopped⟩ := Holding.reduce h hop hyields
    rw [reduced] at hreduce
    obtain ⟨rfl, rfl⟩ := Prod.mk.inj (Option.some.inj hreduce)
    obtain ⟨below, room, operand⟩ := hholding
    exact .operator below hstopped.slot_le (operand.loosen (by simpa using hlevel)) kind
  | closeParen kind reduced =>
    obtain ⟨n, ps', os', hreduce, hholding, -⟩ := h.reduce_all fun _ => true
    rw [reduced] at hreduce
    obtain ⟨rfl, rfl⟩ := Prod.mk.inj (Option.some.inj hreduce)
    obtain ⟨below, room, operand⟩ := hholding
    cases below with
    | openParen below opening =>
      have hgroup := Derives.group opening operand.isExpr kind
      have hholding := Holding.mk below (slot_le_level_factor _) hgroup
      simpa [Covers] using hholding

/-- With no parenthesis open, applying everything leaves the tree of all tokens. -/
theorem Covers.derives (h : Covers .operator ps os ts)
    (hopen : ps.findSome? Pending.openPlace? = none)
    (hreduce : reduce (fun _ => true) ps os = some (ps', e :: os')) :
    Derives .expr ts e ∧ ps' = [] ∧ os' = [] := by
  obtain ⟨n, qs, fs, hreduce', hholding, hsuffix⟩ := h.reduce_all fun _ => true
  rw [hreduce] at hreduce'
  obtain ⟨rfl, rfl⟩ := Prod.mk.inj (Option.some.inj hreduce')
  rcases reduce_true_top hreduce with rfl | ⟨place, rest, rfl⟩
  · obtain ⟨below, room, operand⟩ := hholding
    cases below with
    | start => exact ⟨operand.isExpr, rfl, rfl⟩
  · have hmem : Pending.openParen place ∈ ps := hsuffix.subset (by simp)
    have hnone := List.findSome?_eq_none_iff.1 hopen _ hmem
    simp [Pending.openPlace?] at hnone

end ArithJit.Parser
