import ArithJit.Proofs.Grammar

/-!
# What one step of the parser does

A token is taken as `Shifts` says or refused as `Rejects` says, and which of them depends on the
token and the stacks only. `Effect` lists everything that a step can do, and `step_effect` says
that the list is complete; all later facts about steps are read off it. In particular a step looks
at its source at most once, for the next token, after it has decided to take the present one.

`exists_last_step` packs the induction over a run: what holds at its start and is kept by every
step that goes on holds where the run ends.
-/

namespace ArithJit.Parser

/-- How the token under view changes mode and stacks when it is taken. -/
inductive Shifts (t : Token) :
    Mode → List Pending → List Expr → Mode → List Pending → List Expr → Prop
  | negation {ps : List Pending} {os : List Expr} (kind : t.kind = .minus) :
      Shifts t .operand ps os .operand (.negation t.place :: ps) os
  | openParen {ps : List Pending} {os : List Expr} (kind : t.kind = .openParen) :
      Shifts t .operand ps os .operand (.openParen t.place :: ps) os
  | number {ps : List Pending} {os : List Expr} {x : Binary64} (kind : t.kind = .number)
      (value : t.number = .ok x) :
      Shifts t .operand ps os .operator ps (.number x (some t.place) :: os)
  | operator {op : BinaryOp} {ps ps' : List Pending} {os os' : List Expr}
      (kind : t.kind = op.kind) (reduced : reduce (Pending.yieldsTo op) ps os = some (ps', os')) :
      Shifts t .operator ps os .operand (.operator op :: ps') os'
  | closeParen {place : Location} {ps ps' : List Pending} {os os' : List Expr} {inner : Expr}
      (kind : t.kind = .closeParen)
      (reduced : reduce (fun _ => true) ps os = some (.openParen place :: ps', inner :: os')) :
      Shifts t .operator ps os .operator ps' (.group inner (some place) :: os')

/-- How the token under view is refused. -/
inductive Rejects (t : Token) : Mode → List Pending → List Expr → ParseError → Prop
  | operand {ps : List Pending} {os : List Expr} (minus : t.kind ≠ .minus)
      (openParen : t.kind ≠ .openParen) (number : t.kind ≠ .number) :
      Rejects t .operand ps os (.operandExpected t)
  | unopened {ps : List Pending} {os os' : List Expr} (kind : t.kind = .closeParen)
      (reduced : reduce (fun _ => true) ps os = some ([], os')) :
      Rejects t .operator ps os (.trailing t)
  | unclosed {opened : Location} {ps : List Pending} {os : List Expr} (kind : t.kind = .endMark)
      (innermost : ps.findSome? Pending.openPlace? = some opened) :
      Rejects t .operator ps os (.unclosed opened t.place)
  | closeExpected {opened : Location} {ps : List Pending} {os : List Expr}
      (kind : t.kind = .number ∨ t.kind = .openParen)
      (innermost : ps.findSome? Pending.openPlace? = some opened) :
      Rejects t .operator ps os (.closeExpected t)
  | trailing {ps : List Pending} {os : List Expr}
      (kind : t.kind = .number ∨ t.kind = .openParen)
      (innermost : ps.findSome? Pending.openPlace? = none) :
      Rejects t .operator ps os (.trailing t)

/-- Whether the operands do not suffice for what is to be applied. -/
def Short (ps : List Pending) (os : List Expr) : Prop :=
  ∃ applies, ∀ ps' e os', reduce applies ps os ≠ some (ps', e :: os')

/-- A step ends with a result and stacks, whatever its source. -/
def Stops (p : Parser) (m : Mode) (result : Progress) (ps : List Pending) (os : List Expr) :
    Prop :=
  ∀ s, step { p with source := s } m = (result, ⟨s, p.current, os, ps⟩)

/-- A step fetches the next token and ends with a result and stacks; without a next token it
    keeps the present one, and the stacks `stuck`. -/
structure Takes (p : Parser) (m : Mode) (result : Progress) (ps : List Pending) (os : List Expr)
    (stuck : List Pending × List Expr) : Prop where
  fetched {s rest : TokenSource} {t : Token} (hnext : s.next = (.ok t, rest)) :
    step { p with source := s } m = (result, ⟨rest, t, os, ps⟩)
  unfetched {s rest : TokenSource} {e : ParseFailure} (hnext : s.next = (.error e, rest)) :
    step { p with source := s } m = (.failed e, ⟨rest, p.current, stuck.2, stuck.1⟩)

/-- Everything that a step can do. -/
inductive Effect (p : Parser) (m : Mode) : Prop
  | shift {m' : Mode} {ps : List Pending} {os : List Expr} (stuck : List Pending × List Expr)
      (shifts : Shifts p.current m p.pending p.operands m' ps os)
      (takes : Takes p m (.more m') ps os stuck)
  | reject {e : ParseError} (ps : List Pending) (os : List Expr)
      (rejects : Rejects p.current m p.pending p.operands e)
      (stops : Stops p m (.failed (.grammar e)) ps os)
  | accept {tree : Expr} {ps : List Pending} {os : List Expr} (mode : m = .operator)
      (kind : p.current.kind = .endMark)
      (innermost : p.pending.findSome? Pending.openPlace? = none)
      (reduced : reduce (fun _ => true) p.pending p.operands = some (ps, tree :: os))
      (stops : Stops p m (.done tree) ps os)
  | unreadable {e : NumeralError} (kind : p.current.kind = .number)
      (value : p.current.number = .error e)
      (takes : Takes p m (.failed (.numeral e)) p.pending p.operands (p.pending, p.operands))
  | shortStop (mode : m = .operator) (short : Short p.pending p.operands)
      (stops : Stops p m (.failed .underflow) p.pending p.operands)
  | shortTake (ps : List Pending) (os : List Expr) (stuck : List Pending × List Expr)
      (mode : m = .operator) (kind : p.current.kind ≠ .endMark)
      (short : Short p.pending p.operands) (takes : Takes p m (.failed .underflow) ps os stuck)

/-- Without a condition only open parentheses stay on the stack. -/
theorem reduce_true_top {ps ps' : List Pending} {os os' : List Expr}
    (h : reduce (fun _ => true) ps os = some (ps', os')) :
    ps' = [] ∨ ∃ place rest, ps' = .openParen place :: rest := by
  fun_induction reduce (fun _ => true) ps os with
  | case1 => simp_all
  | case2 => grind
  | case3 _ _ _ _ _ ih => exact ih h
  | case4 => simp at h
  | case5 => simp_all
  | case6 _ _ _ _ _ _ ih => exact ih h
  | case7 => simp at h
  | case8 => simp_all

variable {p p' : Parser} {m m' : Mode}

theorem operand_effect : Effect p .operand := by
  cases hkind : p.current.kind with
  | minus =>
    refine .shift (p.pending, p.operands) (.negation hkind) ⟨?_, ?_⟩ <;>
      intro s rest _ hnext
    all_goals simp [step, operandStep, hkind, consume, hnext, push]
  | openParen =>
    refine .shift (p.pending, p.operands) (.openParen hkind) ⟨?_, ?_⟩ <;>
      intro s rest _ hnext
    all_goals simp [step, operandStep, hkind, consume, hnext, push]
  | number =>
    cases hvalue : p.current.number with
    | ok x =>
      refine .shift (p.pending, p.operands) (.number hkind hvalue) ⟨?_, ?_⟩ <;>
        intro s rest _ hnext
      all_goals simp [step, operandStep, hkind, hvalue, consume, hnext]
    | error e =>
      refine .unreadable hkind hvalue ⟨?_, ?_⟩ <;> intro s rest _ hnext
      all_goals simp [step, operandStep, hkind, hvalue, consume, hnext]
  | plus | star | slash | closeParen | endMark =>
    refine .reject p.pending p.operands
      (.operand (by simp [hkind]) (by simp [hkind]) (by simp [hkind])) fun s => ?_
    simp only [step, operandStep, hkind, reject]

theorem binary_effect (op : BinaryOp) (hkind : p.current.kind = op.kind) :
    Effect p .operator := by
  have hstep (s : TokenSource) :
      step { p with source := s } .operator = binaryStep { p with source := s } op := by
    simp only [step, operatorStep, operator?_eq_some_iff.2 hkind]
  cases hreduce : reduce (Pending.yieldsTo op) p.pending p.operands with
  | some left =>
    refine .shift (p.pending, p.operands) (.operator hkind hreduce)
      ⟨?_, ?_⟩ <;> intro s rest _ hnext
    all_goals simp [hstep, binaryStep, consume, hnext, hreduce, push]
  | none =>
    refine .shortTake p.pending p.operands (p.pending, p.operands) rfl
      (hkind ▸ op.kind_ne_endMark) ⟨Pending.yieldsTo op, by simp [hreduce]⟩ ⟨?_, ?_⟩ <;>
      intro s rest _ hnext
    all_goals simp [hstep, binaryStep, consume, hnext, hreduce]

theorem close_effect (hkind : p.current.kind = .closeParen) : Effect p .operator := by
  have hstep (s : TokenSource) :
      step { p with source := s } .operator = closeStep { p with source := s } := by
    simp [step, operatorStep, hkind, operator?]
  cases hreduce : reduce (fun _ => true) p.pending p.operands with
  | none =>
    refine .shortStop rfl ⟨fun _ => true, by simp [hreduce]⟩ fun s => ?_
    simp [hstep, closeStep, hreduce]
  | some left =>
    obtain ⟨ps, os⟩ := left
    rcases reduce_true_top hreduce with rfl | ⟨place, ps, rfl⟩
    · refine .reject [] os (.unopened hkind hreduce) fun s => ?_
      simp [hstep, closeStep, hreduce, reject]
    · cases os with
      | nil =>
        refine .shortTake (.openParen place :: ps) [] (.openParen place :: ps, []) rfl
          (by simp [hkind]) ⟨fun _ => true, by simp [hreduce]⟩ ⟨?_, ?_⟩ <;> intro s rest _ hnext
        all_goals simp [hstep, closeStep, hreduce, consume, hnext]
      | cons inner os =>
        refine .shift (.openParen place :: ps, inner :: os) (.closeParen hkind hreduce)
          ⟨?_, ?_⟩ <;> intro s rest _ hnext
        all_goals simp [hstep, closeStep, hreduce, consume, hnext]

theorem end_effect (hkind : p.current.kind = .endMark) : Effect p .operator := by
  have hstep (s : TokenSource) :
      step { p with source := s } .operator = endStep { p with source := s } := by
    simp [step, operatorStep, hkind, operator?]
  cases hopen : p.pending.findSome? Pending.openPlace? with
  | some opened =>
    refine .reject p.pending p.operands (.unclosed hkind hopen) fun s => ?_
    simp [hstep, endStep, innermostOpen?, hopen, reject]
  | none =>
    cases hreduce : reduce (fun _ => true) p.pending p.operands with
    | none =>
      refine .shortStop rfl ⟨fun _ => true, by simp [hreduce]⟩ fun s => ?_
      simp [hstep, endStep, innermostOpen?, hopen, hreduce]
    | some left =>
      obtain ⟨ps, os⟩ := left
      cases os with
      | nil =>
        refine .shortStop rfl ⟨fun _ => true, by simp [hreduce]⟩ fun s => ?_
        simp [hstep, endStep, innermostOpen?, hopen, hreduce]
      | cons tree os =>
        refine .accept rfl hkind hopen hreduce fun s => ?_
        simp [hstep, endStep, innermostOpen?, hopen, hreduce]

theorem misplaced_effect (hkind : p.current.kind = .number ∨ p.current.kind = .openParen) :
    Effect p .operator := by
  cases hopen : p.pending.findSome? Pending.openPlace? with
  | some opened =>
    refine .reject p.pending p.operands (.closeExpected hkind hopen) fun s => ?_
    rcases hkind with hkind | hkind
    all_goals simp [step, operatorStep, operator?, hkind, innermostOpen?, hopen, reject]
  | none =>
    refine .reject p.pending p.operands (.trailing hkind hopen) fun s => ?_
    rcases hkind with hkind | hkind
    all_goals simp [step, operatorStep, operator?, hkind, innermostOpen?, hopen, reject]

theorem step_effect (p : Parser) (m : Mode) : Effect p m := by
  cases m with
  | operand => exact operand_effect
  | operator =>
    cases hkind : p.current.kind with
    | plus => exact binary_effect .add hkind
    | minus => exact binary_effect .sub hkind
    | star => exact binary_effect .mul hkind
    | slash => exact binary_effect .div hkind
    | closeParen => exact close_effect hkind
    | endMark => exact end_effect hkind
    | number => exact misplaced_effect (.inl hkind)
    | openParen => exact misplaced_effect (.inr hkind)

theorem Shifts.kind_ne_endMark {t : Token} {ps ps' : List Pending} {os os' : List Expr}
    (h : Shifts t m ps os m' ps' os') : t.kind ≠ .endMark := by
  cases h with
  | negation kind | openParen kind | number kind | closeParen kind => simp [kind]
  | operator kind => exact kind ▸ BinaryOp.kind_ne_endMark _

theorem Takes.source_next {result : Progress} {ps : List Pending} {os : List Expr}
    {stuck : List Pending × List Expr} (h : Takes p m result ps os stuck) :
    (∃ t rest, p.source.next = (.ok t, rest) ∧ p.step m = (result, ⟨rest, t, os, ps⟩)) ∨
      ∃ e rest, p.source.next = (.error e, rest) ∧
        p.step m = (.failed e, ⟨rest, p.current, stuck.2, stuck.1⟩) := by
  cases hnext : p.source.next with
  | mk fetched rest =>
    cases fetched with
    | ok t => exact .inl ⟨t, rest, rfl, h.fetched hnext⟩
    | error e => exact .inr ⟨e, rest, rfl, h.unfetched hnext⟩

/-- A step goes on exactly if the token under view is taken and there is a next one. -/
theorem step_eq_more_iff :
    p.step m = (.more m', p') ↔ p.source.next = (.ok p'.current, p'.source) ∧
      Shifts p.current m p.pending p.operands m' p'.pending p'.operands := by
  constructor
  · intro h
    cases step_effect p m with
    | shift stuck shifts takes =>
      rcases takes.source_next with ⟨t, rest, hnext, hstep⟩ | ⟨e, rest, hnext, hstep⟩
      · have heq := h.symm.trans hstep
        simp only [Prod.mk.injEq, Progress.more.injEq] at heq
        obtain ⟨rfl, rfl⟩ := heq
        exact ⟨hnext, shifts⟩
      · simp [h] at hstep
    | reject ps os rejects stops => simpa using h.symm.trans (stops p.source)
    | accept _ _ _ _ stops => simpa using h.symm.trans (stops p.source)
    | unreadable _ _ takes | shortTake _ _ _ _ _ _ takes =>
      rcases takes.source_next with ⟨t, rest, _, hstep⟩ | ⟨e, rest, _, hstep⟩
      · simp [h] at hstep
      · simp [h] at hstep
    | shortStop _ _ stops => simpa using h.symm.trans (stops p.source)
  · obtain ⟨source', current', operands', pending'⟩ := p'
    rintro ⟨hnext, hshifts⟩
    simp only at hnext hshifts
    generalize hps : p.pending = ps at hshifts
    generalize hos : p.operands = os at hshifts
    cases hshifts with
    | negation kind => simp [step, operandStep, kind, consume, hnext, push, hps, hos]
    | openParen kind => simp [step, operandStep, kind, consume, hnext, push, hps, hos]
    | number kind value => simp [step, operandStep, kind, value, consume, hnext, hps, hos]
    | operator kind reduced =>
      simp [step, operatorStep, operator?_eq_some_iff.2 kind, binaryStep, consume, hnext, push,
        hps, hos, reduced]
    | closeParen kind reduced =>
      simp [step, operatorStep, kind, operator?, closeStep, consume, hnext, hps, hos, reduced]

/-- The expression is complete only at an end mark, with no parenthesis open. -/
theorem step_eq_done {tree : Expr} (h : p.step m = (.done tree, p')) :
    m = .operator ∧ p.current.kind = .endMark ∧
      p.pending.findSome? Pending.openPlace? = none ∧
      reduce (fun _ => true) p.pending p.operands = some (p'.pending, tree :: p'.operands) ∧
      p'.current = p.current ∧ p'.source = p.source := by
  cases step_effect p m with
  | accept mode kind innermost reduced stops =>
    have heq := h.symm.trans (stops p.source)
    simp only [Prod.mk.injEq, Progress.done.injEq] at heq
    obtain ⟨rfl, rfl⟩ := heq
    exact ⟨mode, kind, innermost, reduced, rfl, rfl⟩
  | reject ps os rejects stops => simpa using h.symm.trans (stops p.source)
  | shift _ _ takes | unreadable _ _ takes | shortTake _ _ _ _ _ _ takes =>
    rcases takes.source_next with ⟨t, rest, _, hstep⟩ | ⟨e, rest, _, hstep⟩
    · simp [h] at hstep
    · simp [h] at hstep
  | shortStop _ _ stops => simpa using h.symm.trans (stops p.source)

/-- A step that goes on does so with any source that has the same next token. -/
theorem step_more_of_source {s s' : TokenSource} (h : p.step m = (.more m', p'))
    (hnext : s.next = (.ok p'.current, s')) :
    step { p with source := s } m = (.more m', { p' with source := s' }) :=
  step_eq_more_iff.2 ⟨hnext, (step_eq_more_iff.1 h).2⟩

/-- Why a step fails: the token is refused, there is no next one, a number has no value, or the
    stacks are too short. Whatever refuses the token does so with any source. -/
theorem step_eq_failed {f : ParseFailure} (h : p.step m = (.failed f, p')) :
    (∃ e, f = .grammar e ∧ Rejects p.current m p.pending p.operands e ∧
      p'.current = p.current ∧ p'.source = p.source ∧
      Stops p m (.failed f) p'.pending p'.operands) ∨
    (∃ s, p.source.next = (.error f, s) ∧ p.current.kind ≠ .endMark) ∨
    (∃ e, f = .numeral e ∧ p.current.kind = .number ∧ p.current.number = .error e) ∨
    (m = .operator ∧ Short p.pending p.operands) := by
  cases step_effect p m with
  | shift stuck shifts takes =>
    rcases takes.source_next with ⟨t, rest, _, hstep⟩ | ⟨e, rest, hnext, hstep⟩
    · simp [h] at hstep
    · simp only [h, Prod.mk.injEq, Progress.failed.injEq] at hstep
      exact .inr (.inl ⟨rest, hstep.1 ▸ hnext, shifts.kind_ne_endMark⟩)
  | reject ps os rejects stops =>
    have heq := h.symm.trans (stops p.source)
    simp only [Prod.mk.injEq, Progress.failed.injEq] at heq
    obtain ⟨rfl, rfl⟩ := heq
    exact .inl ⟨_, rfl, rejects, rfl, rfl, stops⟩
  | accept _ _ _ _ stops => simpa using h.symm.trans (stops p.source)
  | unreadable kind value takes =>
    rcases takes.source_next with ⟨t, rest, _, hstep⟩ | ⟨e, rest, hnext, hstep⟩
    · simp only [h, Prod.mk.injEq, Progress.failed.injEq] at hstep
      exact .inr (.inr (.inl ⟨_, hstep.1, kind, value⟩))
    · simp only [h, Prod.mk.injEq, Progress.failed.injEq] at hstep
      exact .inr (.inl ⟨rest, hstep.1 ▸ hnext, by simp [kind]⟩)
  | shortStop mode short => exact .inr (.inr (.inr ⟨mode, short⟩))
  | shortTake _ _ _ mode _ short => exact .inr (.inr (.inr ⟨mode, short⟩))

/-! ## Runs -/

/-- A run ends with a step that ends, from a mode and a parser that have whatever holds at its
    start and is kept by the steps that go on. -/
theorem exists_last_step {I : Parser → Mode → Prop}
    (hstep : ∀ {p m p' m'}, I p m → p.step m = (.more m', p') → I p' m') (h : I p m) :
    ∃ q k, I q k ∧
      ((∃ tree q', q.step k = (.done tree, q') ∧ p.run m = (.ok tree, q')) ∨
        ∃ f q', q.step k = (.failed f, q') ∧ p.run m = (.error f, q')) := by
  fun_induction p.run m with
  | case1 p m m' p' hmore ih => exact ih (hstep h hmore)
  | case2 p m tree p' hdone => exact ⟨p, m, h, .inl ⟨tree, p', hdone, rfl⟩⟩
  | case3 p m f p' hfailed => exact ⟨p, m, h, .inr ⟨f, p', hfailed, rfl⟩⟩

theorem run_of_more (h : p.step m = (.more m', p')) : p.run m = p'.run m' := by
  rw [run]
  split <;> simp_all

theorem run_of_done {tree : Expr} (h : p.step m = (.done tree, p')) :
    p.run m = (.ok tree, p') := by
  rw [run]
  split <;> simp_all

theorem run_of_failed {f : ParseFailure} (h : p.step m = (.failed f, p')) :
    p.run m = (.error f, p') := by
  rw [run]
  split <;> simp_all

end ArithJit.Parser
