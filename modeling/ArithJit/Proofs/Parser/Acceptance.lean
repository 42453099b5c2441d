import ArithJit.Proofs.Parser.Soundness
import ArithJit.Proofs.Parser.Sources

/-!
# The parser accepts exactly the grammar

A first call on given tokens succeeds exactly if the tokens before the first end mark are derived
as an expression, and then it gives the derived tree. Both directions meet in runs: a run that
succeeds has stacks that stand for the tokens it took, and a run over derived tokens builds their
tree. As a run has one outcome, a list of tokens has at most one tree.
-/

namespace ArithJit.Parser

/-- A parser that a run over given tokens comes to, with the tokens taken before and those still to
    come. The run over any other tokens that agree up to the token under view comes to it too. -/
structure Reached (t : Token) (ts before rest : List Token) (q : Parser) (m : Mode) : Prop where
  tokens : t :: ts = before ++ q.current :: rest
  source : q.source = .given rest
  covers : Covers m q.pending q.operands before
  run_eq : ∀ ts' rest', t :: ts' = before ++ q.current :: rest' →
    run ⟨.given ts', t, [], []⟩ .operand = run { q with source := .given rest' } m

variable {t mark : Token} {ts before rest : List Token} {q q' : Parser} {m m' : Mode} {e : Expr}

theorem next_given_eq_ok_iff {s : TokenSource} :
    (TokenSource.given ts).next = (.ok t, s) ↔ ∃ rest, ts = t :: rest ∧ s = .given rest := by
  cases ts with
  | nil => simp [TokenSource.next]
  | cons u ts => grind [TokenSource.next]

/-- A parser on given tokens has the first of them under view and nothing on its stacks. -/
theorem exists_cons_of_ofSource {p : Parser} (h : ofSource (.given ts) = .ok p) :
    ∃ t us, ts = t :: us ∧ p = ⟨.given us, t, [], []⟩ := by
  cases ts with
  | nil => simp [ofSource, TokenSource.next] at h
  | cons t us => exact ⟨t, us, rfl, (Except.ok.inj h).symm⟩

theorem Reached.start (t : Token) (ts : List Token) :
    Reached t ts [] ts ⟨.given ts, t, [], []⟩ .operand where
  tokens := rfl
  source := rfl
  covers := Awaiting.start
  run_eq := by
    intro ts' rest' h
    simp only [List.nil_append, List.cons.injEq, true_and] at h
    rw [h]

theorem Reached.step (h : Reached t ts before rest q m) (hmore : q.step m = (.more m', q')) :
    ∃ rest', Reached t ts (before ++ [q.current]) rest' q' m' := by
  obtain ⟨hnext, hshifts⟩ := step_eq_more_iff.1 hmore
  rw [h.source] at hnext
  obtain ⟨rest', rfl, hsource⟩ := next_given_eq_ok_iff.1 hnext
  refine ⟨rest', ?_, hsource, h.covers.shift hshifts, ?_⟩
  · rw [h.tokens, List.append_assoc, List.singleton_append]
  · intro ts' rest'' htokens
    rw [List.append_assoc, List.singleton_append] at htokens
    rw [h.run_eq ts' (q'.current :: rest'') htokens]
    exact run_of_more (step_more_of_source hmore rfl)

/-- Why a run over given tokens fails: a token is refused, the tokens stop before an end mark, or
    a number has no value. The stacks never run short. -/
theorem Reached.failed_cases {f : ParseFailure} (h : Reached t ts before rest q m)
    (hfailed : q.step m = (.failed f, q')) :
    (∃ err, f = .grammar err ∧ Rejects q.current m q.pending q.operands err ∧
      q'.current = q.current ∧ q'.source = q.source ∧
      Stops q m (.failed f) q'.pending q'.operands) ∨
    (f = .unended ∧ rest = [] ∧ q.current.kind ≠ .endMark) ∨
    (∃ err, f = .numeral err ∧ q.current.kind = .number ∧ q.current.number = .error err) := by
  rcases step_eq_failed hfailed with hgrammar | ⟨s, hnext, hkind⟩ | hnumeral | ⟨hmode, hshort⟩
  · exact .inl hgrammar
  · rw [h.source] at hnext
    cases rest with
    | nil =>
      simp only [TokenSource.next, Prod.mk.injEq, Except.error.injEq] at hnext
      exact .inr (.inl ⟨hnext.1.symm, rfl, hkind⟩)
    | cons u rest => simp [TokenSource.next] at hnext
  · exact .inr (.inr hnumeral)
  · subst hmode
    exact absurd hshort h.covers.not_short

theorem exists_reached (t : Token) (ts : List Token) :
    ∃ before rest q m, Reached t ts before rest q m ∧
      ((∃ tree q', q.step m = (.done tree, q') ∧
          run ⟨.given ts, t, [], []⟩ .operand = (.ok tree, q')) ∨
        ∃ f q', q.step m = (.failed f, q') ∧
          run ⟨.given ts, t, [], []⟩ .operand = (.error f, q')) := by
  have hstep : ∀ {p m p' m'}, (∃ before rest, Reached t ts before rest p m) →
      p.step m = (.more m', p') → ∃ before rest, Reached t ts before rest p' m' := by
    rintro p m p' m' ⟨before, rest, h⟩ hmore
    obtain ⟨rest', h'⟩ := h.step hmore
    exact ⟨_, rest', h'⟩
  obtain ⟨q, m, ⟨before, rest, h⟩, hend⟩ := exists_last_step hstep ⟨[], ts, .start t ts⟩
  exact ⟨before, rest, q, m, h, hend⟩

theorem exists_reached_of_ok (h : run ⟨.given ts, t, [], []⟩ .operand = (.ok e, q')) :
    ∃ before rest q m, Reached t ts before rest q m ∧ q.step m = (.done e, q') := by
  obtain ⟨before, rest, q, m, hreached, ⟨tree, q'', hdone, hrun⟩ | ⟨f, q'', -, hrun⟩⟩ :=
    exists_reached t ts
  · rw [h] at hrun
    simp only [Prod.mk.injEq, Except.ok.injEq] at hrun
    obtain ⟨rfl, rfl⟩ := hrun
    exact ⟨before, rest, q, m, hreached, hdone⟩
  · simp [h] at hrun

theorem exists_reached_of_error {f : ParseFailure}
    (h : run ⟨.given ts, t, [], []⟩ .operand = (.error f, q')) :
    ∃ before rest q m, Reached t ts before rest q m ∧ q.step m = (.failed f, q') := by
  obtain ⟨before, rest, q, m, hreached, ⟨tree, q'', -, hrun⟩ | ⟨g, q'', hfailed, hrun⟩⟩ :=
    exists_reached t ts
  · simp [h] at hrun
  · rw [h] at hrun
    simp only [Prod.mk.injEq, Except.error.injEq] at hrun
    obtain ⟨rfl, rfl⟩ := hrun
    exact ⟨before, rest, q, m, hreached, hfailed⟩

/-- A run that succeeds derives its tree from the tokens before the end mark that it stops at. -/
theorem derives_of_run (h : run ⟨.given ts, t, [], []⟩ .operand = (.ok e, q')) :
    ∃ before rest, t :: ts = before ++ q'.current :: rest ∧ q'.source = .given rest ∧
      q'.current.kind = .endMark ∧ Derives .expr before e := by
  obtain ⟨before, rest, q, m, hreached, hdone⟩ := exists_reached_of_ok h
  obtain ⟨rfl, hkind, hopen, hreduce, hcurrent, hsource⟩ := step_eq_done hdone
  refine ⟨before, rest, ?_, ?_, ?_, (hreached.covers.derives hopen hreduce).1⟩
  · rw [hcurrent, hreached.tokens]
  · rw [hsource, hreached.source]
  · rw [hcurrent, hkind]

/-- If everything can be applied, no parenthesis is open. -/
theorem findSome?_openPlace?_of_reduce {ps : List Pending} {os os' : List Expr}
    (h : reduce (fun _ => true) ps os = some ([], os')) :
    ps.findSome? Pending.openPlace? = none := by
  fun_induction reduce (fun _ => true) ps os with
  | case1 => rfl
  | case2 => simp at h
  | case3 _ _ _ _ _ ih => simpa [Pending.openPlace?] using ih h
  | case4 => simp at h
  | case5 => simp at h
  | case6 _ _ _ _ _ _ ih => simpa [Pending.openPlace?] using ih h
  | case7 => simp at h
  | case8 => simp at h

/-- A run over the tokens of an expression and an end mark succeeds with its tree. -/
theorem run_of_derives (h : Derives .expr before e) (hmark : mark.kind = .endMark)
    (htokens : t :: ts = before ++ mark :: rest) :
    run ⟨.given ts, t, [], []⟩ .operand = (.ok e, ⟨.given rest, mark, [], []⟩) := by
  obtain ⟨qs, fs, hrun, hsettles⟩ := h.reads [] [] t mark ts rest (Nat.le_refl 1) htokens
  have hreduce : reduce (fun _ => true) qs fs = some ([], [e]) :=
    hsettles (fun _ => true) (fun _ => rfl) (fun _ _ => rfl)
  rw [hrun]
  apply run_of_done
  simp [step, operatorStep, operator?, hmark, endStep, innermostOpen?,
    findSome?_openPlace?_of_reduce hreduce, hreduce]

end ArithJit.Parser

namespace ArithJit

open ArithJit.Parser

variable {t mark : Token} {ts before after : List Token} {e e' : Expr}

/-- A mark for the end of tokens that stand in no text. -/
def Token.bareMark : Token := ⟨.endMark, "", .start⟩

theorem Derives.unique (h : Derives .expr ts e) (h' : Derives .expr ts e') : e = e' := by
  obtain ⟨t, us, hts⟩ := List.exists_cons_of_ne_nil (l := ts ++ [Token.bareMark]) (by simp)
  have hrun := run_of_derives h rfl hts.symm
  rw [run_of_derives h' rfl hts.symm] at hrun
  simpa using hrun.symm

theorem firstParse_given_of_derives (h : Derives .expr before e) (hmark : mark.kind = .endMark) :
    (TokenSource.given (before ++ mark :: after)).firstParse = .ok e := by
  cases before with
  | nil => exact absurd rfl h.ne_nil
  | cons t ts =>
    have hkind : t.kind ≠ .endMark := h.kind_ne_endMark t (by simp)
    simp [TokenSource.firstParse, ofSource, TokenSource.next, parse, hkind,
      run_of_derives h hmark (List.cons_append ..).symm]

/-- A first call that succeeds stops at the first end mark, and the tokens before it derive its
    tree. -/
theorem derives_of_parse {p p' : Parser} (hp : ofSource (.given ts) = .ok p)
    (h : p.parse = (.ok e, p')) :
    ∃ before after, ts = before ++ p'.current :: after ∧ p'.source = .given after ∧
      p'.current.kind = .endMark ∧ Derives .expr before e := by
  obtain ⟨t, us, rfl, rfl⟩ := exists_cons_of_ofSource hp
  unfold parse at h
  split at h
  · simp at h
  · exact derives_of_run h

theorem firstParse_eq_ok {s : TokenSource} (h : s.firstParse = .ok e) :
    ∃ p p', ofSource s = .ok p ∧ p.parse = (.ok e, p') := by
  unfold TokenSource.firstParse at h
  split at h
  · next p hp => exact ⟨p, p.parse.2, hp, Prod.ext h rfl⟩
  · simp at h

/-- Why a first call on given tokens fails: they are no expression, they stop before an end mark,
    or one of them is a number without a value. -/
theorem firstParse_given_eq_error {f : ParseFailure}
    (h : (TokenSource.given ts).firstParse = .error f) :
    (∃ err, f = .grammar err) ∨ f = .unended ∨
      ∃ t ∈ ts, ∃ err, f = .numeral err ∧ t.kind = .number ∧ t.number = .error err := by
  cases ts with
  | nil =>
    simp only [TokenSource.firstParse, ofSource, TokenSource.next, Except.error.injEq] at h
    exact .inr (.inl h.symm)
  | cons t ts =>
    simp only [TokenSource.firstParse, ofSource, TokenSource.next, parse] at h
    split at h
    · exact .inl ⟨_, (Except.error.inj h).symm⟩
    · obtain ⟨before, rest, q, m, hreached, hfailed⟩ := exists_reached_of_error (Prod.ext h rfl)
      rcases hreached.failed_cases hfailed with ⟨err, hf, -⟩ | ⟨hf, -⟩ | ⟨err, hf, hkind, hnumber⟩
      · exact .inl ⟨err, hf⟩
      · exact .inr (.inl hf)
      · exact .inr (.inr ⟨q.current, by simp [hreached.tokens], err, hf, hkind, hnumber⟩)

/-- A first call on given tokens succeeds with a tree exactly if there is an end mark and the
    tokens before the first one derive that tree. They derive no other; the tree holds the
    contents of the tokens that the call took, in their order; and what follows the first end
    mark has no effect on any outcome. -/
theorem firstParse_given_iff_derives (ts : List Token) :
    (∀ e, (TokenSource.given ts).firstParse = .ok e ↔
      ∃ before mark after, ts = before ++ mark :: after ∧ mark.kind = .endMark ∧
        (∀ u ∈ before, u.kind ≠ .endMark) ∧ Derives .expr before e) ∧
    (∀ before e e', Derives .expr before e → Derives .expr before e' → e = e') ∧
    (∀ p p' e, Parser.ofSource (.given ts) = .ok p → p.parse = (.ok e, p') →
      ∃ before after, ts = before ++ p'.current :: after ∧ p'.source = .given after ∧
        e.yield = before.map Token.content) ∧
    (∀ before mark after after', ts = before ++ mark :: after → mark.kind = .endMark →
      (TokenSource.given (before ++ mark :: after')).firstParse =
        (TokenSource.given ts).firstParse) := by
  refine ⟨fun e => ⟨fun h => ?_, ?_⟩, fun _ _ _ => Derives.unique, ?_, ?_⟩
  · obtain ⟨p, p', hp, hparse⟩ := firstParse_eq_ok h
    obtain ⟨before, after, htokens, -, hmark, hderives⟩ := derives_of_parse hp hparse
    exact ⟨before, p'.current, after, htokens, hmark, hderives.kind_ne_endMark, hderives⟩
  · rintro ⟨before, mark, after, rfl, hmark, -, hderives⟩
    exact firstParse_given_of_derives hderives hmark
  · intro p p' e hp hparse
    obtain ⟨before, after, htokens, hsource, -, hderives⟩ := derives_of_parse hp hparse
    exact ⟨before, after, htokens, hsource, hderives.yield_eq⟩
  · rintro before mark after after' rfl hmark
    exact firstParse_given_append_endMark hmark before after' after

end ArithJit
