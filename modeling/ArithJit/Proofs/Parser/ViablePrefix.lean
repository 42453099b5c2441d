import ArithJit.Proofs.Parser.Acceptance

/-!
# Errors stand at the first impossible token

The stacks of a parser show how the tokens taken so far can be completed: put an operand where one
is awaited, and close what is open from the top of the stack down. So the parser never goes on
into tokens that begin no expression. That the token it refuses is impossible follows from
completeness: a run over an expression that begins with the same tokens would have to succeed, but
it meets the same token on the same stacks.
-/

namespace ArithJit.Parser

/-- A number that stands in no text. -/
def bareZero : Token := ⟨.number, "0", .start⟩

/-- A closing parenthesis that stands in no text. -/
def bareClose : Token := ⟨.closeParen, ")", .start⟩

theorem number_bareZero : bareZero.number = .ok (.zero false) := by
  have hread : Numeral.read? bareZero.lexeme = some (.zero false) := by decide +kernel
  simp only [Token.number, hread]
  rfl

variable {n : Nonterminal} {t : Token} {m : Mode} {ps : List Pending} {os : List Expr}
  {ts us : List Token} {e : Expr} {err : ParseError}

/-- With an operand that fits on top, the tokens that the stacks stand for begin an expression. -/
theorem Awaiting.completion (h : Awaiting ps os ts) (operand : Derives n us e)
    (room : slot ps ≤ n.level) : ∃ more e', Derives .expr (ts ++ us ++ more) e' := by
  induction h generalizing n us e with
  | start => exact ⟨[], e, by simpa using operand.isExpr⟩
  | negation _ kind ih =>
    obtain ⟨more, e', h⟩ := ih (.negation kind (operand.loosen room)) (slot_le_level_factor _)
    exact ⟨more, e', by simpa using h⟩
  | openParen _ kind ih =>
    have hgroup := Derives.group (u := bareClose) kind operand.isExpr rfl
    obtain ⟨more, e', h⟩ := ih hgroup (slot_le_level_factor _)
    exact ⟨bareClose :: more, e', by simpa using h⟩
  | operator _ room' left kind ih =>
    have hright := operand.loosen (n := BinaryOp.link _) (by simpa [slot] using room)
    obtain ⟨more, e', h⟩ := ih (left.binary kind hright) (by simpa using room')
    exact ⟨more, e', by simpa using h⟩

/-- Tokens that a parser has taken begin an expression. -/
theorem Covers.completion (h : Covers m ps os ts) : ∃ more e, Derives .expr (ts ++ more) e := by
  cases m with
  | operand =>
    have hzero := Derives.number rfl number_bareZero
    obtain ⟨more, e, h⟩ := Awaiting.completion h hzero (slot_le_level_factor _)
    exact ⟨bareZero :: more, e, by simpa using h⟩
  | operator =>
    obtain ⟨below, room, operand⟩ := h
    exact below.completion operand room

/-- An error names the place of the token that is refused. -/
theorem Rejects.place_eq (h : Rejects t m ps os err) : err.diagnostic.place = some t.place := by
  cases h <;> rfl

variable {before rest : List Token} {q : Parser}

/-- A refusal is met by every run over tokens that agree up to the token that is refused. -/
theorem Reached.run_eq_error (h : Reached t ts before rest q m)
    (hstops : Stops q m (.failed (.grammar err)) ps os) {ts' rest' : List Token}
    (htokens : t :: ts' = before ++ q.current :: rest') :
    run ⟨.given ts', t, [], []⟩ .operand =
      (.error (.grammar err), ⟨.given rest', q.current, os, ps⟩) := by
  rw [h.run_eq ts' rest' htokens]
  exact run_of_failed (hstops _)

/-- Tokens that agree with others up to a token begin with the same one. -/
theorem Reached.exists_cons (h : Reached t ts before rest q m) (rest' : List Token) :
    ∃ ts', t :: ts' = before ++ q.current :: rest' := by
  have htokens := h.tokens
  cases before with
  | nil =>
    simp only [List.nil_append, List.cons.injEq] at htokens
    exact ⟨rest', by simp [htokens.1]⟩
  | cons u before =>
    simp only [List.cons_append, List.cons.injEq] at htokens
    exact ⟨before ++ q.current :: rest', by simp [htokens.1]⟩

/-- A token that is refused ends every hope of an expression. -/
theorem Reached.not_derives (h : Reached t ts before rest q m)
    (hstops : Stops q m (.failed (.grammar err)) ps os) :
    if q.current.kind = .endMark then ∀ e, ¬ Derives .expr before e
    else ∀ more e, ¬ Derives .expr (before ++ q.current :: more) e := by
  split
  · next hkind =>
    intro e hderives
    have hrun := h.run_eq_error hstops h.tokens
    rw [run_of_derives hderives hkind h.tokens] at hrun
    simp at hrun
  · intro more e hderives
    obtain ⟨ts', htokens⟩ := h.exists_cons (more ++ [Token.bareMark])
    have hrun := h.run_eq_error hstops htokens
    have hsplit : t :: ts' = (before ++ q.current :: more) ++ Token.bareMark :: [] := by
      simp [htokens]
    rw [run_of_derives hderives rfl hsplit] at hrun
    simp at hrun

end ArithJit.Parser

namespace ArithJit

open ArithJit.Parser

/-- A first call on given tokens that refuses them does so at the first impossible token: the error
    names its place, the tokens before it begin an expression, no expression begins with them and
    it (and at an end mark they are none themselves), and the error is the same whatever follows
    that token. -/
theorem parse_error_at_first_impossible_token {ts : List Token} {p p' : Parser}
    {err : ParseError} (hp : Parser.ofSource (.given ts) = .ok p)
    (h : p.parse = (.error (.grammar err), p')) :
    ∃ before after, ts = before ++ p'.current :: after ∧ p'.source = .given after ∧
      err.diagnostic.place = some p'.current.place ∧
      (∃ more e, Derives .expr (before ++ more) e) ∧
      (if p'.current.kind = .endMark then ∀ e, ¬ Derives .expr before e
        else ∀ more e, ¬ Derives .expr (before ++ p'.current :: more) e) ∧
      ∀ after', ∃ q q', Parser.ofSource (.given (before ++ p'.current :: after')) = .ok q ∧
        q.parse = (.error (.grammar err), q') := by
  cases ts with
  | nil => simp [ofSource, TokenSource.next] at hp
  | cons t ts =>
    simp only [ofSource, TokenSource.next, Except.ok.injEq] at hp
    subst hp
    by_cases hkind : t.kind = .endMark
    · -- The first token is the end mark.
      simp only [parse, hkind, if_true, Prod.mk.injEq, Except.error.injEq,
        ParseFailure.grammar.injEq] at h
      obtain ⟨rfl, rfl⟩ := h
      refine ⟨[], ts, rfl, rfl, rfl, Covers.completion (m := .operand) Awaiting.start, ?_, ?_⟩
      · rw [if_pos hkind]
        intro e hderives
        exact hderives.ne_nil rfl
      · intro after'
        exact ⟨⟨.given after', t, [], []⟩, _, rfl, by simp [parse, hkind]; rfl⟩
    · have hrun : run ⟨.given ts, t, [], []⟩ .operand = (.error (.grammar err), p') := by
        simpa [parse, hkind] using h
      obtain ⟨before, rest, q, m, hreached, hfailed⟩ := exists_reached_of_error hrun
      rcases hreached.failed_cases hfailed with
        ⟨e, he, hrejects, hcurrent, hsource, hstops⟩ | ⟨he, -⟩ | ⟨e, he, -⟩
      · obtain rfl : err = e := by simpa using he
        rw [hcurrent]
        refine ⟨before, rest, hreached.tokens, hsource.trans hreached.source, hrejects.place_eq,
          hreached.covers.completion, hreached.not_derives hstops, ?_⟩
        intro after'
        obtain ⟨ts', htokens⟩ := hreached.exists_cons after'
        have hrun' := hreached.run_eq_error hstops htokens
        rw [← htokens]
        exact ⟨⟨.given ts', t, [], []⟩, _, rfl, by rw [← hrun']; simp [parse, hkind]⟩
      · simp at he
      · simp at he

/-- In `-(0 0` the second number is impossible, and an end mark after it does not matter. -/
theorem parse_error_at_second_operand :
    let minus : Token := ⟨.minus, "-", ⟨0, 1, 1⟩⟩
    let opening : Token := ⟨.openParen, "(", ⟨1, 1, 2⟩⟩
    let ts : List Token := [minus, opening, bareZero, bareZero, Token.bareMark]
    ∃ p p', Parser.ofSource (.given ts) = .ok p ∧
      p.parse = (.error (.grammar (.closeExpected bareZero)), p') ∧
      ∃ before after, ts = before ++ p'.current :: after ∧ p'.source = .given after ∧
        (ParseError.closeExpected bareZero).diagnostic.place = some p'.current.place ∧
        (∃ more e, Derives .expr (before ++ more) e) ∧
        (if p'.current.kind = .endMark then ∀ e, ¬ Derives .expr before e
          else ∀ more e, ¬ Derives .expr (before ++ p'.current :: more) e) ∧
        ∀ after', ∃ q q', Parser.ofSource (.given (before ++ p'.current :: after')) = .ok q ∧
          q.parse = (.error (.grammar (.closeExpected bareZero)), q') := by
  intro minus opening ts
  let value : Expr := .number (.zero false) (some bareZero.place)
  let p' : Parser := ⟨.given [Token.bareMark], bareZero, [value],
    [.openParen opening.place, .negation minus.place]⟩
  have hminus : run ⟨.given ts.tail, minus, [], []⟩ .operand =
      run ⟨.given ts.tail.tail, opening, [], [.negation minus.place]⟩ .operand :=
    run_of_more (step_eq_more_iff.2 ⟨rfl, .negation rfl⟩)
  have hopening : run ⟨.given ts.tail.tail, opening, [], [.negation minus.place]⟩ .operand =
      run ⟨.given [bareZero, Token.bareMark], bareZero, [], p'.pending⟩ .operand :=
    run_of_more (step_eq_more_iff.2 ⟨rfl, .openParen rfl⟩)
  have hzero : run ⟨.given [bareZero, Token.bareMark], bareZero, [], p'.pending⟩ .operand =
      p'.run .operator :=
    run_of_more (step_eq_more_iff.2 ⟨rfl, .number rfl number_bareZero⟩)
  have hend : p'.run .operator = (.error (.grammar (.closeExpected bareZero)), p') :=
    run_of_failed rfl
  have hparse : parse ⟨.given ts.tail, minus, [], []⟩ =
      (.error (.grammar (.closeExpected bareZero)), p') :=
    hminus.trans (hopening.trans (hzero.trans hend))
  exact ⟨_, p', rfl, hparse, parse_error_at_first_impossible_token rfl hparse⟩

end ArithJit
