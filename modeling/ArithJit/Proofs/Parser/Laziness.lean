import ArithJit.Proofs.Evaluation
import ArithJit.Proofs.Parser.ViablePrefix

/-!
# Lexing while parsing

A text is parsed while it is lexed, one token ahead. This makes no difference to a text that is
lexed to its end: the outcome is that of parsing the list of its tokens. In a text that has a
lexical error the parser may refuse a token before the lexer comes to that error. So the leftmost
error is reported: the grammatical one if the tokens before the lexical error are refused at one
of them, and the lexical one if the parser gets past all of them, however it would have gone on.

What decides is the fetch of the next token. A step that takes the last token before the lexical
error fails there, whatever it did to the stacks; over the same tokens and an end mark it brings
the end mark under view, and the run ends there.
-/

namespace ArithJit.Lexer

/-- Taking tokens one after the other leads from one state of a stream to another. -/
inductive Yields : Lexer → List Token → Lexer → Prop
  | nil {l : Lexer} : Yields l [] l
  | cons {l l' l'' : Lexer} {t : Token} {ts : List Token} (next : l.next = (.ok (some t), l'))
      (rest : Yields l' ts l'') : Yields l (t :: ts) l''

variable {l l' l'' : Lexer} {t : Token} {ts : List Token} {e : LexError}

theorem next_eq_error (h : l.next = (.error e, l')) :
    l.phase = .reading ∧ ∃ c, l.cursor.scan = (.error e, c) := by
  unfold next at h
  split at h
  · next hphase =>
    refine ⟨hphase, ?_⟩
    split at h
    · split at h <;> simp at h
    · next c hscan =>
      simp only [Prod.mk.injEq, Except.error.injEq] at h
      exact ⟨c, h.1 ▸ hscan⟩
  · simp at h

theorem next_eq_some (h : l.next = (.ok (some t), l')) :
    l.phase = .reading ∧ l.cursor.scan = (.ok t, l'.cursor) ∧
      (l'.phase = .reading → t.kind ≠ .endMark) := by
  unfold next at h
  split at h
  · next hphase =>
    refine ⟨hphase, ?_⟩
    split at h
    · next u c hscan =>
      split at h
      · simp only [Prod.mk.injEq, Except.ok.injEq, Option.some.injEq] at h
        obtain ⟨rfl, rfl⟩ := h
        exact ⟨hscan, by simp⟩
      · next hkind =>
        simp only [Prod.mk.injEq, Except.ok.injEq, Option.some.injEq] at h
        obtain ⟨rfl, rfl⟩ := h
        exact ⟨hscan, fun _ => hkind⟩
    · simp at h
  · simp at h

/-- What a stream yields before it fails is what its cursor delivers. -/
theorem Yields.delivers (h : l.Yields ts l') (herror : l'.next = (.error e, l'')) :
    l.phase = .reading ∧ l.cursor.Delivers ts (some e) := by
  induction h with
  | nil =>
    obtain ⟨hphase, c, hscan⟩ := next_eq_error herror
    exact ⟨hphase, .failed hscan⟩
  | cons next _ ih =>
    obtain ⟨hphase, hscan, hkind⟩ := next_eq_some next
    obtain ⟨hphase', hrest⟩ := ih herror
    exact ⟨hphase, .token hscan (hkind hphase') hrest⟩

/-- A cursor that delivers tokens and then fails is that of a stream that does so. -/
theorem exists_yields (h : l.cursor.Delivers ts (some e)) (hphase : l.phase = .reading) :
    ∃ l' l'', l.Yields ts l' ∧ l'.next = (.error e, l'') := by
  induction ts generalizing l with
  | nil =>
    cases h with
    | failed scan => exact ⟨l, _, .nil, by simp only [next, hphase, scan, if_true]; rfl⟩
  | cons t ts ih =>
    cases h with
    | @token _ c' _ _ _ scan kind rest =>
      let after : Lexer := { l with cursor := c', delivered := l.delivered + 1 }
      have hnext : l.next = (.ok (some t), after) := by
        simp only [next, hphase, scan, kind, if_true, if_false, after]
      obtain ⟨l', l'', hyields, herror⟩ := ih (l := after) rest hphase
      exact ⟨l', l'', .cons hnext hyields, herror⟩

end ArithJit.Lexer

namespace ArithJit.Parser

variable {p p' : Parser} {m : Mode} {mark : Token} {ts : List Token} {s rest : TokenSource}

/-- At an end mark a run ends, with the end mark still under view. -/
theorem run_of_endMark (h : p.current.kind = .endMark) :
    ∃ r ps os, p.run m = (r, ⟨p.source, p.current, os, ps⟩) := by
  cases step_effect p m with
  | shift _ shifts _ => exact absurd h shifts.kind_ne_endMark
  | reject ps os _ stops => exact ⟨_, ps, os, run_of_failed (stops p.source)⟩
  | accept _ _ _ _ stops => exact ⟨_, _, _, run_of_done (stops p.source)⟩
  | unreadable kind _ _ => simp [h] at kind
  | shortStop _ _ stops => exact ⟨_, _, _, run_of_failed (stops p.source)⟩
  | shortTake _ _ _ _ kind => exact absurd h kind

/-- A parser that fails for want of a token would take an end mark under view, and the run would
    end there. -/
theorem run_of_unended (h : p.step m = (.failed .unended, p')) (hmark : mark.kind = .endMark)
    (hnext : s.next = (.ok mark, rest)) :
    ∃ r ps os, run { p with source := s } m = (r, ⟨rest, mark, os, ps⟩) := by
  cases step_effect p m with
  | @shift m' ps os _ _ takes =>
    rw [run_of_more (takes.fetched hnext)]
    exact run_of_endMark (p := ⟨rest, mark, os, ps⟩) hmark
  | reject _ _ _ stops => simpa using h.symm.trans (stops p.source)
  | accept _ _ _ _ stops => simpa using h.symm.trans (stops p.source)
  | unreadable _ _ takes => exact ⟨_, _, _, run_of_failed (takes.fetched hnext)⟩
  | shortStop _ _ stops => simpa using h.symm.trans (stops p.source)
  | shortTake ps os _ _ _ _ takes => exact ⟨_, ps, os, run_of_failed (takes.fetched hnext)⟩

/-- A first call over tokens that end with an end mark, and whose numbers have values, succeeds or
    refuses a token. -/
theorem firstParse_append_endMark_cases
    (hnumber : ∀ t ∈ ts, t.kind = .number → ∃ x, t.number = .ok x)
    (hmark : mark.kind = .endMark) :
    (∃ tree, (TokenSource.given (ts ++ [mark])).firstParse = .ok tree) ∨
      ∃ err, (TokenSource.given (ts ++ [mark])).firstParse = .error (.grammar err) := by
  cases hfirst : (TokenSource.given (ts ++ [mark])).firstParse with
  | ok tree => exact .inl ⟨tree, rfl⟩
  | error f =>
    right
    rcases firstParse_given_eq_error hfirst with ⟨err, rfl⟩ | rfl | ⟨t, ht, err, -, hkind, hvalue⟩
    · exact ⟨err, rfl⟩
    · -- The source delivers a token as long as no end mark is under view.
      let R : TokenSource → TokenSource → Prop := fun s s' =>
        s = s' ∧ ∃ us, s = .given (us ++ [mark])
      have hR : ∀ s s', R s s' → InStep R (fun _ _ => False) s s' := by
        rintro s _ ⟨rfl, us, rfl⟩
        cases us with
        | nil => exact .inl ⟨mark, _, _, rfl, rfl, .inl hmark⟩
        | cons u us => exact .inl ⟨u, _, _, rfl, rfl, .inr ⟨rfl, us, rfl⟩⟩
      rcases TokenSource.firstParse_sameOutcome hR ⟨rfl, ts, rfl⟩ with
        ⟨-, hfetch⟩ | ⟨_, _, hfalse, -⟩
      · exact absurd (hfetch _ hfirst) (by decide)
      · exact hfalse.elim
    · rcases List.mem_append.1 ht with ht | ht
      · obtain ⟨x, hx⟩ := hnumber t ht hkind
        simp [hx] at hvalue
      · simp [List.mem_singleton.1 ht, hmark] at hkind

/-- Tokens without an end mark are refused at one of them, and then also with an end mark after
    them, or they are too few, and with an end mark after them the call ends at this mark. -/
theorem exists_parse_append_endMark (hts : ∀ t ∈ ts, t.kind ≠ .endMark)
    (hnumber : ∀ t ∈ ts, t.kind = .number → ∃ x, t.number = .ok x)
    (hmark : mark.kind = .endMark) :
    ∃ p r q, ofSource (.given (ts ++ [mark])) = .ok p ∧ p.parse = (r, q) ∧
      ((∃ before after err, ts = before ++ q.current :: after ∧
          q.source = .given (after ++ [mark]) ∧ r = .error (.grammar err) ∧
          (TokenSource.given ts).firstParse = .error (.grammar err)) ∨
        (q.current = mark ∧ q.source = .given [] ∧
          (TokenSource.given ts).firstParse = .error .unended)) := by
  cases ts with
  | nil =>
    refine ⟨⟨.given [], mark, [], []⟩, _, _, rfl, if_pos hmark, .inr ⟨rfl, rfl, rfl⟩⟩
  | cons t ts =>
    have hkind : t.kind ≠ .endMark := hts t (by simp)
    let p : Parser := ⟨.given (ts ++ [mark]), t, [], []⟩
    have hparse : p.parse = p.run .operand := if_neg hkind
    have hfirst : (TokenSource.given (t :: ts)).firstParse =
        (run ⟨.given ts, t, [], []⟩ .operand).1 := by
      simp [TokenSource.firstParse, ofSource, TokenSource.next, parse, hkind]
    obtain ⟨before, rest, q, m, hreached, hlast⟩ := exists_reached t ts
    have hmem : q.current ∈ t :: ts := by simp [hreached.tokens]
    have hextended : t :: (ts ++ [mark]) = before ++ q.current :: (rest ++ [mark]) := by
      rw [← List.cons_append, hreached.tokens]
      simp
    rcases hlast with ⟨tree, q', hdone, -⟩ | ⟨f, q', hfailed, hrun⟩
    · exact absurd (step_eq_done hdone).2.1 (hts _ hmem)
    rw [hrun] at hfirst
    rcases hreached.failed_cases hfailed with
      ⟨err, rfl, -, -, -, hstops⟩ | ⟨rfl, rfl, -⟩ | ⟨err, rfl, hnum, hvalue⟩
    · have hrefused := hreached.run_eq_error hstops hextended
      exact ⟨p, _, _, rfl, hparse.trans hrefused,
        .inl ⟨before, rest, err, hreached.tokens, rfl, rfl, hfirst⟩⟩
    · -- The last token was taken, so that with an end mark the run goes on by one token.
      have hnext : (TokenSource.given [mark]).next = (.ok mark, .given []) := rfl
      obtain ⟨r, ps, os, hend⟩ := run_of_unended hfailed hmark hnext
      exact ⟨p, r, _, rfl, (hparse.trans (hreached.run_eq _ _ hextended)).trans hend,
        .inr ⟨rfl, rfl, hfirst⟩⟩
    · obtain ⟨x, hx⟩ := hnumber _ hmem hnum
      simp [hx] at hvalue

end ArithJit.Parser

namespace ArithJit

open ArithJit.Parser

variable {c : Cursor} {source : String} {ts : List Token} {mark t : Token} {e : LexError}

theorem Cursor.Delivers.kind_ne_endMark (h : c.Delivers ts (some e)) (ht : t ∈ ts) :
    t.kind ≠ .endMark := by
  intro kind
  obtain ⟨before, after, rfl⟩ := List.append_of_mem ht
  simpa using (h.eq_of_endMark kind).2

/-- A text that is lexed to its end is read as the list of its tokens is. -/
theorem readExpr_of_tokens (h : tokens source = .ok ts) :
    (readExpr source).result = (TokenSource.given ts).firstParse := by
  obtain ⟨us, r, hdelivers, hsame⟩ := exists_delivers_sameOutcome source
  rw [tokens, hdelivers.tokens_eq] at h
  cases r with
  | some err => simp at h
  | none =>
    obtain rfl := Except.ok.inj h
    rcases hsame with ⟨heq, -⟩ | ⟨_, _, ⟨_, hnone, -⟩, -⟩
    · exact heq
    · simp at hnone

/-- A text that is not lexed to its end yields tokens up to the lexical error. -/
theorem exists_yields_of_tokens_error (h : tokens source = .error e) :
    ∃ ts l l', (Lexer.reading source).Yields ts l ∧ l.next = (.error e, l') := by
  obtain ⟨ts, r, hdelivers⟩ := (Cursor.ofText source).exists_delivers
  rw [tokens, hdelivers.tokens_eq] at h
  cases r with
  | none => simp at h
  | some err =>
    obtain rfl := Except.error.inj h
    obtain ⟨l, l', hyields, hnext⟩ := Lexer.exists_yields (l := .reading source) hdelivers rfl
    exact ⟨ts, l, l', hyields, hnext⟩

/-- A text that yields tokens and then fails is refused if they are, and fails with the lexical
    error if they are too few. -/
theorem readExpr_of_yields {l l' : Lexer} (hyields : (Lexer.reading source).Yields ts l)
    (hnext : l.next = (.error e, l')) :
    (∀ err, (TokenSource.given ts).firstParse = .error (.grammar err) →
        (readExpr source).result = .error (.grammar err)) ∧
      ((TokenSource.given ts).firstParse = .error .unended →
        (readExpr source).result = .error (.lexical e)) := by
  obtain ⟨hphase, hdelivers⟩ := hyields.delivers hnext
  rcases readExpr_result source ▸ hdelivers.sameOutcome hphase with
    ⟨heq, hfetch⟩ | ⟨_, _, ⟨_, herr, rfl, rfl⟩, hread, hunended⟩
  · refine ⟨fun err hfirst => heq.trans hfirst, fun hfirst => ?_⟩
    exact absurd (hfetch _ (heq.trans hfirst)) (by decide)
  · obtain rfl := Option.some.inj herr
    refine ⟨fun err hfirst => ?_, fun _ => hread⟩
    simp [hfirst] at hunended

/-- A text is parsed while it is lexed with the outcome of doing the one after the other, if it is
    lexed to its end: the same tree with the same places, or the same grammatical error. Every other
    text yields some tokens and then a lexical error. Over these tokens and an end mark the parser
    either stops with one of them under view, refusing it, and the text is refused with the same
    error, or it stops at the end mark, whether it succeeds or not, and the text fails with the
    lexical error. -/
theorem parseText_leftmost_error (source : String) :
    (∀ ts, tokens source = .ok ts →
      (parseText source).result = (TokenSource.given ts).firstParse.mapError .ofParse ∧
      ((∃ tree, (parseText source).result = .ok tree) ∨
        ∃ err, (parseText source).result = .error (.grammar err))) ∧
    (∀ e, tokens source = .error e →
      ∃ ts l l', (Lexer.reading source).Yields ts l ∧ l.next = (.error e, l')) ∧
    ∀ ts l l' e, (Lexer.reading source).Yields ts l → l.next = (.error e, l') →
      ∀ mark : Token, mark.kind = .endMark →
        ∃ p r q, Parser.ofSource (.given (ts ++ [mark])) = .ok p ∧ p.parse = (r, q) ∧
          ((∃ before after err, ts = before ++ q.current :: after ∧
              q.source = .given (after ++ [mark]) ∧ r = .error (.grammar err) ∧
              (parseText source).result = .error (.grammar err)) ∨
            (q.current = mark ∧ q.source = .given [] ∧
              ((∃ tree, r = .ok tree) ∨ ∃ err, r = .error (.grammar err)) ∧
              (parseText source).result = .error (.lexical e))) := by
  rw [parseText_result]
  refine ⟨fun ts htokens => ⟨by rw [readExpr_of_tokens htokens], ?_⟩,
    fun e herror => exists_yields_of_tokens_error herror, ?_⟩
  · cases hread : (readExpr source).result with
    | ok tree => exact .inl ⟨tree, rfl⟩
    | error f =>
      rcases readExpr_eq_error hread with ⟨err, -, herror⟩ | ⟨err, rfl⟩
      · simp [htokens] at herror
      · exact .inr ⟨err, rfl⟩
  · intro ts l l' e hyields hnext mark hmark
    have hdelivers := (hyields.delivers hnext).2
    have hnumber : ∀ t ∈ ts, t.kind = .number → ∃ x, t.number = .ok x :=
      fun t ht => hdelivers.exists_number ht
    obtain ⟨hgrammar, hlexical⟩ := readExpr_of_yields hyields hnext
    obtain ⟨p, r, q, hp, hparse, hstop⟩ :=
      exists_parse_append_endMark (fun t ht => hdelivers.kind_ne_endMark ht) hnumber hmark
    have hr : (TokenSource.given (ts ++ [mark])).firstParse = r := by
      simp [TokenSource.firstParse, hp, hparse]
    refine ⟨p, r, q, hp, hparse, ?_⟩
    rcases hstop with
      ⟨before, after, err, hts, hsource, hrefused, hfirst⟩ | ⟨hcurrent, hsource, hfirst⟩
    · exact .inl ⟨before, after, err, hts, hsource, hrefused, by rw [hgrammar err hfirst]; rfl⟩
    · exact .inr ⟨hcurrent, hsource, hr ▸ firstParse_append_endMark_cases hnumber hmark,
        by rw [hlexical hfirst]; rfl⟩

end ArithJit
