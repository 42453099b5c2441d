import ArithJit.Proofs.Decimal.Numeral
import ArithJit.Proofs.Parser.Sources

/-!
# What a stream of tokens delivers

From each place in a text a lexer delivers some tokens, and then it has come to the end mark, which
is the last of them, or to an error. `Cursor.Delivers` says so without the laziness: lexing the
text as a whole gives the same tokens or the same error, and a parser that reads from the stream
does what it would do on the list of the tokens delivered.

Every number that is delivered has a value, since its lexeme is a plain decimal.
-/

namespace ArithJit

/-- A run that has a digit is a plain decimal. -/
theorem isPlain_numberLexeme {cs : List Char} (hne : numberLexeme cs ≠ [])
    (hpoint : numberLexeme cs ≠ ['.']) : Numeral.IsPlain (numberLexeme cs) := by
  have hdigits (xs : List Char) : ∀ c ∈ xs.takeWhile Char.isDigit, c.isDigit = true :=
    fun c hc => List.mem_takeWhile_imp hc
  generalize hlexeme : numberLexeme cs = lexeme at *
  unfold numberLexeme at hlexeme
  split at hlexeme
  · next more _ =>
    subst hlexeme
    refine .pointed (hdigits cs) (hdigits more) fun hnil => hpoint ?_
    obtain ⟨hwhole, hfraction⟩ := List.append_eq_nil_iff.1 hnil
    rw [hwhole, hfraction, List.nil_append]
  · rw [List.append_nil] at hlexeme
    subst hlexeme
    exact .whole (hdigits cs) hne

namespace Cursor

variable {c c' : Cursor} {t mark : Token} {ts before after : List Token} {r : Option LexError}

theorem isPlain_of_scanToken (h : c.scanToken = (.ok t, c')) (ht : t.kind = .number) :
    Numeral.IsPlain t.lexeme.toList := by
  unfold scanToken at h
  split at h
  · simp only [Prod.mk.injEq, Except.ok.injEq] at h
    simp [← h.1] at ht
  · next x xs hrest =>
    split at h
    · next hx =>
      simp only [scanNumber] at h
      split at h
      · simp at h
      · split at h
        · simp at h
        · next hpoint =>
          simp only [take, Prod.mk.injEq, Except.ok.injEq] at h
          rw [← h.1, String.toList_ofList]
          exact isPlain_numberLexeme (hrest ▸ numberLexeme_ne_nil hx) hpoint
    · split at h
      · next kind hkind =>
        simp only [take, Prod.mk.injEq, Except.ok.injEq] at h
        rw [← h.1] at ht
        subst ht
        -- No single character makes a number.
        simp only [TokenKind.ofChar?] at hkind
        grind
      · simp at h

/-- The tokens that are scanned from a cursor on: up to the end mark, or up to an error. -/
inductive Delivers : Cursor → List Token → Option LexError → Prop
  | failed {c c' : Cursor} {e : LexError} (scan : c.scan = (.error e, c')) :
      Delivers c [] (some e)
  | ended {c c' : Cursor} {mark : Token} (scan : c.scan = (.ok mark, c'))
      (kind : mark.kind = .endMark) : Delivers c [mark] none
  | token {c c' : Cursor} {t : Token} {ts : List Token} {r : Option LexError}
      (scan : c.scan = (.ok t, c')) (kind : t.kind ≠ .endMark) (rest : Delivers c' ts r) :
      Delivers c (t :: ts) r

theorem exists_delivers (c : Cursor) : ∃ ts r, c.Delivers ts r := by
  induction hn : c.rest.length using Nat.strongRecOn generalizing c with
  | _ n ih =>
    subst hn
    rcases hscan : c.scan with ⟨e | t, c'⟩
    · exact ⟨[], some e, .failed hscan⟩
    · by_cases kind : t.kind = .endMark
      · exact ⟨[t], none, .ended hscan kind⟩
      · obtain ⟨ts, r, hrest⟩ := ih _ (length_rest_scan hscan kind) c' rfl
        exact ⟨t :: ts, r, .token hscan kind hrest⟩

theorem tokens_of_error {e : LexError} (h : c.scan = (.error e, c')) : c.tokens = .error e := by
  rw [tokens]
  split <;> simp_all

theorem tokens_of_endMark (h : c.scan = (.ok mark, c')) (hmark : mark.kind = .endMark) :
    c.tokens = .ok [mark] := by
  rw [tokens]
  split <;> simp_all

theorem tokens_of_token (h : c.scan = (.ok t, c')) (ht : t.kind ≠ .endMark) :
    c.tokens = c'.tokens.map (t :: ·) := by
  rw [tokens]
  split <;> simp_all

/-- Lexing as a whole gives the tokens delivered, unless there is an error. -/
theorem Delivers.tokens_eq (h : c.Delivers ts r) : c.tokens = r.elim (.ok ts) .error := by
  induction h with
  | failed scan => exact tokens_of_error scan
  | ended scan kind => exact tokens_of_endMark scan kind
  | @token _ _ _ _ r scan kind rest ih =>
    rw [tokens_of_token scan kind, ih]
    cases r with
    | none => rfl
    | some e => rfl

/-- An end mark is the last token delivered. -/
theorem Delivers.eq_of_endMark (h : c.Delivers (before ++ mark :: after) r)
    (hmark : mark.kind = .endMark) : after = [] ∧ r = none := by
  induction before generalizing c with
  | nil =>
    cases h with
    | ended => exact ⟨rfl, rfl⟩
    | token _ kind => exact absurd hmark kind
  | cons t before ih =>
    generalize hrest : before ++ mark :: after = rest at h
    rw [List.cons_append, hrest] at h
    cases h with
    | ended => simp at hrest
    | token _ _ h => exact ih (hrest ▸ h)

theorem Delivers.isPlain (h : c.Delivers ts r) (ht : t ∈ ts) (kind : t.kind = .number) :
    Numeral.IsPlain t.lexeme.toList := by
  induction h with
  | failed => simp at ht
  | ended _ hmark => simp_all
  | token scan _ _ ih =>
    rcases List.mem_cons.1 ht with rfl | ht
    · exact isPlain_of_scanToken scan kind
    · exact ih ht

theorem Delivers.exists_number (h : c.Delivers ts r) (ht : t ∈ ts) (kind : t.kind = .number) :
    ∃ x, t.number = .ok x := by
  obtain ⟨x, hx⟩ := (h.isPlain ht kind).exists_read?
  rw [String.ofList_toList] at hx
  exact ⟨x, by simp [Token.number, kind, hx]⟩

/-- Reading from a stream is reading from the list of the tokens that it delivers. If the parser
    comes to the end of this list, the stream has come to its error. -/
theorem Delivers.sameOutcome {l : Lexer} (h : l.cursor.Delivers ts r)
    (hphase : l.phase = .reading) :
    Parser.SameOutcome (fun f f' => ∃ e, r = some e ∧ f = .lexical e ∧ f' = .unended)
      (TokenSource.lexer l).firstParse (TokenSource.given ts).firstParse := by
  let R : TokenSource → TokenSource → Prop := fun s s' =>
    ∃ (l : Lexer) (ts : List Token), l.phase = .reading ∧ l.cursor.Delivers ts r ∧
      s = .lexer l ∧ s' = .given ts
  apply TokenSource.firstParse_sameOutcome (R := R) ?_ ⟨l, ts, hphase, h, rfl, rfl⟩
  rintro _ _ ⟨l, ts, hphase, h, rfl, rfl⟩
  cases h with
  | @failed _ c' e scan =>
    refine .inr ⟨.lexical e, .unended, .lexer { l with cursor := c', phase := .failed }, .given [],
      ?_, rfl, e, rfl, rfl, rfl⟩
    simp only [TokenSource.next, Lexer.next, hphase, scan, if_true]
  | @ended _ c' mark scan kind =>
    refine .inl ⟨mark, .lexer { l with cursor := c', phase := .finished }, .given [], ?_, rfl,
      .inl kind⟩
    simp only [TokenSource.next, Lexer.next, hphase, scan, kind, if_true]
  | @token _ c' t us _ scan kind rest =>
    refine .inl ⟨t, .lexer { l with cursor := c', delivered := l.delivered + 1 }, .given us, ?_,
      rfl, .inr ⟨{ l with cursor := c', delivered := l.delivered + 1 }, us, hphase, rest, rfl,
      rfl⟩⟩
    simp only [TokenSource.next, Lexer.next, hphase, scan, kind, if_true, if_false]

end Cursor

end ArithJit
