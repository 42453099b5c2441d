import ArithJit.Proofs.Expr.Span
import ArithJit.Proofs.Token.Offence

/-!
# Places are right

A place counts characters, lines and columns. Here it is compared with the text before it: with its
characters, with its bytes in UTF-8, with its line feeds and with what follows the last of them.

Characters and bytes agree because a lexer only ever passes over characters of the alphabet, each of
which is one byte. `Cursor.StandsIn` is the invariant that says so; a scan keeps it, whatever its
outcome, and what a scan delivers has the place of a cursor on the way. Trees and grammatical errors
have no other places than those of tokens.
-/

namespace ArithJit

namespace Location

/-- The place where a text ends, right in all its coordinates: the offset is the number of
    characters and the number of bytes, the line counts the line feeds and the column what follows
    the last of them, both from one. -/
structure IsEnd (l : Location) (before : List Char) : Prop where
  offset : l.offset = before.length
  bytes : l.offset = (String.ofList before).utf8ByteSize
  line : l.line = 1 + before.count '\n'
  column : l.column = 1 + (before.rtakeWhile (· ≠ '\n')).length

/-- The place of a position in a text. -/
def IsIn (l : Location) (source : String) : Prop :=
  ∃ before after, source.toList = before ++ after ∧ l.IsEnd before

theorem line_after (l : Location) (cs : List Char) :
    (l.after cs).line = l.line + cs.count '\n' := by
  induction cs generalizing l with
  | nil => simp
  | cons c cs ih =>
    rw [after_cons, ih, List.count_cons]
    unfold advance
    split
    · next hc => simp [hc, Int.add_assoc, Int.add_comm 1]
    · next hc => simp [hc]

theorem column_after (cs : List Char) :
    (start.after cs).column = 1 + (cs.rtakeWhile (· ≠ '\n')).length := by
  induction cs using List.reverseRecOn with
  | nil => rfl
  | append_singleton cs c ih =>
    rw [after_append, after_cons, after_nil, advance]
    by_cases hc : c = '\n'
    · rw [if_pos hc, List.rtakeWhile_concat_neg _ _ _ (by simp [hc])]
      rfl
    · rw [if_neg hc, List.rtakeWhile_concat_pos _ _ _ (by simp [hc]), ih, List.length_append]
      simp [Int.add_assoc]

theorem utf8ByteSize_of_alphabet {cs : List Char} (h : ∀ c ∈ cs, c ∈ alphabet) :
    (String.ofList cs).utf8ByteSize = cs.length := by
  have hall : alphabet.all (·.utf8Size = 1) = true := by decide
  have hone (c : Char) (hc : c ∈ alphabet) : c.utf8Size = 1 := by
    simpa using List.all_eq_true.1 hall c hc
  induction cs with
  | nil => rfl
  | cons c cs ih =>
    have hsplit : String.ofList (c :: cs) = String.singleton c ++ String.ofList cs := by
      rw [String.singleton_eq_ofList, ← String.ofList_append]
      rfl
    rw [hsplit, String.utf8ByteSize_append, String.utf8ByteSize_singleton, hone c (h c (by simp)),
      ih fun x hx => h x (List.mem_cons_of_mem c hx), List.length_cons]
    omega

/-- Counting over characters of the alphabet leads to the right place. -/
theorem isEnd_after {cs : List Char} (h : ∀ c ∈ cs, c ∈ alphabet) : (start.after cs).IsEnd cs where
  offset := by
    rw [offset_after]
    simp [start]
  bytes := by
    rw [offset_after, utf8ByteSize_of_alphabet h]
    simp [start]
  line := by
    rw [line_after]
    rfl
  column := column_after cs

end Location

/-! ## Lexing -/

variable {source : String} {place : Location} {r : Except LexError Token} {c c' : Cursor}
  {ts : List Token} {t : Token}

namespace Cursor

/-- A cursor stands in a text: what it has passed over is of the alphabet, and its place is where
    this ends. -/
def StandsIn (c : Cursor) (source : String) : Prop :=
  ∃ before, source.toList = before ++ c.rest ∧ (∀ x ∈ before, x ∈ alphabet) ∧
    c.place = Location.start.after before

/-- What a scan delivers and where it stops: tokens and errors have places in the text, and the
    cursor still stands in it. -/
structure ScansIn (scanned : Except LexError Token × Cursor) (source : String) : Prop where
  token : ∀ t, scanned.1 = .ok t → t.place.IsIn source
  error : ∀ e, scanned.1 = .error e → e.place.IsIn source
  cursor : scanned.2.StandsIn source

theorem standsIn_ofText (source : String) : (ofText source).StandsIn source :=
  ⟨[], rfl, by simp, rfl⟩

/-- A cursor that stands in a text has advanced from its start over some characters, and was at the
    right place after each of them. -/
theorem StandsIn.exists_advance (h : c.StandsIn source) :
    ∃ n ≤ source.toList.length, c = (ofText source).advance n ∧
      ∀ k ≤ n, ((ofText source).advance k).place.IsEnd (source.toList.take k) := by
  obtain ⟨before, hsource, halphabet, hplace⟩ := h
  refine ⟨before.length, by simp [hsource], ?_, fun k hk => ?_⟩
  · rw [ofText, hsource, advance_append, ← hplace]
  · show (Location.start.after (source.toList.take k)).IsEnd (source.toList.take k)
    apply Location.isEnd_after
    intro x hx
    rw [hsource, List.take_append_of_le_length hk] at hx
    exact halphabet x (List.mem_of_mem_take hx)

theorem StandsIn.isIn (h : c.StandsIn source) : c.place.IsIn source := by
  obtain ⟨n, -, rfl, hend⟩ := h.exists_advance
  exact ⟨source.toList.take n, source.toList.drop n, by simp, hend n (Nat.le_refl n)⟩

theorem StandsIn.append {xs ys : List Char} (h : StandsIn ⟨xs ++ ys, place⟩ source)
    (hxs : ∀ x ∈ xs, x ∈ alphabet) : StandsIn ⟨ys, place.after xs⟩ source := by
  obtain ⟨before, hsource, halphabet, rfl⟩ := h
  refine ⟨before ++ xs, by simpa using hsource, fun x hx => ?_, by simp⟩
  rcases List.mem_append.1 hx with hx | hx
  · exact halphabet x hx
  · exact hxs x hx

theorem StandsIn.skipBlanks (h : c.StandsIn source) : c.skipBlanks.StandsIn source := by
  obtain ⟨gap, rest, hsplit, hgap, hskip⟩ := c.exists_skipBlanks
  obtain ⟨cs, place⟩ := c
  simp only at hsplit
  subst hsplit
  rw [hskip]
  exact h.append fun x hx => mem_alphabet_iff.2 (.inl (isGap_iff.1 hgap x hx))

theorem StandsIn.scanNumber (h : c.StandsIn source) : ScansIn c.scanNumber source := by
  obtain ⟨cs, place⟩ := c
  obtain ⟨rest, hsplit, -⟩ := exists_numberLexeme_append cs
  have hadvance := advance_append (numberLexeme cs) rest place
  rw [← hsplit] at hadvance
  have hafter : StandsIn ⟨rest, place.after (numberLexeme cs)⟩ source := by
    rw [hsplit] at h
    exact h.append fun x hx => mem_alphabet_iff.2 (.inr (.inl (isPlainChar_of_mem_numberLexeme hx)))
  simp only [Cursor.scanNumber, hadvance, take]
  -- A second point is reported behind the run, a lone point where the run begins.
  split
  · exact ⟨by simp, by simpa [LexError.place] using hafter.isIn, hafter⟩
  · split
    · exact ⟨by simp, by simpa [LexError.place] using h.isIn, hafter⟩
    · exact ⟨by simpa using h.isIn, by simp, hafter⟩

theorem StandsIn.scanToken (h : c.StandsIn source) : ScansIn c.scanToken source := by
  unfold Cursor.scanToken
  split
  · exact ⟨by simpa using h.isIn, by simp, h⟩
  · next x xs hrest =>
    split
    · exact h.scanNumber
    · split
      · next kind hkind =>
        have hadvance : c.advance [x].length = ⟨xs, c.place.after [x]⟩ := by simp [advance, hrest]
        have hafter : StandsIn ⟨xs, c.place.after [x]⟩ source := by
          obtain ⟨cs, place⟩ := c
          simp only at hrest
          subst hrest
          have hcons : StandsIn ⟨[x] ++ xs, place⟩ source := h
          refine hcons.append fun y hy => ?_
          rw [List.mem_singleton.1 hy]
          exact mem_alphabet_iff.2 (.inr (.inr ⟨kind, hkind⟩))
        exact ⟨by simpa [take] using h.isIn, by simp [take], by rw [take, hadvance]; exact hafter⟩
      · exact ⟨by simp, by simpa [LexError.place] using h.isIn, h⟩

theorem StandsIn.scan (h : c.StandsIn source) : ScansIn c.scan source := h.skipBlanks.scanToken

/-- Whatever is delivered from a cursor in a text has its place there. -/
theorem Delivers.isIn {r : Option LexError} (hdelivers : c.Delivers ts r) (h : c.StandsIn source) :
    (∀ t ∈ ts, t.place.IsIn source) ∧ ∀ e, r = some e → e.place.IsIn source := by
  induction hdelivers with
  | @failed _ _ e scan =>
    have hscan := h.scan
    rw [scan] at hscan
    refine ⟨by simp, fun e' he => ?_⟩
    obtain rfl := Option.some.inj he
    exact hscan.error e rfl
  | @ended _ _ mark scan =>
    have hscan := h.scan
    rw [scan] at hscan
    refine ⟨fun t ht => ?_, by simp⟩
    rw [List.mem_singleton.1 ht]
    exact hscan.token mark rfl
  | @token _ _ t _ _ scan _ _ ih =>
    have hscan := h.scan
    rw [scan] at hscan
    obtain ⟨htokens, herror⟩ := ih hscan.cursor
    refine ⟨fun u hu => ?_, herror⟩
    rcases List.mem_cons.1 hu with rfl | hu
    · exact hscan.token u rfl
    · exact htokens u hu

end Cursor

namespace Lexer

variable {l : Lexer}

/-- The states of a stream of the tokens of a text, after any starts and deliveries. -/
inductive Reaches (source : String) : Lexer → Prop
  | fresh : Reaches source (.ofText source)
  | start {l l' : Lexer} (before : Reaches source l) (started : l.start? = some l') :
      Reaches source l'
  | next {l : Lexer} (before : Reaches source l) : Reaches source l.next.2

theorem cursor_of_start? {l' : Lexer} (h : l.start? = some l') : l'.cursor = l.cursor := by
  unfold start? at h
  split at h
  · rw [← Option.some.inj h]
  · simp at h

/-- One delivery keeps the cursor in the text, and what is delivered has its place there. -/
theorem next_standsIn (h : l.cursor.StandsIn source) :
    l.next.2.cursor.StandsIn source ∧
      (∀ t, l.next.1 = .ok (some t) → t.place.IsIn source) ∧
      ∀ e, l.next.1 = .error e → e.place.IsIn source := by
  have hscan := h.scan
  unfold next
  split
  · split
    · next t cursor heq =>
      rw [heq] at hscan
      split
      all_goals exact ⟨hscan.cursor, by simpa using hscan.token t rfl, by simp⟩
    · next e cursor heq =>
      rw [heq] at hscan
      exact ⟨hscan.cursor, by simp, by simpa using hscan.error e rfl⟩
  · exact ⟨h, by simp, by simp⟩

theorem Reaches.standsIn (h : Reaches source l) : l.cursor.StandsIn source := by
  induction h with
  | fresh => exact Cursor.standsIn_ofText source
  | start _ started ih => exact cursor_of_start? started ▸ ih
  | next _ ih => exact (next_standsIn ih).1

end Lexer

/-! ## Parsing -/

/-- The places that a grammatical error holds: that of the token refused, and that of the
    parenthesis that is not closed. -/
def ParseError.places : ParseError → List Location
  | .operandExpected found | .closeExpected found | .trailing found => [found.place]
  | .unclosed opened place => [opened, place]
  | .empty place => [place]

theorem Derives.exists_token_of_within {n : Nonterminal} {e : Expr} {s : Span}
    (h : Derives n ts e) (hs : (e.span 0).Within s) : ∃ t ∈ ts, s.node.place = some t.place := by
  have hroot := Span.isDerived_span h [] []
  rw [List.nil_append, List.append_nil] at hroot
  obtain ⟨n, before, us, after, rfl, -, -, hnode⟩ := hroot.within hs
  obtain ⟨t, rest, rfl, hplace, -⟩ := hnode.place_eq
  exact ⟨t, by simp, hplace⟩

namespace Parser

/-- An open parenthesis on the stack has the place of a token. -/
theorem Awaiting.exists_token {ps : List Pending} {os : List Expr} (h : Awaiting ps os ts)
    (hopen : .openParen place ∈ ps) : ∃ t ∈ ts, t.place = place := by
  induction h with
  | start => simp at hopen
  | negation _ _ ih | operator _ _ _ _ ih =>
    obtain ⟨t, ht, hplace⟩ := ih (by simpa using hopen)
    exact ⟨t, by simp [ht], hplace⟩
  | @openParen u ps os ts _ _ ih =>
    rcases List.mem_cons.1 hopen with heq | hopen
    · exact ⟨u, by simp, (Pending.openParen.inj heq).symm⟩
    · obtain ⟨t, ht, hplace⟩ := ih hopen
      exact ⟨t, by simp [ht], hplace⟩

theorem Covers.exists_token {m : Mode} {ps : List Pending} {os : List Expr}
    (h : Covers m ps os ts) (hopen : ps.findSome? Pending.openPlace? = some place) :
    ∃ t ∈ ts, t.place = place := by
  obtain ⟨entry, hmem, hentry⟩ := List.exists_of_findSome?_eq_some hopen
  obtain rfl : entry = .openParen place := by
    cases entry <;> simp_all [Pending.openPlace?]
  cases m with
  | operand => exact Awaiting.exists_token h hmem
  | operator =>
    obtain ⟨below, -, -⟩ := h
    obtain ⟨t, ht, hplace⟩ := below.exists_token hmem
    exact ⟨t, by simp [ht], hplace⟩

/-- The places of an error are those of tokens up to the one that is refused. -/
theorem Rejects.exists_token {m : Mode} {ps : List Pending} {os : List Expr} {err : ParseError}
    (h : Rejects t m ps os err) (hcovers : Covers m ps os ts) :
    ∀ l ∈ err.places, ∃ u ∈ ts ++ [t], u.place = l := by
  have hself {l : Location} (hl : l ∈ [t.place]) : ∃ u ∈ ts ++ [t], u.place = l :=
    ⟨t, by simp, (List.mem_singleton.1 hl).symm⟩
  intro l hl
  cases h with
  | operand | unopened | closeExpected | trailing => exact hself hl
  | unclosed _ innermost =>
    rcases List.mem_cons.1 hl with rfl | hl
    · obtain ⟨u, hu, hplace⟩ := hcovers.exists_token innermost
      exact ⟨u, by simp [hu], hplace⟩
    · exact hself hl

end Parser

/-- The places of a grammatical error are those of tokens. -/
theorem firstParse_given_error_places {err : ParseError}
    (h : (TokenSource.given ts).firstParse = .error (.grammar err)) :
    ∀ l ∈ err.places, ∃ t ∈ ts, t.place = l := by
  cases ts with
  | nil => simp [TokenSource.firstParse, Parser.ofSource, TokenSource.next] at h
  | cons t ts =>
    simp only [TokenSource.firstParse, Parser.ofSource, TokenSource.next, Parser.parse] at h
    split at h
    · obtain rfl : _ = err := by simpa using h
      exact fun l hl => ⟨t, by simp, (List.mem_singleton.1 hl).symm⟩
    · obtain ⟨before, rest, q, m, hreached, hfailed⟩ :=
        Parser.exists_reached_of_error (Prod.ext h rfl)
      rcases hreached.failed_cases hfailed with ⟨err', heq, hrejects, -⟩ | ⟨heq, -⟩ | ⟨_, heq, -⟩
      · obtain rfl := ParseFailure.grammar.inj heq
        intro l hl
        obtain ⟨u, hu, hplace⟩ := hrejects.exists_token hreached.covers l hl
        refine ⟨u, ?_, hplace⟩
        rw [hreached.tokens]
        rcases List.mem_append.1 hu with hu | hu
        · exact List.mem_append_left _ hu
        · rw [List.mem_singleton.1 hu]
          simp
      · simp at heq
      · simp at heq

theorem readExpr_of_parseText_error {f : Failure} (h : (parseText source).result = .error f) :
    ∃ g, (readExpr source).result = .error g ∧ Failure.ofParse g = f := by
  rw [parseText_result] at h
  cases hread : (readExpr source).result with
  | ok tree => simp [hread, Except.mapError] at h
  | error g => exact ⟨g, rfl, by simpa [hread, Except.mapError] using h⟩

theorem tokens_isIn (source : String) :
    (∀ ts, tokens source = .ok ts → ∀ t ∈ ts, t.place.IsIn source) ∧
      ∀ e, tokens source = .error e → e.place.IsIn source := by
  obtain ⟨us, r, hdelivers⟩ := (Cursor.ofText source).exists_delivers
  have htokens : tokens source = r.elim (.ok us) .error := hdelivers.tokens_eq
  obtain ⟨hplaces, herror⟩ := hdelivers.isIn (Cursor.standsIn_ofText source)
  cases r with
  | none =>
    refine ⟨fun ts hts => ?_, fun e he => by simp [htokens] at he⟩
    obtain rfl := Except.ok.inj (htokens.symm.trans hts)
    exact hplaces
  | some e' =>
    refine ⟨fun ts hts => by simp [htokens] at hts, fun e he => ?_⟩
    obtain rfl := Except.error.inj (htokens.symm.trans he)
    exact herror e' rfl

/-- A text that is refused by the grammar is so with places of its own. -/
theorem readExpr_error_places {err : ParseError}
    (h : (readExpr source).result = .error (.grammar err)) : ∀ l ∈ err.places, l.IsIn source := by
  obtain ⟨ts, r, hdelivers, hsame⟩ := exists_delivers_sameOutcome source
  have hplaces := (hdelivers.isIn (Cursor.standsIn_ofText source)).1
  rcases hsame with ⟨heq, -⟩ | ⟨_, _, ⟨_, -, rfl, -⟩, hlexical, -⟩
  · intro l hl
    obtain ⟨t, ht, rfl⟩ := firstParse_given_error_places (heq.symm.trans h) l hl
    exact hplaces t ht
  · simp [h] at hlexical

/-- Every place that is reported for a text is right in all its coordinates: those of its tokens, of
    its lexical error, of all nodes of its tree, and of its grammatical error with the parenthesis
    that this may name. A stream of its tokens, whatever was asked of it, has advanced over some
    characters, and was at the right place after each of them. -/
theorem places_right (source : String) :
    (∀ ts, tokens source = .ok ts → ∀ t ∈ ts, t.place.IsIn source) ∧
    (∀ e, tokens source = .error e → e.diagnostic.place = some e.place ∧ e.place.IsIn source) ∧
    (∀ tree, (parseText source).result = .ok tree →
      ∀ s, (tree.span 0).Within s → ∃ l, s.node.place = some l ∧ l.IsIn source) ∧
    (∀ err, (parseText source).result = .error (.grammar err) →
      (∃ l ∈ err.places, err.diagnostic.place = some l) ∧ ∀ l ∈ err.places, l.IsIn source) ∧
    (∀ e, (parseText source).result = .error (.lexical e) → e.place.IsIn source) ∧
    ∀ l, Lexer.Reaches source l →
      (∃ n ≤ source.toList.length, l.cursor = (Cursor.ofText source).advance n ∧
        ∀ k ≤ n, ((Cursor.ofText source).advance k).place.IsEnd (source.toList.take k)) ∧
      (∀ t, l.next.1 = .ok (some t) → t.place.IsIn source) ∧
      ∀ e, l.next.1 = .error e → e.place.IsIn source := by
  obtain ⟨htokens, hlexical⟩ := tokens_isIn source
  refine ⟨htokens, fun e he => ⟨?_, hlexical e he⟩, fun tree htree s hs => ?_,
    fun err herr => ⟨?_, ?_⟩, fun e he => ?_, fun l hl => ?_⟩
  · cases e <;> rfl
  · obtain ⟨ts, mark, hts, -, hderives⟩ := parseText_eq_ok_iff.1 htree
    obtain ⟨t, ht, hplace⟩ := hderives.exists_token_of_within hs
    exact ⟨t.place, hplace, htokens _ hts t (List.mem_append_left _ ht)⟩
  · cases err <;> exact ⟨_, by simp [ParseError.places], rfl⟩
  · obtain ⟨g, hread, hg⟩ := readExpr_of_parseText_error herr
    cases g <;> simp only [Failure.ofParse, Failure.grammar.injEq, reduceCtorEq] at hg
    subst hg
    exact readExpr_error_places hread
  · obtain ⟨g, hread, hg⟩ := readExpr_of_parseText_error he
    rcases readExpr_eq_error hread with ⟨e', rfl, herror⟩ | ⟨err, rfl⟩
    · obtain rfl := Failure.lexical.inj hg
      exact hlexical e' herror
    · simp [Failure.ofParse] at hg
  · obtain ⟨-, hnext⟩ := Lexer.next_standsIn hl.standsIn
    exact ⟨hl.standsIn.exists_advance, hnext⟩

end ArithJit
