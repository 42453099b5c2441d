import ArithJit.Proofs.Token.Lexeme
import Mathlib.Data.List.Chain

/-!
# The lexical grammar

A text splits into words and blanks at its end. A word is a lexeme with the blanks before it. Two
numbers may not touch, for together they would be one number or none.

The lexer accepts exactly the texts that split, and delivers the lexemes of their words. Which texts
may follow a number is the same question both ways, and `SplitsInto.startsPlain_iff` answers it.
-/

namespace ArithJit

/-- A lexeme with its kind, and what stands before it. -/
structure Word where
  gap : List Char
  kind : TokenKind
  lexeme : List Char
  deriving DecidableEq, Repr

namespace Word

/-- The characters of a word. -/
def chars (w : Word) : List Char := w.gap ++ w.lexeme

/-- Blanks stand before a lexeme of the kind that is given. -/
structure IsValid (w : Word) : Prop where
  gap : IsGap w.gap
  lexeme : IsLexeme w.kind w.lexeme

/-- If both words are numbers, blanks stand between them. -/
def Apart (v w : Word) : Prop := v.kind = .number → w.kind = .number → w.gap ≠ []

/-- The kinds and lexemes of words with the offsets of the lexemes, the first word being at a given
    offset. -/
def entries : Int → List Word → List (TokenKind × String × Int)
  | _, [] => []
  | offset, w :: ws =>
      (w.kind, String.ofList w.lexeme, offset + w.gap.length) ::
        entries (offset + w.chars.length) ws

end Word

/-- The text is made of the words and the blanks after them. -/
structure SplitsInto (cs : List Char) (ws : List Word) (trailing : List Char) : Prop where
  text : cs = ws.flatMap Word.chars ++ trailing
  valid : ∀ w ∈ ws, w.IsValid
  apart : ws.IsChain Word.Apart
  trailing : IsGap trailing

/-- What of a token the lexical grammar speaks of: its kind, its lexeme and its offset. -/
def Token.entry (t : Token) : TokenKind × String × Int := (t.kind, t.lexeme, t.place.offset)

/-! ## One scan -/

namespace Cursor

variable {rest gap : List Char} {place : Location} {t : Token} {s c' : Cursor}

/-- Over a word a scan delivers its lexeme. -/
theorem scan_word {w : Word} (h : w.IsValid) (hrest : w.kind = .number → ¬StartsPlain rest) :
    scan ⟨w.chars ++ rest, place⟩ =
      (.ok ⟨w.kind, String.ofList w.lexeme, place.after w.gap⟩,
        ⟨rest, place.after w.chars⟩) := by
  obtain ⟨c, cs, hcons, hblank, -⟩ := h.lexeme.exists_cons
  have hhead : ∀ x ∈ (w.lexeme ++ rest).head?, Text.isBlank x = false := by
    intro x hx
    rw [hcons] at hx
    obtain rfl := Option.some.inj hx
    exact hblank
  rw [scan, Word.chars, List.append_assoc, skipBlanks_append h.gap hhead,
    scanToken_append h.lexeme hrest, Location.after_append]

/-- Over blanks to the end of the text a scan delivers the end mark. -/
theorem scan_gap (h : IsGap gap) :
    scan ⟨gap, place⟩ = (.ok ⟨.endMark, "", place.after gap⟩, ⟨[], place.after gap⟩) := by
  have hskip : skipBlanks ⟨gap ++ [], place⟩ = ⟨[], place.after gap⟩ :=
    skipBlanks_append h (by simp)
  rw [List.append_nil] at hskip
  rw [scan, hskip, scanToken]

/-- Whatever a scan delivers before the end mark is the lexeme of a word. -/
theorem exists_word_of_scan (h : s.scan = (.ok t, c')) (ht : t.kind ≠ .endMark) :
    ∃ w : Word, w.IsValid ∧ s.rest = w.chars ++ c'.rest ∧
      t.entry = (w.kind, String.ofList w.lexeme, s.place.offset + w.gap.length) ∧
      c'.place = s.place.after w.chars ∧ (w.kind = .number → ¬StartsPlain c'.rest) := by
  obtain ⟨gap, rest, hsplit, hgap, hskip⟩ := s.exists_skipBlanks
  rw [scan, hskip] at h
  obtain ⟨lexeme, hrest, hlexeme, htoken, hplace, hfollow⟩ := exists_of_scanToken h ht
  refine ⟨⟨gap, t.kind, lexeme⟩, ⟨hgap, hlexeme⟩, ?_, ?_, ?_, hfollow⟩
  · rw [hsplit, Word.chars, List.append_assoc, ← hrest]
  · rw [htoken, Token.entry, Location.offset_after]
  · rw [hplace, Word.chars, Location.after_append]

theorem isGap_of_scan (h : s.scan = (.ok t, c')) (ht : t.kind = .endMark) :
    IsGap s.rest ∧ t.entry = (.endMark, "", s.place.offset + s.rest.length) := by
  obtain ⟨gap, rest, hsplit, hgap, hskip⟩ := s.exists_skipBlanks
  rw [scan, hskip] at h
  obtain ⟨rfl, htoken⟩ := rest_eq_nil_of_scanToken h ht
  rw [List.append_nil] at hsplit
  refine ⟨hsplit ▸ hgap, ?_⟩
  rw [htoken, Token.entry, Location.offset_after, hsplit]

end Cursor

/-! ## Whole texts -/

namespace SplitsInto

variable {cs : List Char} {w : Word} {ws ws' : List Word} {trailing trailing' : List Char}

theorem nil (h : IsGap trailing) : SplitsInto trailing [] trailing :=
  ⟨rfl, by simp, .nil, h⟩

theorem isGap_of_nil (h : SplitsInto cs [] trailing) : IsGap cs := by
  rw [h.text]
  exact h.trailing

/-- A text that splits begins with a digit or a point exactly if its first word is a number with no
    blank before it. -/
theorem startsPlain_iff (h : SplitsInto cs ws trailing) :
    StartsPlain cs ↔ ∃ w ∈ ws.head?, w.kind = .number ∧ w.gap = [] := by
  rw [h.text]
  cases ws with
  | nil => simpa [StartsPlain] using h.trailing.not_startsPlain
  | cons w ws =>
    have hw := h.valid w (by simp)
    obtain ⟨c, cs, hcons, -, hplain⟩ := hw.lexeme.exists_cons
    cases hwgap : w.gap with
    | nil => simp [StartsPlain, Word.chars, hwgap, hcons, hplain]
    | cons x xs =>
      have hx := hw.gap.not_startsPlain
      rw [hwgap] at hx
      simpa [StartsPlain, Word.chars, hwgap] using hx

/-- A word may stand before a text that splits exactly if no number is followed by a digit or a
    point. -/
theorem cons_iff :
    SplitsInto (w.chars ++ cs) (w :: ws) trailing ↔
      w.IsValid ∧ SplitsInto cs ws trailing ∧ (w.kind = .number → ¬StartsPlain cs) := by
  have happart (h : SplitsInto cs ws trailing) :
      (∀ v ∈ ws.head?, w.Apart v) ↔ (w.kind = .number → ¬StartsPlain cs) := by
    rw [h.startsPlain_iff]
    constructor
    · rintro hall hw ⟨v, hv, hkind, hgap⟩
      exact hall v hv hw hkind hgap
    · intro hnone v hv hw hkind hgap
      exact hnone hw ⟨v, hv, hkind, hgap⟩
  constructor
  · rintro ⟨text, valid, apart, htrailing⟩
    rw [List.isChain_cons] at apart
    rw [List.flatMap_cons, List.append_assoc] at text
    have hrest : SplitsInto cs ws trailing :=
      ⟨List.append_cancel_left text, fun v hv => valid v (List.mem_cons_of_mem w hv), apart.2,
        htrailing⟩
    exact ⟨valid w (by simp), hrest, (happart hrest).1 apart.1⟩
  · rintro ⟨hw, h, hfollow⟩
    refine ⟨?_, ?_, List.isChain_cons.2 ⟨(happart h).2 hfollow, h.apart⟩, h.trailing⟩
    · rw [List.flatMap_cons, List.append_assoc, ← h.text]
    · intro v hv
      rcases List.mem_cons.1 hv with rfl | hv
      · exact hw
      · exact h.valid v hv

/-- A text that splits is lexed into its words. -/
theorem exists_tokens (h : SplitsInto cs ws trailing) (place : Location) :
    ∃ ts, (Cursor.mk cs place).tokens = .ok ts ∧
      ts.map Token.entry =
        Word.entries place.offset ws ++ [(.endMark, "", place.offset + cs.length)] := by
  induction ws generalizing cs place with
  | nil =>
    refine ⟨_, Cursor.tokens_of_endMark (Cursor.scan_gap h.isGap_of_nil) rfl, ?_⟩
    simp [Token.entry, Word.entries, Location.offset_after]
  | cons w ws ih =>
    have htext : cs = w.chars ++ (ws.flatMap Word.chars ++ trailing) := by
      rw [h.text, List.flatMap_cons, List.append_assoc]
    rw [htext] at h ⊢
    obtain ⟨hw, hrest, hfollow⟩ := cons_iff.1 h
    have hkind : w.kind ≠ .endMark := by
      intro hkind
      have := hw.lexeme
      rw [hkind] at this
      cases this
    obtain ⟨ts, htokens, hentries⟩ := ih hrest (place.after w.chars)
    refine ⟨⟨w.kind, String.ofList w.lexeme, place.after w.gap⟩ :: ts, ?_, ?_⟩
    · rw [Cursor.tokens_of_token (Cursor.scan_word hw hfollow) hkind, htokens]
      rfl
    · rw [List.map_cons, hentries, Location.offset_after]
      simp [Token.entry, Word.entries, Location.offset_after, Int.add_assoc]

/-- A text that is lexed to its end splits into the words that it is lexed into. -/
theorem exists_of_delivers {s : Cursor} {ts : List Token} {r : Option LexError}
    (h : s.Delivers ts r) (hr : r = none) :
    ∃ ws trailing, SplitsInto s.rest ws trailing ∧ ts.map Token.entry =
      Word.entries s.place.offset ws ++ [(.endMark, "", s.place.offset + s.rest.length)] := by
  induction h with
  | failed => simp at hr
  | @ended s _ mark scan kind =>
    obtain ⟨hgap, hentry⟩ := Cursor.isGap_of_scan scan kind
    exact ⟨[], s.rest, .nil hgap, by simp [Word.entries, hentry]⟩
  | @token s s' t ts _ scan kind _ ih =>
    obtain ⟨ws, trailing, hsplits, hentries⟩ := ih hr
    obtain ⟨w, hw, hrest, hentry, hplace, hfollow⟩ := Cursor.exists_word_of_scan scan kind
    refine ⟨w :: ws, trailing, hrest ▸ cons_iff.2 ⟨hw, hsplits, hfollow⟩, ?_⟩
    rw [List.map_cons, hentry, hentries, hplace, Location.offset_after, hrest]
    simp [Word.entries, Int.add_assoc]

/-- Words are told apart by their kinds, lexemes and offsets, in one and the same text. -/
theorem eq_of_entries {offset : Int} (hentries : Word.entries offset ws = Word.entries offset ws')
    (htext : ws.flatMap Word.chars ++ trailing = ws'.flatMap Word.chars ++ trailing') :
    ws = ws' ∧ trailing = trailing' := by
  induction ws generalizing ws' offset with
  | nil =>
    cases ws' with
    | nil => exact ⟨rfl, by simpa using htext⟩
    | cons w' ws' => simp [Word.entries] at hentries
  | cons w ws ih =>
    cases ws' with
    | nil => simp [Word.entries] at hentries
    | cons w' ws' =>
      simp only [Word.entries, List.cons.injEq, Prod.mk.injEq, String.ofList_inj] at hentries
      obtain ⟨⟨hkind, hlexeme, hoffset⟩, hrest⟩ := hentries
      have hlength : w.gap.length = w'.gap.length := by omega
      simp only [List.flatMap_cons, Word.chars, List.append_assoc] at htext
      obtain ⟨hgap, htext⟩ := List.append_inj htext hlength
      rw [hlexeme] at htext
      have hchars : w.chars = w'.chars := by rw [Word.chars, hgap, hlexeme, Word.chars]
      rw [hchars] at hrest
      obtain ⟨rfl, rfl⟩ := ih hrest (List.append_cancel_left htext)
      obtain ⟨gap, kind, lexeme⟩ := w
      simp_all

/-- The lexemes of the words are the text without its blanks. -/
theorem filter_eq (h : SplitsInto cs ws trailing) :
    cs.filter (· ∉ blanks) = ws.flatMap Word.lexeme := by
  have hgap {gap : List Char} (h : IsGap gap) : gap.filter (· ∉ blanks) = [] := by
    rw [List.filter_eq_nil_iff]
    intro c hc
    simp [h c hc]
  induction ws generalizing cs with
  | nil => exact hgap h.isGap_of_nil
  | cons w ws ih =>
    have htext : cs = w.chars ++ (ws.flatMap Word.chars ++ trailing) := by
      rw [h.text, List.flatMap_cons, List.append_assoc]
    rw [htext] at h ⊢
    obtain ⟨hw, hrest, -⟩ := cons_iff.1 h
    have hlexeme : w.lexeme.filter (· ∉ blanks) = w.lexeme := by
      rw [List.filter_eq_self]
      intro c hc
      simp [← isBlank_iff, hw.lexeme.isBlank_eq_false hc]
    rw [List.filter_append, ih hrest, Word.chars, List.filter_append, hgap hw.gap, hlexeme,
      List.nil_append, List.flatMap_cons]

end SplitsInto

theorem Word.flatMap_entries (offset : Int) (ws : List Word) :
    (entries offset ws).flatMap (fun x => x.2.1.toList) = ws.flatMap Word.lexeme := by
  induction ws generalizing offset with
  | nil => rfl
  | cons w ws ih => simp [entries, ih]

theorem SplitsInto.exists_tokens_eq {source : String} {ws : List Word} {trailing : List Char}
    (h : SplitsInto source.toList ws trailing) :
    ∃ ts, tokens source = .ok ts ∧
      ts.map Token.entry = Word.entries 0 ws ++ [(.endMark, "", (source.length : Int))] := by
  obtain ⟨ts, htokens, hentries⟩ := h.exists_tokens .start
  exact ⟨ts, htokens, by simpa [Location.start, String.length_toList] using hentries⟩

theorem exists_splitsInto {source : String} {ts : List Token} (h : tokens source = .ok ts) :
    ∃ ws trailing, SplitsInto source.toList ws trailing ∧
      ts.map Token.entry = Word.entries 0 ws ++ [(.endMark, "", (source.length : Int))] := by
  obtain ⟨us, r, hdelivers⟩ := (Cursor.ofText source).exists_delivers
  rw [tokens, hdelivers.tokens_eq] at h
  cases r with
  | some e => simp at h
  | none =>
    obtain rfl := Except.ok.inj h
    obtain ⟨ws, trailing, hsplits, hentries⟩ := SplitsInto.exists_of_delivers hdelivers rfl
    refine ⟨ws, trailing, hsplits, ?_⟩
    simpa [Cursor.ofText, Location.start, String.length_toList] using hentries

/-- Tokens of some kinds, lexemes and offsets, and then the end mark, are delivered exactly if the
    text splits into words of these kinds and lexemes at these offsets. A text splits in at most one
    way; the lexemes of its tokens are the text without its blanks; and whatever is put together
    from words, with numbers kept apart, is lexed into these words. -/
theorem tokens_iff_splitsInto :
    (∀ (source : String) (words : List (TokenKind × String × Int)),
      (∃ ts, tokens source = .ok ts ∧
        ts.map Token.entry = words ++ [(.endMark, "", (source.length : Int))]) ↔
      ∃ ws trailing, SplitsInto source.toList ws trailing ∧ Word.entries 0 ws = words) ∧
    (∀ (source : String) (ws ws' : List Word) (trailing trailing' : List Char),
      SplitsInto source.toList ws trailing → SplitsInto source.toList ws' trailing' →
        ws = ws' ∧ trailing = trailing') ∧
    (∀ (source : String) (ts : List Token), tokens source = .ok ts →
      ts.flatMap (fun t => t.lexeme.toList) = source.toList.filter (· ∉ blanks)) ∧
    ∀ (ws : List Word) (trailing : List Char),
      (∀ w ∈ ws, w.IsValid) → ws.IsChain Word.Apart → IsGap trailing →
        ∃ ts mark, tokens (String.ofList (ws.flatMap Word.chars ++ trailing)) = .ok (ts ++ [mark]) ∧
          mark.kind = .endMark ∧ ts.map Token.entry = Word.entries 0 ws := by
  refine ⟨fun source words => ⟨?_, ?_⟩, fun source ws ws' trailing trailing' h h' => ?_,
    fun source ts htokens => ?_, fun ws trailing hvalid hapart htrailing => ?_⟩
  · rintro ⟨ts, htokens, hentries⟩
    obtain ⟨ws, trailing, hsplits, hwords⟩ := exists_splitsInto htokens
    rw [hentries] at hwords
    exact ⟨ws, trailing, hsplits, (List.append_cancel_right hwords).symm⟩
  · rintro ⟨ws, trailing, hsplits, rfl⟩
    exact hsplits.exists_tokens_eq
  · obtain ⟨ts, htokens, hentries⟩ := h.exists_tokens_eq
    obtain ⟨ts', htokens', hentries'⟩ := h'.exists_tokens_eq
    obtain rfl : ts = ts' := Except.ok.inj (htokens.symm.trans htokens')
    rw [hentries] at hentries'
    exact SplitsInto.eq_of_entries (List.append_cancel_right hentries') (h.text.symm.trans h'.text)
  · obtain ⟨ws, trailing, hsplits, hentries⟩ := exists_splitsInto htokens
    calc ts.flatMap (fun t => t.lexeme.toList)
        = (ts.map Token.entry).flatMap (fun x => x.2.1.toList) := by
          rw [List.flatMap_map]
          rfl
      _ = ws.flatMap Word.lexeme := by simp [hentries, Word.flatMap_entries]
      _ = source.toList.filter (· ∉ blanks) := hsplits.filter_eq.symm
  · let source := String.ofList (ws.flatMap Word.chars ++ trailing)
    have hsplits : SplitsInto source.toList ws trailing :=
      ⟨String.toList_ofList, hvalid, hapart, htrailing⟩
    obtain ⟨us, htokens, hentries⟩ := hsplits.exists_tokens_eq
    obtain ⟨ts, marks, rfl, hts, hmarks⟩ := List.map_eq_append_iff.1 hentries
    obtain ⟨mark, rfl, hmark⟩ := List.map_eq_singleton_iff.1 hmarks
    exact ⟨ts, mark, htokens, congrArg Prod.fst hmark, hts⟩

end ArithJit
