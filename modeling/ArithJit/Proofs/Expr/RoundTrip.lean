import ArithJit.Proofs.Expr.Literal
import ArithJit.Proofs.Expr.Phrase

/-!
# Parsing what was rendered

The rendering of a parsed expression puts parentheses around every operation, so it is a phrase as
soon as its literals are. They are plain decimals unless one of them is infinite or a fraction below
a ten-thousandth, which has a letter in its text, and no letter is ever lexed. So the rendering of a
parsed expression can be parsed exactly if its literals are moderate, and then gives the expression
back, up to parentheses and places.
-/

namespace ArithJit

open Binary64

/-! ## Literals of an expression -/

namespace Expr

/-- The numbers in an expression, from left to right. -/
def literals : Expr → List Binary64
  | .bare _ => []
  | .number x _ => [x]
  | .negate e _ | .group e _ => e.literals
  | .binary _ l r _ => l.literals ++ r.literals

variable {e : Expr} {x : Binary64}

theorem literal_mem_fragments (h : x ∈ e.literals) : x.literal ∈ e.fragments := by
  induction e with
  | bare => simp [literals] at h
  | number y => simp_all [literals, fragments]
  | negate e place ih => simp [fragments, ih h]
  | group e place ih => exact ih h
  | binary op l r place ihl ihr =>
    rcases List.mem_append.1 h with h | h
    · simp [fragments, ihl h]
    · simp [fragments, ihr h]

/-- Parentheses and places make no difference to the rendering. -/
@[simp] theorem fragments_skeleton (e : Expr) : e.skeleton.fragments = e.fragments := by
  induction e with
  | bare | number => rfl
  | negate e place ih => simp [skeleton, fragments, ih]
  | group e place ih => exact ih
  | binary op l r place ihl ihr => simp [skeleton, fragments, ihl, ihr]

/-- An expression whose literals are read as themselves is rendered as a phrase. -/
theorem spells_fragments (hwhole : e.isWhole = true)
    (h : ∀ x ∈ e.literals, Numeral.IsPlain x.literal.toList ∧ Numeral.read? x.literal = some x) :
    Spells .factor (e.fragments.flatMap String.toList) e := by
  induction e with
  | bare => simp [isWhole] at hwhole
  | number x place =>
    obtain ⟨hplain, hread⟩ := h x (by simp [literals])
    rw [← String.ofList_toList (s := x.literal)] at hread
    simpa [fragments] using Spells.number hplain hread
  | negate e place ih =>
    have hphrase : Spells .factor ('-' :: e.fragments.flatMap String.toList) (.negate e place) :=
      (ih hwhole h).negate
    simpa [fragments] using hphrase.parens
  | group e place ih => exact ih hwhole h
  | binary op l r place ihl ihr =>
    simp only [isWhole, Bool.and_eq_true] at hwhole
    have hl := ihl hwhole.1 fun x hx => h x (List.mem_append_left _ hx)
    have hr := ihr hwhole.2 fun x hx => h x (List.mem_append_right _ hx)
    have hgap : IsGap [' '] := by simp [IsGap, blanks]
    have hphrase : Spells op.chain _ (.binary op l r place) :=
      (hl.loosen (n := op.chain) op.chain.level_le_level_factor).binary hgap
        (hr.loosen (n := op.link) op.link.level_le_level_factor)
    simpa [fragments] using hphrase.parens

end Expr

/-! ## Letters are not lexed -/

theorem isAlpha_of_isPlainChar {c : Char} (h : Numeral.isPlainChar c = true) :
    c.isAlpha = false := by
  rw [← Bool.not_eq_true]
  intro halpha
  have hlow := (toNat_of_isAlpha halpha).1
  have hhigh := (Numeral.toNat_of_isPlainChar h).2
  omega

theorem IsLexeme.isAlpha_eq_false {kind : TokenKind} {lexeme : List Char} {c : Char}
    (h : IsLexeme kind lexeme) (hc : c ∈ lexeme) : c.isAlpha = false := by
  cases h with
  | number plain => exact isAlpha_of_isPlainChar (plain.isPlainChar c hc)
  | plus | minus | star | slash | openParen | closeParen =>
    obtain rfl := List.mem_singleton.1 hc
    decide

theorem IsGap.isAlpha_eq_false {gap : List Char} {c : Char} (h : IsGap gap) (hc : c ∈ gap) :
    c.isAlpha = false := by
  have hblank := h c hc
  simp only [blanks, List.mem_cons, List.not_mem_nil, or_false] at hblank
  rcases hblank with rfl | rfl | rfl | rfl | rfl | rfl
  all_goals decide

/-- A text that splits has no letter in it. -/
theorem SplitsInto.isAlpha_eq_false {cs trailing : List Char} {ws : List Word} {c : Char}
    (h : SplitsInto cs ws trailing) (hc : c ∈ cs) : c.isAlpha = false := by
  rw [h.text, List.mem_append, List.mem_flatMap] at hc
  rcases hc with ⟨w, hw, hc⟩ | hc
  · have hvalid := h.valid w hw
    rcases List.mem_append.1 hc with hc | hc
    · exact hvalid.gap.isAlpha_eq_false hc
    · exact hvalid.lexeme.isAlpha_eq_false hc
  · exact h.trailing.isAlpha_eq_false hc

/-! ## Numbers that were read -/

/-- The numbers of a tree are those of its tokens. -/
theorem Derives.exists_token {n : Nonterminal} {ts : List Token} {e : Expr} (h : Derives n ts e) :
    ∀ x ∈ e.literals, ∃ t ∈ ts, t.kind = .number ∧ t.number = .ok x := by
  induction h with
  | @number t y kind value =>
    intro x hx
    obtain rfl := List.mem_singleton.1 hx
    exact ⟨t, by simp, kind, value⟩
  | negation _ _ ih | group _ _ _ ih =>
    intro x hx
    obtain ⟨t, ht, hkind⟩ := ih x hx
    exact ⟨t, by simp [ht], hkind⟩
  | factor _ ih | term _ ih => exact ih
  | product _ _ _ _ ihl ihr | sum _ _ _ _ ihl ihr =>
    intro x hx
    rcases List.mem_append.1 hx with hx | hx
    · obtain ⟨t, ht, hkind⟩ := ihl x hx
      exact ⟨t, by simp [ht], hkind⟩
    · obtain ⟨t, ht, hkind⟩ := ihr x hx
      exact ⟨t, by simp [ht], hkind⟩

/-- The numbers of an expression that a text writes have no sign and are no NaN. -/
theorem Writes.word_le {source : String} {e : Expr} (h : Writes source e) :
    ∀ x ∈ e.literals, x.word ≤ infinityWord := by
  intro x hx
  obtain ⟨ts, mark, htokens, -, hderives⟩ := h
  obtain ⟨t, ht, hkind, hnumber⟩ := hderives.exists_token x hx
  obtain ⟨us, r, hdelivers⟩ := (Cursor.ofText source).exists_delivers
  rw [tokens, hdelivers.tokens_eq] at htokens
  cases r with
  | some err => simp at htokens
  | none =>
    obtain rfl := Except.ok.inj htokens
    have hplain := hdelivers.isPlain (List.mem_append_left _ ht) hkind
    obtain ⟨q, hdenotes⟩ := hplain.exists_denotes
    have hread := hdenotes.read?_eq
    rw [String.ofList_toList] at hread
    rw [Token.number, if_pos hkind, hread] at hnumber
    obtain rfl := Except.ok.inj hnumber
    rw [word_ofSignWord (nearestWord_le _)]
    exact nearestWord_le _

/-! ## Rendering and parsing -/

namespace Writes

variable {source : String} {t t' : Expr}

theorem unique (h : Writes source t) (h' : Writes source t') : t = t' := by
  have hread := (readExpr_eq_ok_iff.2 h).symm.trans (readExpr_eq_ok_iff.2 h')
  exact Except.ok.inj hread

/-- If the literals of an expression are moderate, its rendering writes it again. -/
theorem exists_of_isModerate (h : Writes source t) (hall : ∀ x ∈ t.literals, x.IsModerate) :
    ∃ t', Writes (String.join t.fragments) t' ∧ t'.skeleton = t.skeleton := by
  have hliterals : ∀ x ∈ t.literals,
      Numeral.IsPlain x.literal.toList ∧ Numeral.read? x.literal = some x := by
    intro x hx
    rcases literal_cases (h.word_le x hx) with ⟨-, hplain⟩ | ⟨hnot, -⟩
    · exact hplain
    · exact absurd (hall x hx) hnot
  have hphrase := (Expr.spells_fragments h.isWhole hliterals).exists_writes
  rwa [← String.toList_join, String.ofList_toList] at hphrase

/-- If the rendering of an expression writes anything, the literals are moderate. -/
theorem isModerate_of_render (h : Writes source t) (h' : Writes (String.join t.fragments) t') :
    ∀ x ∈ t.literals, x.IsModerate := by
  intro x hx
  rcases literal_cases (h.word_le x hx) with ⟨hmoderate, -⟩ | ⟨-, c, hc, hletter⟩
  · exact hmoderate
  · obtain ⟨ts, mark, htokens, -⟩ := h'
    obtain ⟨ws, trailing, hsplits, -⟩ := exists_splitsInto htokens
    have hmem : c ∈ (String.join t.fragments).toList := by
      rw [String.toList_join]
      exact List.mem_flatMap.2 ⟨x.literal, Expr.literal_mem_fragments hx, hc⟩
    rw [hsplits.isAlpha_eq_false hmem] at hletter
    exact absurd hletter (by decide)

end Writes

/-- The rendering of a parsed expression can be parsed exactly if the literals of the expression are
    moderate. Then it gives the expression up to parentheses and places, with the same rendering. -/
theorem parseText_render {source : String} {t : Expr} (h : (parseText source).result = .ok t) :
    ∃ text, t.render = .ok text ∧
      ((∃ t', (parseText text).result = .ok t') ↔ ∀ x ∈ t.literals, x.IsModerate) ∧
      ∀ t', (parseText text).result = .ok t' → t'.skeleton = t.skeleton ∧ t'.render = .ok text := by
  simp only [parseText_eq_ok_iff] at h ⊢
  refine ⟨String.join t.fragments, Expr.render_eq h.isWhole, ⟨?_, ?_⟩, ?_⟩
  · rintro ⟨t', ht'⟩
    exact h.isModerate_of_render ht'
  · intro hall
    obtain ⟨t', ht', -⟩ := h.exists_of_isModerate hall
    exact ⟨t', ht'⟩
  · intro t' ht'
    obtain ⟨tree, htree, hskeleton⟩ := h.exists_of_isModerate (h.isModerate_of_render ht')
    obtain rfl := ht'.unique htree
    refine ⟨hskeleton, ?_⟩
    rw [Expr.render_eq ht'.isWhole, ← t'.fragments_skeleton, hskeleton, t.fragments_skeleton]

/-- A sum in parentheses, negated and multiplied, is rendered and parsed again. -/
theorem parseText_render_product :
    ∃ t, (parseText "3*-(.25+12)").result = .ok t ∧ t.render = .ok "(3 * (-(0.25 + 12)))" ∧
      (∀ x ∈ t.literals, x.IsModerate) ∧
      ∃ t', (parseText "(3 * (-(0.25 + 12)))").result = .ok t' ∧ t'.skeleton = t.skeleton ∧
        t'.render = .ok "(3 * (-(0.25 + 12)))" := by
  have hparsed {s : String} (hs : (parseText s).result.toOption.isSome = true) :
      ∃ t, (parseText s).result = .ok t := by
    cases hresult : (parseText s).result with
    | ok t => exact ⟨t, rfl⟩
    | error f => simp [hresult, Except.toOption] at hs
  obtain ⟨t, ht⟩ := hparsed (s := "3*-(.25+12)") (by decide +kernel)
  obtain ⟨t', ht'⟩ := hparsed (s := "(3 * (-(0.25 + 12)))") (by decide +kernel)
  have hrender : ((parseText "3*-(.25+12)").result.toOption.bind fun t => t.render.toOption) =
      some "(3 * (-(0.25 + 12)))" := by decide +kernel
  obtain ⟨text, htext, hiff, hback⟩ := parseText_render ht
  obtain rfl : text = "(3 * (-(0.25 + 12)))" := by
    simpa [ht, htext, Except.toOption] using hrender
  exact ⟨t, ht, htext, hiff.1 ⟨t', ht'⟩, t', ht', hback t' ht'⟩

end ArithJit
