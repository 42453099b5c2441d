import ArithJit.Proofs.Evaluation
import ArithJit.Proofs.Token.LexicalGrammar

/-!
# Texts put together as the grammar puts phrases together

A text spells a tree, as some nonterminal, if it is lexed into tokens that the nonterminal covers,
and their tree is the given one up to parentheses and places. Spelled texts may be put together with
marks and blanks just as the grammar puts tokens together, for a mark keeps numbers apart. So a
printer is judged by recursion on the tree, and neither lexer nor parser is looked at again.
-/

namespace ArithJit

/-! ## Trees up to parentheses and places -/

namespace Expr

/-- The tree without its parentheses and without places. -/
def skeleton : Expr → Expr
  | .bare _ => .bare none
  | .number x _ => .number x none
  | .negate e _ => .negate e.skeleton none
  | .group e _ => e.skeleton
  | .binary op l r _ => .binary op l.skeleton r.skeleton none

/-- Parentheses and places make no difference to the value. -/
@[simp] theorem value?_skeleton (e : Expr) : e.skeleton.value? = e.value? := by
  induction e with
  | bare | number => rfl
  | negate e place ih => simp [skeleton, ih]
  | group e place ih => exact ih
  | binary op l r place ihl ihr => simp [skeleton, value?, ihl, ihr]

end Expr

/-! ## Texts and the words in them -/

/-- What a token or a word is apart from its place: a kind and a lexeme. -/
abbrev Spelling := TokenKind × List Char

/-- The kind and the lexeme of a word. -/
def Word.spelling (w : Word) : Spelling := (w.kind, w.lexeme)

/-- The kind and the lexeme of a token. -/
def Token.spelling (t : Token) : Spelling := (t.kind, t.lexeme.toList)

/-- The text splits into words with these spellings, whatever blanks stand around them. -/
def Lexes (cs : List Char) (xs : List Spelling) : Prop :=
  ∃ ws trailing, SplitsInto cs ws trailing ∧ ws.map Word.spelling = xs

/-- A mark may stand between any two texts. -/
theorem SplitsInto.append_mark {cs ds lexeme trailing trailing' : List Char} {ws vs : List Word}
    {kind : TokenKind} (h : SplitsInto cs ws trailing) (hlexeme : IsLexeme kind lexeme)
    (hkind : kind ≠ .number) (h' : SplitsInto ds vs trailing') :
    SplitsInto (cs ++ (lexeme ++ ds)) (ws ++ ⟨trailing, kind, lexeme⟩ :: vs) trailing' := by
  refine ⟨?_, ?_, ?_, h'.trailing⟩
  · rw [h.text, h'.text]
    simp [Word.chars]
  · intro w hw
    simp only [List.mem_append, List.mem_cons] at hw
    rcases hw with hw | rfl | hw
    · exact h.valid w hw
    · exact ⟨h.trailing, hlexeme⟩
    · exact h'.valid w hw
  · have hmark : (⟨trailing, kind, lexeme⟩ :: vs : List Word).IsChain Word.Apart :=
      List.isChain_cons.2 ⟨fun v _ hnumber => absurd hnumber hkind, h'.apart⟩
    refine List.isChain_append.2 ⟨h.apart, hmark, ?_⟩
    intro v _ w hw _ hnumber
    obtain rfl := Option.some.inj hw
    exact absurd hnumber hkind

namespace Lexes

variable {cs ds lexeme gap : List Char} {xs ys : List Spelling} {kind : TokenKind}

theorem nil : Lexes [] [] := ⟨[], [], .nil (by simp [IsGap]), rfl⟩

theorem single (h : IsLexeme kind lexeme) : Lexes lexeme [(kind, lexeme)] := by
  refine ⟨[⟨[], kind, lexeme⟩], [], ⟨?_, ?_, .singleton _, by simp [IsGap]⟩, rfl⟩
  · simp [Word.chars]
  · intro w hw
    obtain rfl := List.mem_singleton.1 hw
    exact ⟨by simp [IsGap], h⟩

theorem append_mark (h : Lexes cs xs) (hlexeme : IsLexeme kind lexeme) (hkind : kind ≠ .number)
    (h' : Lexes ds ys) : Lexes (cs ++ (lexeme ++ ds)) (xs ++ (kind, lexeme) :: ys) := by
  obtain ⟨ws, trailing, hws, rfl⟩ := h
  obtain ⟨vs, trailing', hvs, rfl⟩ := h'
  exact ⟨_, _, hws.append_mark hlexeme hkind hvs, by simp [Word.spelling]⟩

theorem mark_append (hlexeme : IsLexeme kind lexeme) (hkind : kind ≠ .number) (h : Lexes cs xs) :
    Lexes (lexeme ++ cs) ((kind, lexeme) :: xs) := Lexes.nil.append_mark hlexeme hkind h

theorem append_gap (h : Lexes cs xs) (hgap : IsGap gap) : Lexes (cs ++ gap) xs := by
  obtain ⟨ws, trailing, hws, rfl⟩ := h
  refine ⟨ws, trailing ++ gap, ⟨?_, hws.valid, hws.apart, ?_⟩, rfl⟩
  · rw [hws.text, List.append_assoc]
  · intro c hc
    exact (List.mem_append.1 hc).elim (hws.trailing c) (hgap c)

/-- Blanks in front of a text are blanks in front of its first word, or behind all its words. -/
theorem gap_append (hgap : IsGap gap) (h : Lexes cs xs) : Lexes (gap ++ cs) xs := by
  obtain ⟨ws, trailing, hws, rfl⟩ := h
  cases ws with
  | nil =>
    have hblank : Lexes gap [] := ⟨[], gap, .nil hgap, rfl⟩
    exact hblank.append_gap hws.isGap_of_nil
  | cons w ws =>
    have hw := hws.valid w (by simp)
    have hapart := List.isChain_cons.1 hws.apart
    refine ⟨⟨gap ++ w.gap, w.kind, w.lexeme⟩ :: ws, trailing, ⟨?_, ?_, ?_, hws.trailing⟩, rfl⟩
    · rw [hws.text]
      simp [Word.chars]
    · intro v hv
      rcases List.mem_cons.1 hv with rfl | hv
      · exact ⟨fun c hc => (List.mem_append.1 hc).elim (hgap c) (hw.gap c), hw.lexeme⟩
      · exact hws.valid v (List.mem_cons_of_mem w hv)
    · exact List.isChain_cons.2 ⟨hapart.1, hapart.2⟩

/-- A text is lexed into tokens with the spellings of its words. -/
theorem exists_tokens (h : Lexes cs xs) :
    ∃ ts mark, tokens (String.ofList cs) = .ok (ts ++ [mark]) ∧ mark.kind = .endMark ∧
      ts.map Token.spelling = xs := by
  have hspelling (offset : Int) (ws : List Word) :
      (Word.entries offset ws).map (fun x => (x.1, x.2.1.toList)) = ws.map Word.spelling := by
    induction ws generalizing offset with
    | nil => rfl
    | cons w ws ih => simp [Word.entries, Word.spelling, ih]
  obtain ⟨ws, trailing, hws, rfl⟩ := h
  have hsplits : SplitsInto (String.ofList cs).toList ws trailing := by
    rwa [String.toList_ofList]
  obtain ⟨us, htokens, hentries⟩ := hsplits.exists_tokens_eq
  obtain ⟨ts, marks, rfl, hts, hmarks⟩ := List.map_eq_append_iff.1 hentries
  obtain ⟨mark, rfl, hmark⟩ := List.map_eq_singleton_iff.1 hmarks
  refine ⟨ts, mark, htokens, congrArg Prod.fst hmark, ?_⟩
  rw [← hspelling 0 ws, ← hts, List.map_map]
  rfl

end Lexes

/-! ## Phrases -/

theorem BinaryOp.isLexeme_symbol (op : BinaryOp) :
    IsLexeme op.kind op.symbol.toList := by
  cases op with
  | add => exact .plus
  | sub => exact .minus
  | mul => exact .star
  | div => exact .slash

/-- The text is lexed into tokens that the nonterminal covers, with the tree up to parentheses and
    places. -/
def Spells (n : Nonterminal) (cs : List Char) (e : Expr) : Prop :=
  ∃ xs, Lexes cs xs ∧ ∀ ts : List Token, ts.map Token.spelling = xs →
    ∃ tree, Derives n ts tree ∧ tree.skeleton = e.skeleton

namespace Spells

variable {m n : Nonterminal} {cs ds gap : List Char} {e l r : Expr} {op : BinaryOp}
  {place : Option Location}

theorem loosen (h : Spells m cs e) (hle : n.level ≤ m.level) : Spells n cs e := by
  obtain ⟨xs, hlexes, hderives⟩ := h
  refine ⟨xs, hlexes, fun ts hts => ?_⟩
  obtain ⟨tree, htree, hskeleton⟩ := hderives ts hts
  exact ⟨tree, htree.loosen hle, hskeleton⟩

theorem number {x : Binary64} (hplain : Numeral.IsPlain cs)
    (hread : Numeral.read? (String.ofList cs) = some x) : Spells .factor cs (.number x place) := by
  refine ⟨[(.number, cs)], .single (.number hplain), fun ts hts => ?_⟩
  obtain ⟨t, rfl, ht⟩ := List.map_eq_singleton_iff.1 hts
  simp only [Token.spelling, Prod.mk.injEq] at ht
  have hvalue : t.number = .ok x := by
    rw [← ht.2, String.ofList_toList] at hread
    simp [Token.number, ht.1, hread]
  exact ⟨_, .number ht.1 hvalue, rfl⟩

theorem negate (h : Spells .factor cs e) : Spells .factor ('-' :: cs) (.negate e place) := by
  obtain ⟨xs, hlexes, hderives⟩ := h
  refine ⟨_, hlexes.mark_append .minus (by decide), fun ts hts => ?_⟩
  obtain ⟨t, us, rfl, ht, hus⟩ := List.map_eq_cons_iff.1 hts
  obtain ⟨tree, htree, hskeleton⟩ := hderives us hus
  refine ⟨_, .negation (congrArg Prod.fst ht) htree, ?_⟩
  simp [Expr.skeleton, hskeleton]

/-- Parentheses make a factor of any phrase. -/
theorem parens (h : Spells n cs e) : Spells .factor ('(' :: (cs ++ [')'])) e := by
  obtain ⟨xs, hlexes, hderives⟩ := h
  have hclosed := hlexes.append_mark .closeParen (by decide) .nil
  refine ⟨_, hclosed.mark_append .openParen (by decide), fun ts hts => ?_⟩
  obtain ⟨t, vs, rfl, ht, hvs⟩ := List.map_eq_cons_iff.1 hts
  obtain ⟨us, last, rfl, hus, hlast⟩ := List.map_eq_append_iff.1 hvs
  obtain ⟨u, rfl, hu⟩ := List.map_eq_singleton_iff.1 hlast
  obtain ⟨tree, htree, hskeleton⟩ := hderives us hus
  exact ⟨_, .group (congrArg Prod.fst ht) htree.isExpr (congrArg Prod.fst hu), hskeleton⟩

theorem binary (hl : Spells op.chain cs l) (hgap : IsGap gap) (hr : Spells op.link ds r) :
    Spells op.chain (cs ++ (gap ++ (op.symbol.toList ++ (gap ++ ds)))) (.binary op l r place) := by
  obtain ⟨xs, hxs, hleft⟩ := hl
  obtain ⟨ys, hys, hright⟩ := hr
  have hlexes := (hxs.append_gap hgap).append_mark op.isLexeme_symbol op.kind_ne_number
    (hys.gap_append hgap)
  rw [List.append_assoc] at hlexes
  refine ⟨_, hlexes, fun ts hts => ?_⟩
  obtain ⟨us, rest, rfl, hus, hrest⟩ := List.map_eq_append_iff.1 hts
  obtain ⟨t, vs, rfl, ht, hvs⟩ := List.map_eq_cons_iff.1 hrest
  obtain ⟨left, hleft, hlskeleton⟩ := hleft us hus
  obtain ⟨right, hright, hrskeleton⟩ := hright vs hvs
  refine ⟨_, hleft.binary (congrArg Prod.fst ht) hright, ?_⟩
  simp [Expr.skeleton, hlskeleton, hrskeleton]

/-- A spelled text writes its tree, up to parentheses and places. -/
theorem exists_writes (h : Spells n cs e) :
    ∃ tree, Writes (String.ofList cs) tree ∧ tree.skeleton = e.skeleton := by
  obtain ⟨xs, hlexes, hderives⟩ := h
  obtain ⟨ts, mark, htokens, hmark, hts⟩ := hlexes.exists_tokens
  obtain ⟨tree, htree, hskeleton⟩ := hderives ts hts
  exact ⟨tree, ⟨ts, mark, htokens, hmark, htree.isExpr⟩, hskeleton⟩

end Spells

end ArithJit
