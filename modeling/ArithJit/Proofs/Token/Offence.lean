import ArithJit.Proofs.Parser.Laziness
import ArithJit.Proofs.Token.LexicalGrammar
import Mathlib.Data.List.DropRight

/-!
# Lexical errors

Three things can be wrong with a character of a text: it is outside of the alphabet, it is the
second point of its longest run of digits and points, or it is a point that is such a run by itself.
Which characters offend is said here without a lexer, from the characters around them.

The lexer stops at the leftmost character that offends. What carries this is that a cursor between
two words never stands inside a run: then the characters to its left do not matter to those on its
right, as `offendsAt_append_iff` says, and a word of the text holds no offence. A text that is lexed
to its end is made of words, so that nothing in it offends.
-/

namespace ArithJit

/-- The characters that a text without lexical errors is made of. -/
def alphabet : List Char := blanks ++ "0123456789.+-*/()".toList

/-- The digits and points that a text ends with. -/
def plainEnd (cs : List Char) : List Char := cs.rtakeWhile Numeral.isPlainChar

/-- The ways in which a character offends. -/
inductive Offence where
  | foreign
  | secondPoint
  | lonePoint
  deriving DecidableEq, Repr

/-- A text offends at a position in a way: the character there is outside of the alphabet, or it is
    the second point of its longest run of digits and points, or it is such a run by itself. -/
inductive OffendsAt (cs : List Char) (p : Nat) : Offence → Prop
  | foreign {c : Char} (char : cs[p]? = some c) (outside : c ∉ alphabet) : OffendsAt cs p .foreign
  | secondPoint (char : cs[p]? = some '.') (second : (plainEnd (cs.take p)).count '.' = 1) :
      OffendsAt cs p .secondPoint
  | lonePoint (char : cs[p]? = some '.') (first : plainEnd (cs.take p) = [])
      (last : ¬StartsPlain (cs.drop (p + 1))) : OffendsAt cs p .lonePoint

namespace Offence

/-- The kind of error that an offence is. -/
def kind : Offence → DiagnosticKind
  | .foreign => .unexpectedCharacter
  | .secondPoint | .lonePoint => .malformedNumber

/-- What an error says in detail of an offence, given what stands before the offending character:
    the character, the number that it spoils and the offset. The spoiled number is the run up to a
    second point, or the lone point. -/
def details (before : List Char) (c : Char) (offset : Int) : Offence → Json.Members
  | .foreign => [("character", .str (String.singleton c)), ("offset", .int offset)]
  | .secondPoint =>
      [("character", .str (String.singleton c)),
        ("lexeme", .str (String.ofList (plainEnd before))), ("offset", .int offset)]
  | .lonePoint =>
      [("character", .str (String.singleton c)), ("lexeme", .str "."), ("offset", .int offset)]

/-- What stands before the offending character, or before the run that it spoils. -/
def sound (before : List Char) : Offence → List Char
  | .foreign => before
  | .secondPoint | .lonePoint => before.rdropWhile Numeral.isPlainChar

end Offence

/-! ## Runs of digits and points -/

variable {c : Char} {cs gap lexeme rest before after a b : List Char} {p : Nat} {way : Offence}
  {e : LexError} {place : Location}

/-- A text that ends before a run has no part in it, and neither has one that ends with a run which
    does not go on. -/
theorem plainEnd_append (h : plainEnd a = [] ∨ (b ≠ [] ∧ ¬StartsPlain b)) :
    plainEnd (a ++ b) = plainEnd b ∧
      (a ++ b).rdropWhile Numeral.isPlainChar = a ++ b.rdropWhile Numeral.isPlainChar := by
  -- A run is taken from its end, so the last character decides first. Only if all of `b` is a run
  -- would what stands before it matter.
  induction b using List.reverseRecOn with
  | nil =>
    have ha : plainEnd a = [] := by simpa using h
    refine ⟨by simpa [plainEnd] using ha, ?_⟩
    have hsplit : a.rdropWhile Numeral.isPlainChar ++ plainEnd a = a :=
      List.rdropWhile_append_rtakeWhile
    rw [ha, List.append_nil] at hsplit
    simpa using hsplit
  | append_singleton b x ih =>
    rw [← List.append_assoc, plainEnd, plainEnd]
    by_cases hx : Numeral.isPlainChar x = true
    · have hb : plainEnd a = [] ∨ (b ≠ [] ∧ ¬StartsPlain b) := by
        apply h.imp_right
        rintro ⟨-, hstart⟩
        cases b with
        | nil => exact absurd ⟨x, rfl, hx⟩ hstart
        | cons y b => exact ⟨by simp, by simpa [StartsPlain] using hstart⟩
      obtain ⟨htake, hdrop⟩ := ih hb
      rw [List.rtakeWhile_concat_pos _ _ _ hx, List.rtakeWhile_concat_pos _ _ _ hx,
        List.rdropWhile_concat_pos _ _ _ hx, List.rdropWhile_concat_pos _ _ _ hx]
      exact ⟨by rw [← plainEnd, htake, plainEnd], hdrop⟩
    · rw [List.rtakeWhile_concat_neg _ _ _ hx, List.rtakeWhile_concat_neg _ _ _ hx,
        List.rdropWhile_concat_neg _ _ _ hx, List.rdropWhile_concat_neg _ _ _ hx]
      exact ⟨rfl, List.append_assoc a b [x]⟩

theorem plainEnd_of_forall (h : ∀ c ∈ cs, Numeral.isPlainChar c = true) : plainEnd cs = cs :=
  List.rtakeWhile_eq_self_iff.2 h

theorem IsGap.plainEnd_eq (h : IsGap gap) : plainEnd gap = [] := by
  rw [plainEnd, List.rtakeWhile_eq_nil_iff]
  intro hne hplain
  have hblank := isGap_iff.1 h _ (List.getLast_mem hne)
  simp [Numeral.isBlank_of_isPlainChar hplain] at hblank

theorem Numeral.IsPlain.count_point_le (h : Numeral.IsPlain cs) : cs.count '.' ≤ 1 := by
  have hdigits {ds : List Char} (hds : ∀ c ∈ ds, c.isDigit = true) : ds.count '.' = 0 :=
    List.count_eq_zero.2 fun hmem => absurd (hds '.' hmem) (by decide)
  cases h with
  | whole digits => simp [hdigits digits]
  | pointed whole fraction => simp [hdigits whole, hdigits fraction]

/-- The run that a number is read from stops before a point only if it holds one already. -/
theorem count_point_numberLexeme (h : cs = numberLexeme cs ++ '.' :: rest) :
    (numberLexeme cs).count '.' = 1 := by
  have hdigits (xs : List Char) : (xs.takeWhile Char.isDigit).count '.' = 0 :=
    List.count_eq_zero.2 fun hmem => absurd (List.mem_takeWhile_imp hmem) (by decide)
  unfold numberLexeme at h ⊢
  split at h
  · next more hmore => simp [hdigits]
  · next hnot =>
    have hsplit := cs.takeWhile_append_dropWhile (p := Char.isDigit)
    rw [List.append_nil] at h
    have hdrop : cs.dropWhile Char.isDigit = '.' :: rest :=
      List.append_cancel_left (hsplit.trans h)
    exact absurd hdrop (hnot rest)

theorem isPlainChar_of_mem_numberLexeme (h : c ∈ numberLexeme cs) :
    Numeral.isPlainChar c = true := by
  have hdigit {xs : List Char} (h : c ∈ xs.takeWhile Char.isDigit) :
      Numeral.isPlainChar c = true := by
    simp [Numeral.isPlainChar, List.mem_takeWhile_imp h]
  unfold numberLexeme at h
  rcases List.mem_append.1 h with h | h
  · exact hdigit h
  · split at h
    · rcases List.mem_cons.1 h with rfl | h
      · decide
      · exact hdigit h
    · simp at h

/-! ## Where a text offends -/

theorem isDigit_iff_mem : c.isDigit = true ↔ c ∈ "0123456789".toList := by
  constructor
  · intro h
    obtain ⟨hlow, hhigh⟩ := Char.isDigit_iff_toNat.1 h
    obtain ⟨d, hd, htoNat⟩ : ∃ d < 10, c.toNat = 48 + d := by
      have hlow : 48 ≤ c.toNat := hlow
      have hhigh : c.toNat ≤ 57 := hhigh
      exact ⟨c.toNat - 48, by omega, by omega⟩
    have hall : ∀ d < 10, Char.ofNat (48 + d) ∈ "0123456789".toList := by decide
    rw [← Char.ofNat_toNat c, htoNat]
    exact hall d hd
  · intro h
    have hall : "0123456789".toList.all Char.isDigit = true := by decide
    exact List.all_eq_true.1 hall c h

theorem mem_alphabet_iff :
    c ∈ alphabet ↔ Text.isBlank c = true ∨ Numeral.isPlainChar c = true ∨
      ∃ kind, TokenKind.ofChar? c = some kind := by
  have hmark : (∃ kind, TokenKind.ofChar? c = some kind) ↔ c ∈ "+-*/()".toList := by
    constructor
    · rintro ⟨kind, h⟩
      unfold TokenKind.ofChar? at h
      split_ifs at h
      all_goals
        subst c
        decide
    · intro h
      have hall : "+-*/()".toList.all (fun c => (TokenKind.ofChar? c).isSome) = true := by decide
      exact Option.isSome_iff_exists.1 (List.all_eq_true.1 hall c h)
  have halphabet : alphabet = blanks ++ ("0123456789".toList ++ '.' :: "+-*/()".toList) := by decide
  rw [halphabet, hmark, isBlank_iff, Numeral.isPlainChar, Bool.or_eq_true, isDigit_iff_mem,
    decide_eq_true_eq]
  rw [List.mem_append, List.mem_append, List.mem_cons, or_assoc]

theorem OffendsAt.lt_length (h : OffendsAt cs p way) : p < cs.length := by
  cases h with
  | foreign char | secondPoint char | lonePoint char =>
    exact (List.getElem?_eq_some_iff.1 char).1

/-- A character of the alphabet that is no point does not offend. -/
theorem OffendsAt.mem_alphabet (h : OffendsAt cs p way) (hc : cs[p]? = some c)
    (hmem : c ∈ alphabet) : c = '.' := by
  cases h with
  | foreign char outside =>
    obtain rfl := Option.some.inj (hc.symm.trans char)
    exact absurd hmem outside
  | secondPoint char | lonePoint char => exact Option.some.inj (hc.symm.trans char)

theorem offendsAt_append_length_iff :
    OffendsAt (before ++ c :: after) before.length way ↔
      (c ∉ alphabet ∧ way = .foreign) ∨
      (c = '.' ∧ (plainEnd before).count '.' = 1 ∧ way = .secondPoint) ∨
      (c = '.' ∧ plainEnd before = [] ∧ ¬StartsPlain after ∧ way = .lonePoint) := by
  have hchar : (before ++ c :: after)[before.length]? = some c := by simp
  have htake : (before ++ c :: after).take before.length = before := by simp
  have hdrop : (before ++ c :: after).drop (before.length + 1) = after := by
    rw [← List.drop_drop, List.drop_left]
    rfl
  constructor
  · intro h
    cases h with
    | foreign char outside =>
      obtain rfl := Option.some.inj (hchar.symm.trans char)
      exact .inl ⟨outside, rfl⟩
    | secondPoint char second =>
      rw [htake] at second
      exact .inr (.inl ⟨Option.some.inj (hchar.symm.trans char), second, rfl⟩)
    | lonePoint char first last =>
      rw [htake] at first
      rw [hdrop] at last
      exact .inr (.inr ⟨Option.some.inj (hchar.symm.trans char), first, last, rfl⟩)
  · rintro (⟨outside, rfl⟩ | ⟨rfl, second, rfl⟩ | ⟨rfl, first, last, rfl⟩)
    · exact .foreign hchar outside
    · exact .secondPoint hchar (htake.symm ▸ second)
    · exact .lonePoint hchar (htake.symm ▸ first) (hdrop.symm ▸ last)

/-- Before a point, a run does not reach back over a place where no run goes on. -/
theorem plainEnd_append_take (h : plainEnd a = [] ∨ ¬StartsPlain b) (hp : b[p]? = some '.') :
    plainEnd (a ++ b.take p) = plainEnd (b.take p) ∧
      (a ++ b.take p).rdropWhile Numeral.isPlainChar =
        a ++ (b.take p).rdropWhile Numeral.isPlainChar := by
  refine plainEnd_append (h.imp_right fun hstart => ?_)
  cases b with
  | nil => simp at hp
  | cons x b =>
    cases p with
    | zero =>
      obtain rfl : x = '.' := by simpa using hp
      exact absurd ⟨'.', rfl, by decide⟩ hstart
    | succ p => exact ⟨by simp, by simpa [StartsPlain] using hstart⟩

/-- Where no run goes on, what follows offends by itself. -/
theorem offendsAt_append_iff (h : plainEnd a = [] ∨ ¬StartsPlain b) :
    OffendsAt (a ++ b) (a.length + p) way ↔ OffendsAt b p way := by
  have hchar : (a ++ b)[a.length + p]? = b[p]? := by
    rw [List.getElem?_append_right (Nat.le_add_right _ _), Nat.add_sub_cancel_left]
  have htake : (a ++ b).take (a.length + p) = a ++ b.take p := List.take_length_add_append p
  have hdrop : (a ++ b).drop (a.length + p + 1) = b.drop (p + 1) := by
    rw [Nat.add_assoc, List.drop_length_add_append]
  constructor
  · intro hoff
    cases hoff with
    | foreign char outside => exact .foreign (hchar ▸ char) outside
    | secondPoint char second =>
      rw [hchar] at char
      rw [htake, (plainEnd_append_take h char).1] at second
      exact .secondPoint char second
    | lonePoint char first last =>
      rw [hchar] at char
      rw [htake, (plainEnd_append_take h char).1] at first
      exact .lonePoint char first (hdrop ▸ last)
  · intro hoff
    cases hoff with
    | foreign char outside => exact .foreign (hchar.trans char) outside
    | secondPoint char second =>
      refine .secondPoint (hchar.trans char) ?_
      rw [htake, (plainEnd_append_take h char).1, second]
    | lonePoint char first last =>
      refine .lonePoint (hchar.trans char) ?_ (hdrop.symm ▸ last)
      rw [htake, (plainEnd_append_take h char).1, first]

/-! ## Words do not offend -/

/-- Nothing in the first of two texts offends, and no run goes on from it into the second. -/
structure Passes (a b : List Char) : Prop where
  sound : ∀ p < a.length, ∀ way, ¬OffendsAt (a ++ b) p way
  apart : plainEnd a = [] ∨ ¬StartsPlain b

/-- Behind a text that passes, an offence is one of the rest by itself. -/
theorem Passes.exists_offendsAt (h : Passes a b) (hoff : OffendsAt (a ++ b) p way) :
    ∃ q, p = a.length + q ∧ OffendsAt b q way := by
  by_cases hlt : p < a.length
  · exact absurd hoff (h.sound p hlt way)
  · obtain ⟨q, rfl⟩ := Nat.exists_eq_add_of_le (Nat.le_of_not_lt hlt)
    exact ⟨q, rfl, (offendsAt_append_iff h.apart).1 hoff⟩

theorem IsGap.passes (h : IsGap gap) (rest : List Char) : Passes gap rest where
  sound := by
    intro p hp way hoff
    obtain ⟨c, hc⟩ : ∃ c, gap[p]? = some c := ⟨_, List.getElem?_eq_getElem hp⟩
    have hmem := List.mem_of_getElem? hc
    have hsafe : c ∈ alphabet := mem_alphabet_iff.2 (.inl (isGap_iff.1 h c hmem))
    obtain rfl := hoff.mem_alphabet (by rw [List.getElem?_append_left hp, hc]) hsafe
    exact absurd (h '.' hmem) (by decide)
  apart := .inl h.plainEnd_eq

/-- Of a run with at most one point nothing offends, unless it is a lone point. -/
theorem not_offendsAt_run (hplain : ∀ c ∈ lexeme, Numeral.isPlainChar c = true)
    (hcount : lexeme.count '.' ≤ 1) (hlone : lexeme = ['.'] → StartsPlain rest)
    (hp : p < lexeme.length) : ¬OffendsAt (lexeme ++ rest) p way := by
  intro hoff
  obtain ⟨before, c, after, rfl, rfl⟩ : ∃ before c after,
      lexeme = before ++ c :: after ∧ before.length = p :=
    ⟨lexeme.take p, lexeme[p], lexeme.drop (p + 1), by simp, by simp; omega⟩
  have hbefore : plainEnd before = before := plainEnd_of_forall fun x hx => hplain x (by simp [hx])
  rw [List.append_assoc, List.cons_append, offendsAt_append_length_iff, hbefore] at hoff
  rcases hoff with ⟨outside, -⟩ | ⟨rfl, second, -⟩ | ⟨rfl, rfl, last, -⟩
  · exact outside (mem_alphabet_iff.2 (.inr (.inl (hplain c (by simp)))))
  · simp only [List.count_append, List.count_cons_self] at hcount
    omega
  · cases after with
    | nil => exact last (by simpa using hlone rfl)
    | cons x after => exact last ⟨x, rfl, hplain x (by simp)⟩

theorem IsLexeme.passes {kind : TokenKind} (h : IsLexeme kind lexeme)
    (hfollow : kind = .number → ¬StartsPlain rest) : Passes lexeme rest := by
  cases h with
  | number plain =>
    refine ⟨fun p hp way => ?_, .inr (hfollow rfl)⟩
    exact not_offendsAt_run plain.isPlainChar plain.count_point_le
      (fun hlone => absurd hlone plain.ne_point) hp
  | plus | minus | star | slash | openParen | closeParen =>
    refine ⟨fun p hp way hoff => ?_, .inl (by decide)⟩
    obtain rfl : p = 0 := by simpa using hp
    exact absurd (hoff.mem_alphabet rfl (by decide)) (by decide)

theorem Word.IsValid.passes {w : Word} (h : w.IsValid)
    (hfollow : w.kind = .number → ¬StartsPlain rest) : Passes w.chars rest := by
  have hgap := h.gap.passes (w.lexeme ++ rest)
  have hlexeme := h.lexeme.passes hfollow
  constructor
  · intro p hp way hoff
    rw [Word.chars, List.append_assoc] at hoff
    obtain ⟨q, rfl, hinside⟩ := hgap.exists_offendsAt hoff
    rw [Word.chars, List.length_append] at hp
    exact hlexeme.sound q (by omega) way hinside
  · rw [Word.chars, (plainEnd_append (.inl h.gap.plainEnd_eq)).1]
    exact hlexeme.apart

/-- A text that splits into words has no offence. -/
theorem SplitsInto.not_offendsAt {ws : List Word} {trailing : List Char}
    (h : SplitsInto cs ws trailing) : ¬OffendsAt cs p way := by
  induction ws generalizing cs p with
  | nil =>
    intro hoff
    have hgap := h.isGap_of_nil.passes []
    exact hgap.sound p hoff.lt_length way (by simpa using hoff)
  | cons w ws ih =>
    have htext : cs = w.chars ++ (ws.flatMap Word.chars ++ trailing) := by
      rw [h.text, List.flatMap_cons, List.append_assoc]
    rw [htext] at h ⊢
    obtain ⟨hw, hrest, hfollow⟩ := cons_iff.1 h
    intro hoff
    obtain ⟨q, -, hlater⟩ := (hw.passes hfollow).exists_offendsAt hoff
    exact ih hrest hlater

/-! ## The first offence -/

/-- The leftmost position at which a text offends, and the way in which it does. -/
structure FirstOffence (cs : List Char) (p : Nat) (way : Offence) : Prop where
  offends : OffendsAt cs p way
  leftmost : ∀ q way', OffendsAt cs q way' → p ≤ q

/-- The error that reports an offence, from what stands before the character and its place. -/
def Offence.error (before : List Char) (c : Char) (place : Location) : Offence → LexError
  | .foreign => .unexpectedCharacter c place
  | .secondPoint => .malformedNumber (String.ofList (plainEnd before)) place
  | .lonePoint => .malformedNumber "." place

/-- An error reports the first offence of a text that begins at a place, and what stands before the
    offending character or run splits into words. -/
structure Reports (e : LexError) (cs : List Char) (place : Location) (p : Nat) (way : Offence)
    (ws : List Word) : Prop where
  first : FirstOffence cs p way
  error : ∃ c, cs[p]? = some c ∧ e = way.error (cs.take p) c (place.after (cs.take p))
  splits : ∃ trailing, SplitsInto (way.sound (cs.take p)) ws trailing

theorem FirstOffence.append (h : Passes a b) (hfirst : FirstOffence b p way) :
    FirstOffence (a ++ b) (a.length + p) way where
  offends := (offendsAt_append_iff h.apart).2 hfirst.offends
  leftmost := by
    intro q way' hoff
    obtain ⟨q, rfl, hlater⟩ := h.exists_offendsAt hoff
    exact Nat.add_le_add_left (hfirst.leftmost q way' hlater) a.length

theorem OffendsAt.append_take (hoff : OffendsAt b p way) (h : plainEnd a = [] ∨ ¬StartsPlain b) :
    (∀ place, way.error (a ++ b.take p) c place = way.error (b.take p) c place) ∧
      way.sound (a ++ b.take p) = a ++ way.sound (b.take p) := by
  cases hoff with
  | foreign => exact ⟨fun _ => rfl, rfl⟩
  | secondPoint char | lonePoint char =>
    obtain ⟨htake, hdrop⟩ := plainEnd_append_take h char
    exact ⟨fun _ => by simp only [Offence.error, htake], hdrop⟩

theorem StartsPlain.of_isPrefix (h : StartsPlain a) (hle : a <+: b) : StartsPlain b := by
  obtain ⟨c, hc, hplain⟩ := h
  obtain ⟨more, rfl⟩ := hle
  cases a with
  | nil => simp at hc
  | cons x a => exact ⟨c, hc, hplain⟩

theorem Offence.sound_isPrefix (way : Offence) (cs : List Char) : way.sound cs <+: cs := by
  cases way with
  | foreign => exact List.prefix_rfl
  | secondPoint | lonePoint => exact List.rdropWhile_prefix _ _

/-- What is wrong with a text is also wrong with it behind a text that passes. -/
theorem Reports.append {ws ws' : List Word} (h : Passes a b)
    (hreports : Reports e b (place.after a) p way ws)
    (hsplits : ∃ trailing, SplitsInto (a ++ way.sound (b.take p)) ws' trailing) :
    Reports e (a ++ b) place (a.length + p) way ws' := by
  have htake : (a ++ b).take (a.length + p) = a ++ b.take p := List.take_length_add_append p
  obtain ⟨c, hc, herror⟩ := hreports.error
  obtain ⟨hsame, hsound⟩ := hreports.first.offends.append_take (c := c) h.apart
  refine ⟨hreports.first.append h, ⟨c, ?_, ?_⟩, ?_⟩
  · rw [List.getElem?_append_right (Nat.le_add_right _ _), Nat.add_sub_cancel_left, hc]
  · rw [htake, hsame, Location.after_append, herror]
  · rw [htake, hsound]
    exact hsplits

theorem Reports.gap_append (hgap : IsGap gap) (h : Reports e rest (place.after gap) p way []) :
    Reports e (gap ++ rest) place (gap.length + p) way [] := by
  obtain ⟨trailing, hsplits⟩ := h.splits
  refine h.append (hgap.passes rest) ⟨_, .nil fun c hc => ?_⟩
  rcases List.mem_append.1 hc with hc | hc
  · exact hgap c hc
  · exact hsplits.isGap_of_nil c hc

theorem Reports.word_append {w : Word} {ws : List Word} (hw : w.IsValid)
    (hfollow : w.kind = .number → ¬StartsPlain rest)
    (h : Reports e rest (place.after w.chars) p way ws) :
    Reports e (w.chars ++ rest) place (w.chars.length + p) way (w :: ws) := by
  obtain ⟨trailing, hsplits⟩ := h.splits
  refine h.append (hw.passes hfollow) ⟨trailing, SplitsInto.cons_iff.2 ⟨hw, hsplits, ?_⟩⟩
  intro hkind hstart
  exact hfollow hkind (hstart.of_isPrefix
    ((way.sound_isPrefix _).trans (List.take_prefix p rest)))

/-- An offence behind a run that does not offend is the first of the text. -/
theorem Reports.run (lexeme : List Char) (place : Location)
    (hplain : ∀ c ∈ lexeme, Numeral.isPlainChar c = true)
    (hcount : lexeme.count '.' ≤ 1) (hlone : lexeme = ['.'] → StartsPlain (c :: rest))
    (hoff : OffendsAt (lexeme ++ c :: rest) lexeme.length way) (hsound : way.sound lexeme = []) :
    Reports (way.error lexeme c (place.after lexeme)) (lexeme ++ c :: rest) place lexeme.length way
      [] where
  first := by
    refine ⟨hoff, fun q way' hoff' => Nat.le_of_not_lt fun hlt => ?_⟩
    exact not_offendsAt_run hplain hcount hlone hlt hoff'
  error := ⟨c, by simp, by simp⟩
  splits := by
    refine ⟨[], ?_⟩
    rw [List.take_left, hsound]
    exact .nil (by simp [IsGap])

/-- A run up to a second point. -/
theorem Reports.secondPoint (place : Location) (rest : List Char)
    (hplain : ∀ c ∈ lexeme, Numeral.isPlainChar c = true) (hcount : lexeme.count '.' = 1) :
    Reports (.malformedNumber (String.ofList lexeme) (place.after lexeme)) (lexeme ++ '.' :: rest)
      place lexeme.length .secondPoint [] := by
  have hend : plainEnd lexeme = lexeme := plainEnd_of_forall hplain
  have hoff : OffendsAt (lexeme ++ '.' :: rest) lexeme.length .secondPoint :=
    offendsAt_append_length_iff.2 (.inr (.inl ⟨rfl, by rw [hend, hcount], rfl⟩))
  have hreports := Reports.run lexeme place hplain (Nat.le_of_eq hcount)
    (fun _ => ⟨'.', rfl, by decide⟩) hoff (List.rdropWhile_eq_nil_iff.2 hplain)
  rwa [Offence.error, hend] at hreports

theorem Reports.lonePoint (hrest : ¬StartsPlain rest) :
    Reports (.malformedNumber "." place) ('.' :: rest) place 0 .lonePoint [] :=
  .run [] place (by simp) (by simp) (by simp)
    (offendsAt_append_length_iff.2 (.inr (.inr ⟨rfl, rfl, hrest, rfl⟩))) rfl

theorem Reports.foreign (hc : c ∉ alphabet) :
    Reports (.unexpectedCharacter c place) (c :: rest) place 0 .foreign [] :=
  .run [] place (by simp) (by simp) (by simp)
    (offendsAt_append_length_iff.2 (.inl ⟨hc, rfl⟩)) rfl

namespace Cursor

variable {s c' : Cursor} {t : Token} {ts : List Token}

/-- A number that cannot be read is spoiled by a second point, or it is a lone one. -/
theorem exists_reports_of_scanNumber (h : s.scanNumber = (.error e, c')) :
    ∃ p way, Reports e s.rest s.place p way [] := by
  obtain ⟨cs, place⟩ := s
  obtain ⟨rest, hsplit, hdigit⟩ := exists_numberLexeme_append cs
  have hadvance := advance_append (numberLexeme cs) rest place
  rw [← hsplit] at hadvance
  simp only [scanNumber, hadvance] at h
  split at h
  · next hpoint =>
    obtain ⟨more, rfl⟩ := List.head?_eq_some_iff.1 hpoint
    obtain rfl : _ = e := by simpa using congrArg Prod.fst h
    have hreports := Reports.secondPoint place more
      (fun c => isPlainChar_of_mem_numberLexeme) (count_point_numberLexeme hsplit)
    rw [← hsplit] at hreports
    exact ⟨_, _, hreports⟩
  · next hpoint =>
    split at h
    · next hlone =>
      obtain rfl : _ = e := by simpa using congrArg Prod.fst h
      rw [hlone, List.singleton_append] at hsplit
      rw [hlone]
      simp only [hsplit]
      exact ⟨0, .lonePoint, .lonePoint (not_startsPlain hdigit hpoint)⟩
    · simp [take] at h

/-- A scan that fails reports the first offence of what is left of the text. -/
theorem exists_reports_of_scan (h : s.scan = (.error e, c')) :
    ∃ p way, Reports e s.rest s.place p way [] := by
  have hblank := s.isBlank_head?_skipBlanks
  obtain ⟨gap, rest, hsplit, hgap, hskip⟩ := s.exists_skipBlanks
  rw [scan, hskip] at h
  rw [hskip] at hblank
  suffices hreports : ∃ p way, Reports e rest (s.place.after gap) p way [] by
    obtain ⟨p, way, hreports⟩ := hreports
    rw [hsplit]
    exact ⟨_, way, hreports.gap_append hgap⟩
  unfold scanToken at h
  split at h
  · simp at h
  · next x xs hrest =>
    split at h
    · exact exists_reports_of_scanNumber h
    · next hplain =>
      split at h
      · simp [take] at h
      · next hmark =>
        simp only at hrest
        subst hrest
        obtain rfl : _ = e := by simpa using congrArg Prod.fst h
        refine ⟨0, .foreign, .foreign ?_⟩
        rw [mem_alphabet_iff]
        rintro (h | h | ⟨kind, h⟩)
        · simp [hblank x rfl] at h
        · exact hplain h
        · simp [hmark] at h

/-- Tokens are delivered up to the first offence: those of the words before it. -/
theorem Delivers.exists_reports (h : s.Delivers ts (some e)) :
    ∃ p way ws, Reports e s.rest s.place p way ws ∧
      ts.map Token.entry = Word.entries s.place.offset ws := by
  generalize hr : some e = r at h
  induction h with
  | failed scan =>
    obtain rfl := Option.some.inj hr
    obtain ⟨p, way, hreports⟩ := exists_reports_of_scan scan
    exact ⟨p, way, [], hreports, rfl⟩
  | ended => simp at hr
  | token scan kind _ ih =>
    obtain ⟨p, way, ws, hreports, hentries⟩ := ih hr
    obtain ⟨w, hw, hrest, hentry, hplace, hfollow⟩ := exists_word_of_scan scan kind
    rw [hplace] at hreports
    -- The word passes, so what is wrong behind it is what is wrong first.
    refine ⟨_, way, w :: ws, hrest ▸ hreports.word_append hw hfollow, ?_⟩
    rw [List.map_cons, hentry, hentries, hplace, Location.offset_after]
    rfl

end Cursor

/-- What the error that reports an offence says. -/
theorem OffendsAt.diagnostic_error (h : OffendsAt cs p way) (hc : cs[p]? = some c)
    (before : List Char) (place : Location) :
    (way.error before c place).place = place ∧ (way.error before c place).character = c ∧
      (way.error before c place).diagnostic.place = some place ∧
      (way.error before c place).diagnostic.kind = way.kind ∧
      (way.error before c place).diagnostic.details = way.details before c place.offset := by
  cases h with
  | foreign => exact ⟨rfl, rfl, rfl, rfl, rfl⟩
  | secondPoint char | lonePoint char =>
    obtain rfl := Option.some.inj (hc.symm.trans char)
    exact ⟨rfl, rfl, rfl, rfl, rfl⟩

/-- Lexing fails exactly if the text offends somewhere, and then at its first offence: the error has
    its offset, its character and its kind, and the number that is spoiled, if it is one. The tokens
    that are delivered before are those of the words that stand before the offending character or
    the run that it spoils. -/
theorem tokens_error_at_first_offence (source : String) :
    ((∃ e, tokens source = .error e) ↔ ∃ p way, OffendsAt source.toList p way) ∧
    ∀ e, tokens source = .error e →
      ∃ p way c, OffendsAt source.toList p way ∧
        (∀ q way', OffendsAt source.toList q way' → p ≤ q) ∧
        source.toList[p]? = some c ∧ e.character = c ∧ e.place.offset = p ∧
        e.diagnostic.place = some e.place ∧ e.diagnostic.kind = way.kind ∧
        e.diagnostic.details = way.details (source.toList.take p) c p ∧
        ∃ ts l l' ws trailing, (Lexer.reading source).Yields ts l ∧ l.next = (.error e, l') ∧
          SplitsInto (way.sound (source.toList.take p)) ws trailing ∧
          ts.map Token.entry = Word.entries 0 ws := by
  obtain ⟨us, r, hdelivers⟩ := (Cursor.ofText source).exists_delivers
  have htokens : tokens source = r.elim (.ok us) .error := hdelivers.tokens_eq
  cases r with
  | none =>
    obtain ⟨ws, trailing, hsplits, -⟩ := exists_splitsInto htokens
    refine ⟨iff_of_false ?_ ?_, fun e he => ?_⟩
    · rintro ⟨e, he⟩
      simp [htokens] at he
    · rintro ⟨p, way, hoff⟩
      exact hsplits.not_offendsAt hoff
    · simp [htokens] at he
  | some err =>
    obtain ⟨p, way, ws, hreports, hentries⟩ := hdelivers.exists_reports
    have hfirst : FirstOffence source.toList p way := hreports.first
    refine ⟨iff_of_true ⟨err, htokens⟩ ⟨p, way, hfirst.offends⟩, fun e he => ?_⟩
    obtain rfl : err = e := Except.error.inj (htokens.symm.trans he)
    obtain ⟨c, hc, herror⟩ := hreports.error
    obtain ⟨trailing, hsplits⟩ := hreports.splits
    obtain ⟨l, l', hyields, hnext⟩ := Lexer.exists_yields (l := .reading source) hdelivers rfl
    let place := Location.start.after (source.toList.take p)
    have hoffset : place.offset = p := by
      have := hfirst.offends.lt_length
      rw [Location.offset_after, List.length_take]
      simp only [Location.start]
      omega
    obtain ⟨hplace, hcharacter, hdiagnostic, hkind, hdetails⟩ :=
      hfirst.offends.diagnostic_error hc (source.toList.take p) place
    obtain rfl : err = way.error (source.toList.take p) c place := herror
    refine ⟨p, way, c, hfirst.offends, hfirst.leftmost, hc, hcharacter, ?_, ?_, hkind, ?_,
      us, l, l', ws, trailing, hyields, hnext, hsplits, hentries⟩
    · rw [hplace, hoffset]
    · rw [hdiagnostic, hplace]
    · rw [hdetails, hoffset]

end ArithJit
