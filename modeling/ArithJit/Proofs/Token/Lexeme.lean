import ArithJit.Proofs.Token.Delivery

/-!
# Lexemes

A lexeme is one of the six marks or a plain decimal. Over a lexeme, with what follows it in place, a
scan delivers it, and whatever a scan delivers is a lexeme where the cursor stands. A number is the
longest run of digits and points, so that neither a digit nor a point may follow it.
-/

namespace ArithJit

/-- The lexemes of each kind of token. The end mark has none. -/
inductive IsLexeme : TokenKind → List Char → Prop
  | number {cs : List Char} (plain : Numeral.IsPlain cs) : IsLexeme .number cs
  | plus : IsLexeme .plus ['+']
  | minus : IsLexeme .minus ['-']
  | star : IsLexeme .star ['*']
  | slash : IsLexeme .slash ['/']
  | openParen : IsLexeme .openParen ['(']
  | closeParen : IsLexeme .closeParen [')']

/-- The space, the tab, the line feed, the vertical tab, the form feed and the carriage return. -/
def blanks : List Char := [' ', '\t', '\n', '\x0b', '\x0c', '\r']

/-- Nothing but blanks. -/
def IsGap (cs : List Char) : Prop := ∀ c ∈ cs, c ∈ blanks

/-! ## Characters -/

theorem isBlank_iff {c : Char} : Text.isBlank c = true ↔ c ∈ blanks := by
  constructor
  · intro h
    simp only [Text.isBlank, Bool.or_eq_true, decide_eq_true_eq, Bool.and_eq_true] at h
    rcases h with rfl | ⟨hlow, hhigh⟩
    · decide
    · have hcases : c.toNat = 9 ∨ c.toNat = 10 ∨ c.toNat = 11 ∨ c.toNat = 12 ∨ c.toNat = 13 := by
        omega
      rw [← Char.ofNat_toNat c]
      rcases hcases with h | h | h | h | h
      all_goals rw [h]; decide
  · intro h
    simp only [blanks, List.mem_cons, List.not_mem_nil, or_false] at h
    rcases h with rfl | rfl | rfl | rfl | rfl | rfl
    all_goals decide

theorem isGap_iff {cs : List Char} : IsGap cs ↔ ∀ c ∈ cs, Text.isBlank c = true := by
  simp only [IsGap, isBlank_iff]

/-- The texts that begin with a digit or a point. -/
def StartsPlain (cs : List Char) : Prop := ∃ c ∈ cs.head?, Numeral.isPlainChar c = true

variable {c : Char} {cs rest gap lexeme : List Char} {kind : TokenKind}

theorem not_startsPlain (hdigit : ∀ x ∈ cs.head?, x.isDigit = false)
    (hpoint : cs.head? ≠ some '.') : ¬StartsPlain cs := by
  rintro ⟨x, hx, hplain⟩
  rcases Bool.or_eq_true_iff.1 hplain with hyes | hyes
  · simp [hdigit x hx] at hyes
  · obtain rfl := of_decide_eq_true hyes
    exact hpoint hx

theorem IsGap.not_startsPlain (h : IsGap gap) : ¬StartsPlain gap := by
  rintro ⟨c, hc, hplain⟩
  have hblank := isGap_iff.1 h c (List.mem_of_mem_head? hc)
  simp [Numeral.isBlank_of_isPlainChar hplain] at hblank

theorem Numeral.IsPlain.ne_nil (h : Numeral.IsPlain cs) : cs ≠ [] := by
  cases h with
  | whole _ ne => exact ne
  | pointed => simp

/-- A point alone is not a number. -/
theorem Numeral.IsPlain.ne_point (h : Numeral.IsPlain cs) : cs ≠ ['.'] := by
  cases h with
  | whole digits =>
    rintro rfl
    exact absurd (digits '.' (by simp)) (by decide)
  | pointed _ _ ne =>
    intro heq
    simp only [List.append_eq_singleton_iff, List.cons.injEq, true_and, reduceCtorEq, and_false,
      or_false] at heq
    exact ne (List.append_eq_nil_iff.2 heq)

theorem IsLexeme.exists_cons (h : IsLexeme kind lexeme) :
    ∃ c cs, lexeme = c :: cs ∧ Text.isBlank c = false ∧
      (Numeral.isPlainChar c = true ↔ kind = .number) := by
  cases h with
  | number plain =>
    obtain ⟨c, cs, rfl⟩ := List.exists_cons_of_ne_nil plain.ne_nil
    have hc := plain.isPlainChar c (by simp)
    exact ⟨c, cs, rfl, Numeral.isBlank_of_isPlainChar hc, by simp [hc]⟩
  | plus | minus | star | slash | openParen | closeParen => exact ⟨_, [], rfl, by decide, by decide⟩

theorem IsLexeme.isBlank_eq_false (h : IsLexeme kind lexeme) (hc : c ∈ lexeme) :
    Text.isBlank c = false := by
  cases h with
  | number plain => exact Numeral.isBlank_of_isPlainChar (plain.isPlainChar c hc)
  | plus | minus | star | slash | openParen | closeParen =>
    obtain rfl := List.mem_singleton.1 hc
    decide

/-- The marks are the characters that are tokens by themselves. -/
theorem isLexeme_singleton_iff (hkind : kind ≠ .number) :
    IsLexeme kind [c] ↔ TokenKind.ofChar? c = some kind := by
  constructor
  · intro h
    cases h with
    | number => exact absurd rfl hkind
    | plus | minus | star | slash | openParen | closeParen => rfl
  · intro h
    unfold TokenKind.ofChar? at h
    split_ifs at h with h₁ h₂ h₃ h₄ h₅ h₆
    all_goals
      subst c
      obtain rfl := Option.some.inj h
    exacts [.plus, .minus, .star, .slash, .openParen, .closeParen]

theorem ofChar?_ne {x : Char} (h : TokenKind.ofChar? x = some kind) :
    kind ≠ .number ∧ kind ≠ .endMark := by
  simp only [TokenKind.ofChar?] at h
  grind

/-! ## The longest run of digits and points -/

/-- A plain decimal that nothing plain follows is the whole run. -/
theorem numberLexeme_append (h : Numeral.IsPlain lexeme) (hrest : ¬StartsPlain rest) :
    numberLexeme (lexeme ++ rest) = lexeme := by
  have hplain : ∀ x ∈ rest.head?, Numeral.isPlainChar x = false := by
    intro x hx
    rw [← Bool.not_eq_true]
    exact fun hplain => hrest ⟨x, hx, hplain⟩
  have hdigit : ∀ x ∈ rest.head?, x.isDigit = false := by
    intro x hx
    exact (Bool.or_eq_false_iff.1 (hplain x hx)).1
  cases h with
  | whole digits =>
    obtain ⟨htake, hdrop⟩ := takeWhile_of_boundary digits hdigit
    rw [numberLexeme, htake, hdrop]
    split
    · exact absurd (hplain '.' rfl) (by decide)
    · simp
  | @pointed ds fs whole fraction =>
    have hpoint : ∀ x ∈ ('.' :: (fs ++ rest)).head?, x.isDigit = false := by
      intro x hx
      obtain rfl := Option.some.inj hx
      decide
    obtain ⟨htake, hdrop⟩ := takeWhile_of_boundary whole hpoint
    obtain ⟨hfraction, -⟩ := takeWhile_of_boundary fraction hdigit
    rw [List.append_assoc, List.cons_append, numberLexeme, htake, hdrop]
    simp [hfraction]

/-- What is left after the run does not begin with a digit. -/
theorem exists_numberLexeme_append (cs : List Char) :
    ∃ rest, cs = numberLexeme cs ++ rest ∧ ∀ x ∈ rest.head?, x.isDigit = false := by
  have hboundary (xs : List Char) : ∀ x ∈ (xs.dropWhile Char.isDigit).head?, x.isDigit = false := by
    intro x hx
    have hnot := List.head?_dropWhile_not Char.isDigit xs
    rw [Option.mem_def.1 hx] at hnot
    exact hnot
  unfold numberLexeme
  split
  · next more hmore =>
    refine ⟨more.dropWhile Char.isDigit, ?_, hboundary more⟩
    rw [List.append_assoc, List.cons_append, List.takeWhile_append_dropWhile, ← hmore,
      List.takeWhile_append_dropWhile]
  · exact ⟨cs.dropWhile Char.isDigit, by simp, hboundary cs⟩

/-! ## One scan -/

theorem Location.offset_after (l : Location) (cs : List Char) :
    (l.after cs).offset = l.offset + cs.length := by
  induction cs generalizing l with
  | nil => simp
  | cons c cs ih =>
    have hadvance : (l.advance c).offset = l.offset + 1 := by
      unfold advance
      split <;> rfl
    rw [after_cons, ih, hadvance, List.length_cons]
    omega

namespace Cursor

variable {place : Location} {t : Token} {s c' : Cursor}

theorem advance_append (xs ys : List Char) (place : Location) :
    advance ⟨xs ++ ys, place⟩ xs.length = ⟨ys, place.after xs⟩ := by
  simp [advance]

/-- Passing over blanks leaves the blanks behind, and no blank in front. -/
theorem skipBlanks_append (hgap : IsGap gap) (hrest : ∀ x ∈ rest.head?, Text.isBlank x = false) :
    skipBlanks ⟨gap ++ rest, place⟩ = ⟨rest, place.after gap⟩ := by
  have htake := (takeWhile_of_boundary (isGap_iff.1 hgap) hrest).1
  rw [skipBlanks, htake, advance_append]

theorem exists_skipBlanks (s : Cursor) :
    ∃ gap rest, s.rest = gap ++ rest ∧ IsGap gap ∧ s.skipBlanks = ⟨rest, s.place.after gap⟩ := by
  have hsplit := s.rest.takeWhile_append_dropWhile (p := Text.isBlank)
  have hgap : IsGap (s.rest.takeWhile Text.isBlank) :=
    isGap_iff.2 fun c hc => List.mem_takeWhile_imp hc
  refine ⟨_, _, hsplit.symm, hgap, ?_⟩
  have hadvance := advance_append (s.rest.takeWhile Text.isBlank) (s.rest.dropWhile Text.isBlank)
    s.place
  rw [hsplit] at hadvance
  exact hadvance

theorem isBlank_head?_skipBlanks (s : Cursor) :
    ∀ x ∈ s.skipBlanks.rest.head?, Text.isBlank x = false := by
  have hrest : s.skipBlanks.rest = s.rest.dropWhile Text.isBlank :=
    calc s.rest.drop (s.rest.takeWhile Text.isBlank).length
        = (s.rest.takeWhile Text.isBlank ++ s.rest.dropWhile Text.isBlank).drop
            (s.rest.takeWhile Text.isBlank).length := by rw [List.takeWhile_append_dropWhile]
      _ = s.rest.dropWhile Text.isBlank := List.drop_left
  intro x hx
  have hnot := List.head?_dropWhile_not Text.isBlank s.rest
  rw [hrest, Option.mem_def] at hx
  rw [hx] at hnot
  exact hnot

/-- Over a lexeme a scan delivers it, unless a number is followed by a digit or a point. -/
theorem scanToken_append (hlexeme : IsLexeme kind lexeme)
    (hrest : kind = .number → ¬StartsPlain rest) :
    scanToken ⟨lexeme ++ rest, place⟩ =
      (.ok ⟨kind, String.ofList lexeme, place⟩, ⟨rest, place.after lexeme⟩) := by
  obtain ⟨c, cs, rfl, -, hplain⟩ := hlexeme.exists_cons
  by_cases hkind : kind = .number
  · subst hkind
    cases hlexeme with
    | number plain =>
      have hrun := numberLexeme_append plain (hrest rfl)
      have hpoint : rest.head? ≠ some '.' := fun h => hrest rfl ⟨'.', h, by decide⟩
      have hc : (Char.isDigit c || c = '.') = true := hplain.2 rfl
      rw [scanToken]
      simp only [List.cons_append, hc, if_true, scanNumber]
      rw [← List.cons_append, hrun, advance_append]
      simp only [hpoint, plain.ne_point, if_false, take, advance_append]
  · have hmark : IsLexeme kind [c] ∧ cs = [] := by
      cases hlexeme with
      | number => exact absurd rfl hkind
      | plus => exact ⟨.plus, rfl⟩
      | minus => exact ⟨.minus, rfl⟩
      | star => exact ⟨.star, rfl⟩
      | slash => exact ⟨.slash, rfl⟩
      | openParen => exact ⟨.openParen, rfl⟩
      | closeParen => exact ⟨.closeParen, rfl⟩
    obtain ⟨hlexeme, rfl⟩ := hmark
    have hc : (Char.isDigit c || c = '.') = false := by
      rw [← Bool.not_eq_true]
      exact fun h => hkind (hplain.1 h)
    have hchar := (isLexeme_singleton_iff hkind).1 hlexeme
    rw [scanToken]
    simp only [List.singleton_append, hc, Bool.false_eq_true, if_false, hchar, take]
    exact congrArg (Prod.mk _) (advance_append [c] rest place)

/-- Whatever a scan delivers before the end mark is a lexeme where the cursor stands, and a number
    is not followed by a digit or a point. -/
theorem exists_of_scanToken (h : s.scanToken = (.ok t, c')) (ht : t.kind ≠ .endMark) :
    ∃ lexeme, s.rest = lexeme ++ c'.rest ∧ IsLexeme t.kind lexeme ∧
      t = ⟨t.kind, String.ofList lexeme, s.place⟩ ∧ c'.place = s.place.after lexeme ∧
      (t.kind = .number → ¬StartsPlain c'.rest) := by
  obtain ⟨cs, place⟩ := s
  unfold scanToken at h
  split at h
  · simp only [Prod.mk.injEq, Except.ok.injEq] at h
    simp [← h.1] at ht
  · next x xs hrest =>
    simp only at hrest
    subst hrest
    split at h
    · next hx =>
      obtain ⟨rest, hsplit, hdigit⟩ := exists_numberLexeme_append (x :: xs)
      have hne : numberLexeme (x :: xs) ≠ [] := numberLexeme_ne_nil hx
      have hadvance := advance_append (numberLexeme (x :: xs)) rest place
      rw [← hsplit] at hadvance
      simp only [scanNumber, hadvance, take] at h
      split at h
      · simp at h
      · next hpoint =>
        split at h
        · simp at h
        · next hlone =>
          simp only [Prod.mk.injEq, Except.ok.injEq] at h
          obtain ⟨rfl, rfl⟩ := h
          exact ⟨_, hsplit, .number (isPlain_numberLexeme hne hlone), rfl, rfl,
            fun _ => not_startsPlain hdigit hpoint⟩
    · split at h
      · next kind hkind =>
        have hadvance := advance_append [x] xs place
        rw [List.singleton_append] at hadvance
        simp only [take, hadvance, Prod.mk.injEq, Except.ok.injEq] at h
        obtain ⟨rfl, rfl⟩ := h
        have hnumber := (ofChar?_ne hkind).1
        exact ⟨[x], rfl, (isLexeme_singleton_iff hnumber).2 hkind, rfl, rfl,
          fun h => absurd h hnumber⟩
      · simp at h

theorem rest_eq_nil_of_scanToken (h : s.scanToken = (.ok t, c')) (ht : t.kind = .endMark) :
    s.rest = [] ∧ t = ⟨.endMark, "", s.place⟩ := by
  unfold scanToken at h
  split at h
  · next hrest =>
    simp only [Prod.mk.injEq, Except.ok.injEq] at h
    exact ⟨hrest, h.1.symm⟩
  · split at h
    · simp only [scanNumber] at h
      split at h
      · simp at h
      · split at h
        · simp at h
        · simp only [take, Prod.mk.injEq, Except.ok.injEq] at h
          simp [← h.1] at ht
    · split at h
      · next kind hkind =>
        simp only [take, Prod.mk.injEq, Except.ok.injEq] at h
        exact absurd (by rw [← ht, ← h.1]) (ofChar?_ne hkind).2
      · simp at h

end Cursor

end ArithJit
