import ArithJit.Decimal.Numeral
import Mathlib.Data.List.TakeWhile

/-!
# Plain decimals are numerals

A plain decimal is made of digits with at most one point and at least one digit. Nothing that
numerals allow besides is found in it: no blank to strip, no underscore, no sign, no word and no
exponent. So the reader goes through to its decimal part, and there it does not fail.
-/

namespace ArithJit

theorem takeWhile_of_boundary {p : Char → Bool} {xs rest : List Char} (hxs : ∀ x ∈ xs, p x = true)
    (hrest : ∀ x ∈ rest.head?, p x = false) :
    (xs ++ rest).takeWhile p = xs ∧ (xs ++ rest).dropWhile p = rest := by
  rw [List.takeWhile_append_of_pos hxs, List.dropWhile_append_of_pos hxs]
  cases rest with
  | nil => simp
  | cons x rest => simp [hrest x rfl]

namespace Numeral

/-- Digits with at most one point among them and at least one digit. -/
inductive IsPlain : List Char → Prop
  | whole {ds : List Char} (digits : ∀ c ∈ ds, c.isDigit = true) (ne : ds ≠ []) : IsPlain ds
  | pointed {ds fs : List Char} (whole : ∀ c ∈ ds, c.isDigit = true)
      (fraction : ∀ c ∈ fs, c.isDigit = true) (ne : ds ++ fs ≠ []) : IsPlain (ds ++ '.' :: fs)

/-- Whether a character is a digit or a point. -/
def isPlainChar (c : Char) : Bool := c.isDigit || c = '.'

variable {c : Char} {cs ds fs : List Char}

theorem toNat_of_isPlainChar (h : isPlainChar c = true) : 46 ≤ c.toNat ∧ c.toNat ≤ 57 := by
  simp only [isPlainChar, Bool.or_eq_true, Char.isDigit_iff_toNat, decide_eq_true_eq] at h
  rcases h with ⟨hlow, hhigh⟩ | rfl
  · exact ⟨Nat.le_trans (by decide) hlow, hhigh⟩
  · decide

theorem ne_of_isPlainChar (h : isPlainChar c = true) {d : Char} (hd : isPlainChar d = false) :
    c ≠ d := by
  rintro rfl
  simp [h] at hd

theorem asciiChar?_of_isPlainChar (h : isPlainChar c = true) : asciiChar? c = some c := by
  have := toNat_of_isPlainChar h
  rw [asciiChar?, if_pos (by omega)]

theorem isBlank_of_isPlainChar (h : isPlainChar c = true) : Text.isBlank c = false := by
  have := toNat_of_isPlainChar h
  simp only [Text.isBlank, ne_of_isPlainChar h (d := ' ') (by decide), decide_false, Bool.false_or,
    Bool.and_eq_false_iff, decide_eq_false_iff_not]
  omega

theorem toLower_of_isPlainChar (h : isPlainChar c = true) : c.toLower = c := by
  have hbound := toNat_of_isPlainChar h
  have : ¬(c.val ≥ 'A'.val ∧ c.val ≤ 'Z'.val) := by
    rintro ⟨hlow, -⟩
    have : 65 ≤ c.toNat := UInt32.le_iff_toNat_le.1 hlow
    omega
  exact dif_neg this

theorem mapM_asciiChar? (h : ∀ c ∈ cs, isPlainChar c = true) : cs.mapM asciiChar? = some cs := by
  induction cs with
  | nil => rfl
  | cons c cs ih =>
    rw [List.mapM_cons, asciiChar?_of_isPlainChar (h c (by simp)),
      ih fun d hd => h d (List.mem_cons_of_mem c hd)]
    rfl

theorem dropWhile_isBlank (h : ∀ c ∈ cs, isPlainChar c = true) :
    cs.dropWhile Text.isBlank = cs := by
  cases cs with
  | nil => rfl
  | cons c cs => simp [isBlank_of_isPlainChar (h c (by simp))]

theorem strip_of_isPlainChar (h : ∀ c ∈ cs, isPlainChar c = true) : strip cs = cs := by
  rw [strip, dropWhile_isBlank h, dropWhile_isBlank (by simpa using h), List.reverse_reverse]

theorem dropUnderscores?_of_isPlainChar (h : ∀ c ∈ cs, isPlainChar c = true)
    (previous : Option Char) (hprevious : previous ≠ some '_') :
    dropUnderscores? previous cs = some cs := by
  induction cs generalizing previous with
  | nil => simp [dropUnderscores?, hprevious]
  | cons c cs ih =>
    have hc : c ≠ '_' := ne_of_isPlainChar (h c (by simp)) (by decide)
    have hrest := ih (fun d hd => h d (List.mem_cons_of_mem c hd)) (some c) (by simpa using hc)
    simp [dropUnderscores?, hc, hprevious, hrest]

theorem splitSign_of_isPlainChar (h : ∀ c ∈ cs, isPlainChar c = true) :
    splitSign cs = (false, cs) := by
  unfold splitSign
  split
  · exact absurd (h '-' (by simp)) (by decide)
  · exact absurd (h '+' (by simp)) (by decide)
  · rfl

/-- No word is made of digits and points. -/
theorem unsigned?_of_isPlainChar (h : ∀ c ∈ cs, isPlainChar c = true) (negative : Bool) :
    unsigned? negative cs = (decimal? cs).map fun (coefficient, exponent) =>
      .ofDecimal negative coefficient exponent := by
  have hlower : cs.map Char.toLower = cs := by
    rw [List.map_congr_left fun c hc => toLower_of_isPlainChar (h c hc), List.map_id']
  have hword {w : String} (hw : w.toList.all isPlainChar = false) : String.ofList cs ≠ w := by
    rintro rfl
    simp only [String.toList_ofList, List.all_eq_false] at hw
    obtain ⟨c, hc, hplain⟩ := hw
    exact hplain (h c hc)
  simp only [unsigned?, hlower, hword (w := "inf") (by decide), hword (w := "infinity") (by decide),
    hword (w := "nan") (by decide), decide_false, Bool.or_self, Bool.false_eq_true, if_false]

theorem decimal?_digits (hds : ∀ c ∈ ds, c.isDigit = true) (hne : ds ≠ []) :
    decimal? ds = some (natOfDigits ds, 0) := by
  have htake : ds.takeWhile Char.isDigit = ds := List.takeWhile_eq_self_iff.2 hds
  have hdrop : ds.dropWhile Char.isDigit = [] := List.dropWhile_eq_nil_iff.2 hds
  simp [decimal?, htake, hdrop, hne, exponent?]

theorem decimal?_pointed (hds : ∀ c ∈ ds, c.isDigit = true) (hfs : ∀ c ∈ fs, c.isDigit = true)
    (hne : ds ++ fs ≠ []) :
    decimal? (ds ++ '.' :: fs) = some (natOfDigits (ds ++ fs), -(fs.length : Int)) := by
  have hwhole : (ds ++ '.' :: fs).takeWhile Char.isDigit = ds := by
    simp [List.takeWhile_append_of_pos hds, Char.isDigit]
  have hrest : (ds ++ '.' :: fs).dropWhile Char.isDigit = '.' :: fs := by
    simp [List.dropWhile_append_of_pos hds, Char.isDigit]
  have htake : fs.takeWhile Char.isDigit = fs := List.takeWhile_eq_self_iff.2 hfs
  have hdrop : fs.dropWhile Char.isDigit = [] := List.dropWhile_eq_nil_iff.2 hfs
  have hsome : (ds.isEmpty && fs.isEmpty) = false := by
    rw [← Bool.not_eq_true, Bool.and_eq_true, List.isEmpty_iff, List.isEmpty_iff]
    rintro ⟨rfl, rfl⟩
    exact hne rfl
  simp [decimal?, hwhole, hrest, htake, hdrop, hsome, exponent?]

theorem IsPlain.isPlainChar (h : IsPlain cs) : ∀ c ∈ cs, isPlainChar c = true := by
  intro c hc
  cases h with
  | whole digits => simp [Numeral.isPlainChar, digits c hc]
  | pointed whole fraction =>
    rcases List.mem_append.1 hc with hc | hc
    · simp [Numeral.isPlainChar, whole c hc]
    · rcases List.mem_cons.1 hc with rfl | hc
      · decide
      · simp [Numeral.isPlainChar, fraction c hc]

/-- A plain decimal is read as its decimal part. -/
theorem IsPlain.read?_eq (h : IsPlain cs) :
    read? (String.ofList cs) = (decimal? cs).map fun (coefficient, exponent) =>
      .ofDecimal false coefficient exponent := by
  have hchars := h.isPlainChar
  rw [← unsigned?_of_isPlainChar hchars]
  simp [read?, mapM_asciiChar? hchars, strip_of_isPlainChar hchars,
    dropUnderscores?_of_isPlainChar hchars none, splitSign_of_isPlainChar hchars]

theorem IsPlain.exists_read? (h : IsPlain cs) : ∃ x, read? (String.ofList cs) = some x := by
  rw [h.read?_eq]
  cases h with
  | whole digits ne => exact ⟨_, by rw [decimal?_digits digits ne, Option.map_some]⟩
  | pointed whole fraction ne =>
    exact ⟨_, by rw [decimal?_pointed whole fraction ne, Option.map_some]⟩

end Numeral

end ArithJit
