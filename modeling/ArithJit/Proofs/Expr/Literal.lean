import ArithJit.Expr.Rendering
import ArithJit.Proofs.Decimal.Layout

/-!
# Which literals can be read again

The text of a number is the number in full if it is an integer, and otherwise the shortest decimal
that is read as it. The point alone is used from a ten-thousandth on, and no number that is not an
integer is too large for it. So the text of a number without sign is a plain decimal that is read as
that number, unless the number is infinite or a fraction below a ten-thousandth; then there is a
letter in it.

The shortest decimal of a double lies on the same side of a ten-thousandth as the double does. Both
have the same nearest word, so this could fail only at the word nearest to a ten-thousandth, where
both can be computed.
-/

namespace ArithJit.Binary64

open Numeral

/-- The double nearest to a ten-thousandth. -/
def tenThousandth : Binary64 := ofDecimal false 1 (-4)

/-- Finite, and an integer or at least a ten-thousandth. -/
structure IsModerate (x : Binary64) : Prop where
  finite : ∃ m s, x.magnitude = .finite m s
  size : (unitsPerOne : Int) ∣ x.units ∨ tenThousandth.units ≤ x.units

variable {x : Binary64} {m s : Nat} {p q : ℚ}

/-! ## Numbers without sign -/

theorem isNegative_of_word_le (h : x.word ≤ infinityWord) : x.isNegative = false := by
  refine decide_eq_false fun hsign => ?_
  have hlt : infinityWord < signBit := by decide
  omega

theorem magnitude_of_word_le (h : x.word ≤ infinityWord) :
    x.magnitude = .infinite ∨ ∃ m s, x.magnitude = .finite m s := by
  unfold magnitude
  split_ifs with hspecial hfraction hzero
  · exact .inl rfl
  · rw [exponentField, hiddenBit_eq] at hspecial
    rw [fractionField, hiddenBit_eq] at hfraction
    unfold infinityWord at h
    omega
  · exact .inr ⟨_, _, rfl⟩
  · exact .inr ⟨_, _, rfl⟩

theorem units_of_magnitude (hx : x.isNegative = false) (h : x.magnitude = .finite m s) :
    x.units = (m <<< s : Nat) := by
  simp [units, h, hx, signed]

/-- A plain decimal that writes a number with the word of `x` is read as `x`. -/
theorem read?_of_denotes {text : String} (h : Denotes text.toList q)
    (hq : nearestWord (q * unitsPerOne) = x.word) : read? text = some x := by
  rw [← String.ofList_toList (s := text), h.read?_eq, hq, ofSignWord_word]

/-! ## Integers -/

/-- The text of an integer is its digits. -/
theorem literal_of_dvd (hx : x.isNegative = false) (h : x.magnitude = .finite m s)
    (hdvd : unitsPerOne ∣ m <<< s) :
    IsPlain x.literal.toList ∧ read? x.literal = some x := by
  have hmod : m <<< s % unitsPerOne = 0 := Nat.mod_eq_zero_of_dvd hdvd
  have hint : x.toInt? = some ((m <<< s / unitsPerOne : Nat) : Int) := by
    simp only [toInt?, h, hmod, if_true, hx, signed, Bool.false_eq_true, if_false]
  have hliteral : x.literal.toList = Decimal.digits (m <<< s / unitsPerOne) := by
    rw [literal, hint]
    exact Nat.toList_repr
  have hdigits : ∀ c ∈ Decimal.digits (m <<< s / unitsPerOne), c.isDigit = true :=
    fun _ => Decimal.isDigit_of_mem_digits
  have hdenotes : Denotes x.literal.toList (m <<< s / unitsPerOne : Nat) := by
    have hdenotes := denotes_digits hdigits Nat.toDigits_ne_nil
    rw [hliteral]
    rwa [natOfDigits, Decimal.digits, Nat.ofDigitChars_ten_toDigits] at hdenotes
  refine ⟨hdenotes.1, read?_of_denotes hdenotes ?_⟩
  have hvalue : ((m <<< s / unitsPerOne : Nat) : ℚ) * unitsPerOne = (m <<< s : Nat) := by
    exact_mod_cast Nat.div_mul_cancel hdvd
  rw [hvalue, nearestWord_of_magnitude hx h]

/-! ## Fractions -/

/-- The shortest decimal of a double has the word of the double. -/
theorem nearestWord_shortest (hx : x.isNegative = false) (h : x.magnitude = .finite m s) :
    nearestWord ((Decimal.shortest m s).value * unitsPerOne) = x.word := by
  rw [← Decimal.toWord_eq, Decimal.toWord_shortest, nearestWord_of_magnitude hx h]

/-- Numbers with different nearest words are ordered as these are. -/
theorem le_iff_nearestWord_lt (hne : nearestWord p ≠ nearestWord q) :
    p ≤ q ↔ nearestWord p < nearestWord q := by
  constructor
  · intro hle
    exact lt_of_le_of_ne (nearestWord_mono hle) hne
  · intro hlt
    apply le_of_not_gt
    intro hgt
    have hword : nearestWord q ≤ nearestWord p := nearestWord_mono hgt.le
    omega

theorem magnitude_tenThousandth : tenThousandth.magnitude = .finite 0x1a36e2eb1c432d 1008 := by
  decide +kernel

theorem isNegative_tenThousandth : tenThousandth.isNegative = false := by decide +kernel

/-- The shortest decimal of a double is at least a ten-thousandth exactly if the double is. -/
theorem tenThousandth_le_shortest_iff (hx : x.isNegative = false) (h : x.magnitude = .finite m s) :
    (10 : ℚ) ^ (-4 : Int) ≤ (Decimal.shortest m s).value ↔ tenThousandth.units ≤ x.units := by
  by_cases hword : x.word = tenThousandth.word
  · obtain rfl : x = tenThousandth := by
      rw [← ofSignWord_word x, hword, ofSignWord_word]
    rw [magnitude_tenThousandth, Magnitude.finite.injEq] at h
    obtain ⟨rfl, rfl⟩ := h
    have hshortest : Decimal.shortest 0x1a36e2eb1c432d 1008 = ⟨1, -4⟩ := by decide +kernel
    rw [hshortest]
    exact iff_of_true (by simp [Decimal.value]) le_rfl
  · -- Both sides say that the word of `x` passes the one of a ten-thousandth.
    obtain ⟨m₀, s₀, h₀⟩ : ∃ m s, tenThousandth.magnitude = .finite m s :=
      ⟨_, _, magnitude_tenThousandth⟩
    have hpos : (0 : ℚ) < unitsPerOne := by exact_mod_cast unitsPerOne_pos
    have hdecimal : nearestWord ((10 : ℚ) ^ (-4 : Int) * unitsPerOne) = tenThousandth.word := by
      have hword : (⟨1, -4⟩ : Decimal).toWord = tenThousandth.word := rfl
      rwa [Decimal.toWord_eq, Decimal.value, Nat.cast_one, one_mul] at hword
    have hdouble : nearestWord (m₀ <<< s₀ : Nat) = tenThousandth.word :=
      nearestWord_of_magnitude isNegative_tenThousandth h₀
    have hshortest := nearestWord_shortest hx h
    have hx₀ := nearestWord_of_magnitude hx h
    have hunits : tenThousandth.units ≤ x.units ↔ ((m₀ <<< s₀ : Nat) : ℚ) ≤ (m <<< s : Nat) := by
      rw [units_of_magnitude isNegative_tenThousandth h₀, units_of_magnitude hx h]
      exact_mod_cast Iff.rfl
    rw [hunits, ← mul_le_mul_iff_left₀ hpos, le_iff_nearestWord_lt, le_iff_nearestWord_lt,
      hdecimal, hdouble, hshortest, hx₀]
    · rw [hdouble, hx₀]
      exact Ne.symm hword
    · rw [hdecimal, hshortest]
      exact Ne.symm hword

/-- What is not an integer has a shortest decimal with at most sixteen digits before the point. -/
theorem shortest_lt_of_not_dvd (hx : x.isNegative = false) (h : x.magnitude = .finite m s)
    (hdvd : ¬unitsPerOne ∣ m <<< s) : (Decimal.shortest m s).value < 10 ^ (16 : Int) := by
  obtain ⟨k, hk, hunits⟩ := exists_unitsPerOne_eq
  have hshift : s < 1074 := by
    apply Nat.lt_of_not_le
    intro hle
    apply hdvd
    rw [hunits, Nat.shiftLeft_eq]
    exact Dvd.dvd.mul_left (Nat.pow_dvd_pow 2 (by omega)) m
  obtain ⟨hword, hm, -, -⟩ := word_of_magnitude hx h
  have hlimit : nearestWord ((10 : ℚ) ^ (16 : Int) * unitsPerOne) = 0x4341c37937e08000 := by
    have hround : roundWord (10000000000000000 * unitsPerOne) 1 = 0x4341c37937e08000 := by
      decide +kernel
    have hten : (10 : ℚ) ^ (16 : Int) = (10000000000000000 : Nat) := by norm_num
    rw [hten, ← Nat.cast_mul, nearestWord_natCast]
    exact hround
  apply lt_of_not_ge
  intro hge
  have hle : nearestWord ((10 : ℚ) ^ (16 : Int) * unitsPerOne) ≤
      nearestWord ((Decimal.shortest m s).value * unitsPerOne) :=
    nearestWord_mono (mul_le_mul_of_nonneg_right hge (by exact_mod_cast unitsPerOne_pos.le))
  rw [hlimit, nearestWord_shortest hx h, hword, hiddenBit_eq] at hle
  omega

theorem coefficient_shortest_ne_zero (hx : x.isNegative = false) (h : x.magnitude = .finite m s)
    (hm : m ≠ 0) : (Decimal.shortest m s).coefficient ≠ 0 := by
  intro hzero
  have hshortest := nearestWord_shortest hx h
  have hvalue : (Decimal.shortest m s).value * unitsPerOne = (0 : Nat) := by
    rw [Decimal.value, hzero, Nat.cast_zero, zero_mul, zero_mul]
  have hround : roundWord 0 1 = 0 := by decide
  rw [hvalue, nearestWord_natCast, hround, (word_of_magnitude hx h).1] at hshortest
  omega

/-- The text of a fraction is a plain decimal from a ten-thousandth on, and has an exponent below. -/
theorem literal_of_not_dvd (hx : x.isNegative = false) (h : x.magnitude = .finite m s)
    (hdvd : ¬unitsPerOne ∣ m <<< s) :
    (tenThousandth.units ≤ x.units ∧ IsPlain x.literal.toList ∧ read? x.literal = some x) ∨
      (¬tenThousandth.units ≤ x.units ∧ 'e' ∈ x.literal.toList) := by
  have hmod : ¬m <<< s % unitsPerOne = 0 := fun hzero => hdvd (Nat.dvd_of_mod_eq_zero hzero)
  have hint : x.toInt? = none := by
    simp only [toInt?, h, hmod, if_false]
  have hliteral : x.literal.toList = Decimal.lay .message (Decimal.shortest m s) := by
    simp [literal, hint, message, text, h, hx]
  have hm : m ≠ 0 := by
    rintro rfl
    simp at hdvd
  have hlimit := shortest_lt_of_not_dvd hx h hdvd
  rw [hliteral, ← tenThousandth_le_shortest_iff hx h]
  rcases Decimal.lay_cases .message (coefficient_shortest_ne_zero hx h hm) with
    ⟨hleast, -, hdenotes⟩ | ⟨hrange, hletter⟩
  · refine .inl ⟨hleast, hdenotes.1, ?_⟩
    exact read?_of_denotes (hliteral ▸ hdenotes) (nearestWord_shortest hx h)
  · exact .inr ⟨fun hleast => hrange ⟨hleast, hlimit⟩, hletter⟩

/-! ## Literals -/

/-- The text of a number without sign is a plain decimal that is read as the number, or the number is
    not moderate and there is a letter in its text. -/
theorem literal_cases (h : x.word ≤ infinityWord) :
    (x.IsModerate ∧ IsPlain x.literal.toList ∧ read? x.literal = some x) ∨
      (¬x.IsModerate ∧ ∃ c ∈ x.literal.toList, c.isAlpha = true) := by
  have hx := isNegative_of_word_le h
  rcases magnitude_of_word_le h with hinfinite | ⟨m, s, hfinite⟩
  · refine .inr ⟨fun hmoderate => ?_, 'i', ?_, by decide⟩
    · obtain ⟨m, s, hfinite⟩ := hmoderate.finite
      simp [hinfinite] at hfinite
    · simp [literal, toInt?, hinfinite, message, text, hx, Decimal.Layout.message]
  · by_cases hdvd : unitsPerOne ∣ m <<< s
    · have hinteger : (unitsPerOne : Int) ∣ x.units := by
        rw [units_of_magnitude hx hfinite]
        exact_mod_cast hdvd
      exact .inl ⟨⟨⟨m, s, hfinite⟩, .inl hinteger⟩, literal_of_dvd hx hfinite hdvd⟩
    · rcases literal_of_not_dvd hx hfinite hdvd with ⟨hleast, hplain⟩ | ⟨hleast, hletter⟩
      · exact .inl ⟨⟨⟨m, s, hfinite⟩, .inr hleast⟩, hplain⟩
      · refine .inr ⟨fun hmoderate => ?_, 'e', hletter, by decide⟩
        rcases hmoderate.size with hinteger | hsize
        · rw [units_of_magnitude hx hfinite] at hinteger
          exact hdvd (by exact_mod_cast hinteger)
        · exact hleast hsize

/-- A ten-thousandth and the double below it. -/
example : tenThousandth.literal = "0.0001" ∧
    (ofSignWord false (tenThousandth.word - 1)).literal = "9.999999999999999e-05" := by
  decide +kernel

end ArithJit.Binary64
