import ArithJit.Binary64.Arithmetic
import Mathlib.Algebra.Order.Field.Rat
import Mathlib.Tactic.FieldSimp
import Mathlib.Tactic.Linarith
import Mathlib.Tactic.Ring

/-!
# Rounding is monotone and keeps doubles

The quotient of two numbers is rounded to the nearest word. A larger quotient never has a smaller
word, so that the word depends on the quotient alone; and a quotient that is a double has the word
of that double. Everything else about rounding is drawn from these two.

Two quotients with the same shift are compared on one grid. With different shifts they are kept
apart by a power of two, which is a word on either grid.
-/

namespace ArithJit.Binary64

variable {num num' den den' j k : Nat}

/-! ## Rounding to an integer -/

theorem le_roundDiv (num den : Nat) : num / den ≤ roundDiv num den := by
  simp only [roundDiv]
  split_ifs
  all_goals omega

theorem roundDiv_le (num den : Nat) : roundDiv num den ≤ num / den + 1 := by
  simp only [roundDiv]
  split_ifs
  all_goals omega

/-- A rounded quotient passes `j` exactly if the quotient passes the middle between `j` and the next
    integer, or is that middle and `j` is odd. -/
theorem lt_roundDiv_iff (hden : 0 < den) :
    j < roundDiv num den ↔
      (2 * j + 1) * den < 2 * num ∨ ((2 * j + 1) * den = 2 * num ∧ j % 2 = 1) := by
  have hsplit : den * (num / den) + num % den = num := Nat.div_add_mod num den
  have hmod : num % den < den := Nat.mod_lt num hden
  have hmiddle : (2 * j + 1) * den = 2 * (den * j) + den := by ring
  rw [hmiddle]
  rcases Nat.lt_trichotomy j (num / den) with h | h | h
  · have hle : den * (j + 1) ≤ den * (num / den) := Nat.mul_le_mul_left den h
    rw [Nat.mul_add, Nat.mul_one] at hle
    exact ⟨fun _ => .inl (by omega), fun _ => Nat.lt_of_lt_of_le h (le_roundDiv num den)⟩
  · subst h
    simp only [roundDiv]
    split_ifs
    all_goals omega
  · have hle : den * (num / den + 1) ≤ den * j := Nat.mul_le_mul_left den h
    rw [Nat.mul_add, Nat.mul_one] at hle
    have hround := roundDiv_le num den
    exact ⟨fun _ => by omega, fun _ => by omega⟩

theorem roundDiv_mono (hden : 0 < den) (hden' : 0 < den') (h : num * den' ≤ num' * den) :
    roundDiv num den ≤ roundDiv num' den' := by
  apply Nat.le_of_not_lt
  intro hlt
  generalize hj : roundDiv num' den' = j at hlt
  have hnot : ¬j < roundDiv num' den' := by omega
  apply hnot
  rw [lt_roundDiv_iff hden']
  have hcross : 2 * num * den' ≤ 2 * num' * den := by
    rw [Nat.mul_assoc, Nat.mul_assoc]
    exact Nat.mul_le_mul_left 2 h
  have hswap : (2 * j + 1) * den' * den = (2 * j + 1) * den * den' := Nat.mul_right_comm ..
  rcases (lt_roundDiv_iff hden).1 hlt with hpast | ⟨hmiddle, hodd⟩
  · have hlt : (2 * j + 1) * den' * den < 2 * num' * den := by
      calc (2 * j + 1) * den' * den = (2 * j + 1) * den * den' := hswap
        _ < 2 * num * den' := Nat.mul_lt_mul_of_pos_right hpast hden'
        _ ≤ 2 * num' * den := hcross
    exact .inl (Nat.lt_of_mul_lt_mul_right hlt)
  · have hle : (2 * j + 1) * den' * den ≤ 2 * num' * den := by
      rw [hswap, hmiddle]
      exact hcross
    rcases Nat.lt_or_eq_of_le (Nat.le_of_mul_le_mul_right hle hden) with hpast | heq
    · exact .inl hpast
    · exact .inr ⟨heq, hodd⟩

theorem roundDiv_mul (hden : 0 < den) (k : Nat) : roundDiv (k * den) den = k := by
  simp [roundDiv, hden]

theorem roundDiv_le_of_le (hden : 0 < den) (h : num ≤ k * den) : roundDiv num den ≤ k := by
  calc roundDiv num den ≤ roundDiv (k * den) den :=
        roundDiv_mono hden hden (Nat.mul_le_mul_right den h)
    _ = k := roundDiv_mul hden k

theorem le_roundDiv_of_le (hden : 0 < den) (h : k * den ≤ num) : k ≤ roundDiv num den :=
  Nat.le_trans ((Nat.le_div_iff_mul_le hden).2 h) (le_roundDiv num den)

/-! ## Rounding to a word -/

theorem hiddenBit_eq : hiddenBit = 2 ^ 52 := by decide

/-- What there is to know of a rounded word: the shift leaves at most fifty-three bits of the
    quotient, and no fewer unless there is none. -/
theorem exists_roundWord_eq (num : Nat) (hden : 0 < den) :
    ∃ s, num < 2 ^ 53 * (den * 2 ^ s) ∧ (s ≠ 0 → 2 ^ 52 * (den * 2 ^ s) ≤ num) ∧
      roundWord num den =
        min (s * hiddenBit + roundDiv num (den * 2 ^ s)) infinityWord := by
  refine ⟨Nat.log2 (num / den) - 52, ?_, fun hs => ?_, ?_⟩
  · have hlog : num / den < 2 ^ (Nat.log2 (num / den) + 1) := Nat.lt_log2_self
    have hpow : 2 ^ (Nat.log2 (num / den) + 1) ≤ 2 ^ (53 + (Nat.log2 (num / den) - 52)) :=
      Nat.pow_le_pow_right (by decide) (by omega)
    have hlt := (Nat.div_lt_iff_lt_mul hden).1 (Nat.lt_of_lt_of_le hlog hpow)
    rwa [Nat.pow_add, Nat.mul_assoc, Nat.mul_comm (2 ^ _) den] at hlt
  · have hne : num / den ≠ 0 := by
      intro hzero
      simp [hzero] at hs
    have hlog : 2 ^ Nat.log2 (num / den) ≤ num / den := Nat.log2_self_le hne
    have hpow : 2 ^ (52 + (Nat.log2 (num / den) - 52)) = 2 ^ Nat.log2 (num / den) := by
      congr 1
      omega
    rw [← hpow, Nat.le_div_iff_mul_le hden, Nat.pow_add, Nat.mul_assoc,
      Nat.mul_comm (2 ^ _) den] at hlog
    exact hlog
  · simp only [roundWord, Nat.shiftLeft_eq]
    split_ifs <;> omega

theorem roundWord_le (num den : Nat) : roundWord num den ≤ infinityWord := by
  simp only [roundWord]
  split_ifs <;> omega

/-- A larger quotient never has a smaller word. -/
theorem roundWord_mono (hden : 0 < den) (hden' : 0 < den') (h : num * den' ≤ num' * den) :
    roundWord num den ≤ roundWord num' den' := by
  obtain ⟨s, hlt, hge, hword⟩ := exists_roundWord_eq num hden
  obtain ⟨s', hlt', hge', hword'⟩ := exists_roundWord_eq num' hden'
  have hgrid : 0 < den * 2 ^ s := Nat.mul_pos hden (Nat.two_pow_pos s)
  have hgrid' : 0 < den' * 2 ^ s' := Nat.mul_pos hden' (Nat.two_pow_pos s')
  suffices hle : s * hiddenBit + roundDiv num (den * 2 ^ s) ≤
      s' * hiddenBit + roundDiv num' (den' * 2 ^ s') by
    rw [hword, hword']
    exact min_le_min_right infinityWord hle
  rcases Nat.lt_trichotomy s s' with hs | rfl | hs
  · -- The smaller quotient rounds to at most the power of two that the larger one has passed.
    have hround : roundDiv num (den * 2 ^ s) ≤ 2 ^ 53 := roundDiv_le_of_le hgrid (Nat.le_of_lt hlt)
    have hround' : 2 ^ 52 ≤ roundDiv num' (den' * 2 ^ s') :=
      le_roundDiv_of_le hgrid' (hge' (by omega))
    have hmul : (s + 1) * hiddenBit ≤ s' * hiddenBit := Nat.mul_le_mul_right hiddenBit hs
    rw [Nat.add_mul, hiddenBit_eq] at hmul
    rw [hiddenBit_eq]
    omega
  · have hround : roundDiv num (den * 2 ^ s) ≤ roundDiv num' (den' * 2 ^ s) := by
      apply roundDiv_mono hgrid hgrid'
      rw [← Nat.mul_assoc, ← Nat.mul_assoc]
      exact Nat.mul_le_mul_right (2 ^ s) h
    omega
  · -- The larger quotient cannot have the smaller shift.
    have hpow : 2 ^ 53 * (den' * 2 ^ s') ≤ 2 ^ 52 * (den' * 2 ^ s) := by
      have hshift : 2 ^ (s' + 1) ≤ 2 ^ s := Nat.pow_le_pow_right (by decide) hs
      calc 2 ^ 53 * (den' * 2 ^ s') = 2 ^ 52 * (den' * 2 ^ (s' + 1)) := by ring
        _ ≤ 2 ^ 52 * (den' * 2 ^ s) := Nat.mul_le_mul_left _ (Nat.mul_le_mul_left _ hshift)
    have hcontra : num' * den < num * den' := by
      calc num' * den < 2 ^ 52 * (den' * 2 ^ s) * den :=
            Nat.mul_lt_mul_of_pos_right (Nat.lt_of_lt_of_le hlt' hpow) hden
        _ = 2 ^ 52 * (den * 2 ^ s) * den' := by ring
        _ ≤ num * den' := Nat.mul_le_mul_right den' (hge (by omega))
    omega

/-- A significand of fifty-three bits, or one of fewer bits that is not shifted, is kept. -/
theorem roundWord_shiftLeft {m s : Nat} (hm : m < 2 ^ 53) (hs : 2 ^ 52 ≤ m ∨ s = 0)
    (hfinite : s * hiddenBit + m < infinityWord) :
    roundWord (m <<< s) 1 = s * hiddenBit + m := by
  obtain ⟨t, hlt, hge, hword⟩ := exists_roundWord_eq (m <<< s) Nat.one_pos
  rw [Nat.shiftLeft_eq, Nat.one_mul] at *
  -- Both shifts put the leading bit of the significand in the same place.
  have hst : t = s := by
    rcases Nat.lt_trichotomy t s with h | h | h
    · have hpow : 2 ^ (t + 1) ≤ 2 ^ s := Nat.pow_le_pow_right (by decide) h
      have hle : 2 ^ 52 * 2 ^ s ≤ m * 2 ^ s := Nat.mul_le_mul_right _ (hs.resolve_right (by omega))
      omega
    · exact h
    · have hpow : 2 ^ (s + 1) ≤ 2 ^ t := Nat.pow_le_pow_right (by decide) h
      have hle : m * 2 ^ s < 2 ^ 53 * 2 ^ s := Nat.mul_lt_mul_of_pos_right hm (Nat.two_pow_pos s)
      have hlead := hge (by omega)
      omega
  subst hst
  rw [roundDiv_mul (Nat.two_pow_pos t)] at hword
  omega

theorem roundWord_congr (hden : 0 < den) (hden' : 0 < den') (h : num * den' = num' * den) :
    roundWord num den = roundWord num' den' :=
  Nat.le_antisymm (roundWord_mono hden hden' h.le) (roundWord_mono hden' hden h.ge)

/-- What passes every double is infinite. -/
theorem roundWord_of_large {n : Nat} (hn : 2098 ≤ n) (hden : 0 < den) (h : 2 ^ n * den ≤ num) :
    roundWord num den = infinityWord := by
  obtain ⟨k, hk, hpower⟩ : ∃ k ≤ 2098, roundWord (2 ^ k) 1 = infinityWord :=
    ⟨2098, Nat.le_refl _, by decide +kernel⟩
  have hpow : 2 ^ k ≤ 2 ^ n := Nat.pow_le_pow_right (by decide) (by omega)
  refine Nat.le_antisymm (roundWord_le num den) ?_
  rw [← hpower]
  apply roundWord_mono Nat.one_pos hden
  calc 2 ^ k * den ≤ 2 ^ n * den := Nat.mul_le_mul_right den hpow
    _ ≤ num * 1 := by rwa [Nat.mul_one]

/-- Half of the least double and what is below it vanishes. -/
theorem roundWord_of_small (hden : 0 < den) (h : 2 * num ≤ den) : roundWord num den = 0 := by
  have hhalf : roundWord 1 2 = 0 := by decide
  refine Nat.le_zero.1 ?_
  rw [← hhalf]
  apply roundWord_mono hden (by decide)
  omega

/-! ## Rounding a rational number -/

/-- The word nearest to a rational number of units. -/
def nearestWord (q : ℚ) : Nat := roundWord q.num.toNat q.den

theorem nearestWord_le (q : ℚ) : nearestWord q ≤ infinityWord := roundWord_le _ _

theorem roundWord_eq_nearestWord (num : Nat) (hden : 0 < den) :
    roundWord num den = nearestWord (num / den) := by
  apply roundWord_congr hden (Rat.den_pos _)
  have hnonneg : 0 ≤ (num / den : ℚ) :=
    div_nonneg (Nat.cast_nonneg num) (Nat.cast_nonneg den)
  have hnum : ((num / den : ℚ).num.toNat : ℚ) = (num / den : ℚ).num := by
    exact_mod_cast Int.toNat_of_nonneg (Rat.num_nonneg.2 hnonneg)
  have hvalue : ((num / den : ℚ).num : ℚ) / (num / den : ℚ).den = num / den := Rat.num_div_den _
  have hdenq : (den : ℚ) ≠ 0 := Nat.cast_ne_zero.2 (by omega)
  have hcross : (num : ℚ) * (num / den : ℚ).den = (num / den : ℚ).num.toNat * den := by
    rw [hnum]
    exact ((div_eq_div_iff (by positivity) hdenq).1 hvalue).symm
  exact_mod_cast hcross

theorem nearestWord_natCast (n : Nat) : nearestWord n = roundWord n 1 := by
  rw [roundWord_eq_nearestWord n Nat.one_pos, Nat.cast_one, div_one]

theorem nearestWord_mono : Monotone nearestWord := by
  intro p q h
  apply roundWord_mono p.den_pos q.den_pos
  have hcross : p.num * q.den ≤ q.num * p.den := (Rat.le_iff p q).1 h
  rcases le_or_gt 0 p.num with hp | hp
  · have hq : 0 ≤ q.num := Rat.num_nonneg.2 ((Rat.num_nonneg.1 hp).trans h)
    zify
    rwa [Int.toNat_of_nonneg hp, Int.toNat_of_nonneg hq]
  · simp [Int.toNat_of_nonpos hp.le]

/-! ## The words of finite doubles -/

variable {x : Binary64} {m s : Nat}

theorem word_ofSignWord {w : Nat} (h : w ≤ infinityWord) : (ofSignWord false w).word = w := by
  have hlt : w < 2 ^ 64 := by
    unfold infinityWord at h
    omega
  simpa [ofSignWord, word] using hlt

theorem ofSignWord_word (x : Binary64) : ofSignWord false x.word = x := by
  simp [ofSignWord, word]

/-- A finite magnitude has a significand of fifty-three bits, or a smaller one that is not shifted,
    and together with the shift it makes up the word. -/
theorem word_of_magnitude (hx : x.isNegative = false) (h : x.magnitude = .finite m s) :
    x.word = s * hiddenBit + m ∧ m < 2 ^ 53 ∧ (2 ^ 52 ≤ m ∨ s = 0) ∧ x.word < infinityWord := by
  have hsign : x.word < 2 ^ 63 := Nat.lt_of_not_le (of_decide_eq_false hx)
  have hfield : x.exponentField = x.word / 2 ^ 52 := by
    rw [exponentField, hiddenBit_eq]
    omega
  have hfraction : x.fractionField = x.word % 2 ^ 52 := by
    rw [fractionField, hiddenBit_eq]
  unfold magnitude at h
  split_ifs at h with hspecial hzero hsubnormal
  · simp only [Magnitude.finite.injEq] at h
    obtain ⟨rfl, rfl⟩ := h
    unfold infinityWord
    omega
  · simp only [Magnitude.finite.injEq] at h
    obtain ⟨rfl, rfl⟩ := h
    rw [hiddenBit_eq]
    unfold infinityWord
    omega

/-- A finite double is its own nearest word. -/
theorem nearestWord_of_magnitude (hx : x.isNegative = false) (h : x.magnitude = .finite m s) :
    nearestWord (m <<< s : Nat) = x.word := by
  obtain ⟨hword, hm, hs, hfinite⟩ := word_of_magnitude hx h
  rw [hword] at hfinite ⊢
  rw [nearestWord_natCast, roundWord_shiftLeft hm hs hfinite]

/-- A finite double of either sign is made of its sign and its own nearest word. -/
theorem ofSignWord_nearestWord (h : x.magnitude = .finite m s) :
    ofSignWord x.isNegative (nearestWord (m <<< s : Nat)) = x := by
  cases hx : x.isNegative with
  | false => rw [nearestWord_of_magnitude hx h, ofSignWord_word]
  | true =>
    -- Without its sign bit the word has the same exponent and the same fraction.
    have hsign : 2 ^ 63 ≤ x.word := of_decide_eq_true hx
    have hlt : x.word < 2 ^ 64 := x.bits.toNat_lt
    have hword : (ofSignWord false (x.word - 2 ^ 63)).word = x.word - 2 ^ 63 := by
      rw [ofSignWord, word, if_neg (by decide), Nat.zero_add]
      exact UInt64.toNat_ofNat_of_lt' (Nat.lt_of_le_of_lt (Nat.sub_le _ _) hlt)
    have hpositive : (ofSignWord false (x.word - 2 ^ 63)).isNegative = false := by
      rw [isNegative, hword, decide_eq_false_iff_not, signBit]
      omega
    have hmagnitude : (ofSignWord false (x.word - 2 ^ 63)).magnitude = x.magnitude := by
      have hexponent : (ofSignWord false (x.word - 2 ^ 63)).exponentField = x.exponentField := by
        rw [exponentField, exponentField, hword, hiddenBit_eq]
        omega
      have hfraction : (ofSignWord false (x.word - 2 ^ 63)).fractionField = x.fractionField := by
        rw [fractionField, fractionField, hword, hiddenBit_eq]
        omega
      rw [magnitude, magnitude, hexponent, hfraction]
    have hsum : signBit + (x.word - 2 ^ 63) = x.word := Nat.add_sub_cancel' hsign
    rw [nearestWord_of_magnitude hpositive (hmagnitude.trans h), hword, ofSignWord, if_pos rfl,
      hsum, word, UInt64.ofNat_toNat]

theorem eq_infinity_of_magnitude (h : x.magnitude = .infinite) : x = infinity x.isNegative := by
  unfold magnitude at h
  split_ifs at h with hexponent hfraction
  rw [exponentField, hiddenBit] at hexponent
  rw [fractionField, hiddenBit] at hfraction
  have hlt : x.word < 2 ^ 64 := x.bits.toNat_lt
  have hword : (if x.isNegative = true then signBit else 0) + infinityWord = x.word := by
    rw [infinityWord]
    split_ifs with hsign
    · have hhigh : 2 ^ 63 ≤ x.word := of_decide_eq_true hsign
      rw [signBit]
      omega
    · have hlow : ¬2 ^ 63 ≤ x.word := of_decide_eq_false (Bool.eq_false_iff.2 hsign)
      omega
  rw [infinity, ofSignWord, hword, word, UInt64.ofNat_toNat]

end ArithJit.Binary64
