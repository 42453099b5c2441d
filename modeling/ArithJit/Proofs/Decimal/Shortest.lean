import ArithJit.Decimal.Shortest
import ArithJit.Proofs.Binary64.Rounding
import Mathlib.Algebra.Order.Field.Power

/-!
# The shortest decimal reads back

A decimal is a rational number, and it is read as the word nearest to that number, however its
digits and its exponent divide it up. The powers of ten that are decided without computing them are
decided rightly. The exact decimal of a finite double is read as that double, and the search for the
shortest one keeps only decimals that are read alike.
-/

namespace ArithJit

/-- The number that a decimal is. -/
def Decimal.value (d : Decimal) : ℚ := d.coefficient * 10 ^ d.exponent

theorem Decimal.ten_zpow (e : Int) : (10 : ℚ) ^ e = 10 ^ e.toNat / 10 ^ (-e).toNat := by
  have hsplit : e = (e.toNat : Int) - ((-e).toNat : Int) := by omega
  conv_lhs => rw [hsplit, zpow_sub₀ (by norm_num), zpow_natCast, zpow_natCast]

namespace Binary64

/-- One is a power of two, in units. The exponent has a name so that the power is not computed. -/
theorem exists_unitsPerOne_eq : ∃ k, k = 1074 ∧ unitsPerOne = 2 ^ k :=
  ⟨1074, rfl, by decide +kernel⟩

theorem unitsPerOne_pos : 0 < unitsPerOne := by
  obtain ⟨k, -, hunits⟩ := exists_unitsPerOne_eq
  rw [hunits]
  exact Nat.two_pow_pos k

variable {coefficient : Nat} {exponent : Int}

theorem two_pow_le_ten_pow {k n : Nat} (h : k ≤ 3 * n) : 2 ^ k ≤ 10 ^ n := by
  calc 2 ^ k ≤ 2 ^ (3 * n) := Nat.pow_le_pow_right (by decide) h
    _ = 8 ^ n := by rw [Nat.pow_mul]
    _ ≤ 10 ^ n := Nat.pow_le_pow_left (by decide) n

/-- A power of ten that is taken to pass every double does. -/
theorem roundWord_of_large_exponent (hne : coefficient ≠ 0) (h : 400 < exponent) :
    roundWord (coefficient * 10 ^ exponent.toNat * unitsPerOne) (10 ^ (-exponent).toNat) =
      infinityWord := by
  obtain ⟨k, hk, hunits⟩ := exists_unitsPerOne_eq
  have hden : (-exponent).toNat = 0 := by omega
  rw [hden, Nat.pow_zero, hunits]
  apply roundWord_of_large (n := 3 * exponent.toNat + k) (by omega) Nat.one_pos
  calc 2 ^ (3 * exponent.toNat + k) * 1 = 2 ^ (3 * exponent.toNat) * 2 ^ k := by
        rw [Nat.mul_one, Nat.pow_add]
    _ ≤ 10 ^ exponent.toNat * 2 ^ k := Nat.mul_le_mul_right _ (two_pow_le_ten_pow (Nat.le_refl _))
    _ ≤ coefficient * 10 ^ exponent.toNat * 2 ^ k :=
        Nat.mul_le_mul_right _ (Nat.le_mul_of_pos_left _ (Nat.pos_of_ne_zero hne))

/-- A power of ten that is taken to vanish does. -/
theorem roundWord_of_small_exponent (h : exponent < -(Nat.log2 coefficient + 400 : Int)) :
    roundWord (coefficient * 10 ^ exponent.toNat * unitsPerOne) (10 ^ (-exponent).toNat) = 0 := by
  obtain ⟨k, hk, hunits⟩ := exists_unitsPerOne_eq
  have hnum : exponent.toNat = 0 := by omega
  have hlog : coefficient ≤ 2 ^ (Nat.log2 coefficient + 1) := Nat.le_of_lt Nat.lt_log2_self
  rw [hnum, Nat.pow_zero, Nat.mul_one, hunits]
  apply roundWord_of_small (Nat.pow_pos (by decide))
  calc 2 * (coefficient * 2 ^ k) ≤ 2 * (2 ^ (Nat.log2 coefficient + 1) * 2 ^ k) :=
        Nat.mul_le_mul_left 2 (Nat.mul_le_mul_right _ hlog)
    _ = 2 ^ (Nat.log2 coefficient + k + 2) := by ring
    _ ≤ 10 ^ (-exponent).toNat := two_pow_le_ten_pow (by omega)

theorem ofDecimal_eq_round (negative : Bool) (coefficient : Nat) (exponent : Int) :
    ofDecimal negative coefficient exponent =
      round negative (coefficient * 10 ^ exponent.toNat * unitsPerOne) (10 ^ (-exponent).toNat) := by
  unfold ofDecimal
  split_ifs with hzero hlarge hsmall hsign
  · rw [round, hzero, Nat.zero_mul, Nat.zero_mul,
      roundWord_of_small (Nat.pow_pos (by decide)) (Nat.zero_le _)]
    rfl
  · rw [round, roundWord_of_large_exponent hzero hlarge]
    rfl
  · rw [round, roundWord_of_small_exponent hsmall]
    rfl
  · have hden : (-exponent).toNat = 0 := by omega
    rw [hden]
    rfl
  · have hnum : exponent.toNat = 0 := by omega
    rw [hnum, Nat.pow_zero, Nat.mul_one]
    rfl

/-- A decimal is read as the word nearest to its value. -/
theorem ofDecimal_eq (negative : Bool) (d : Decimal) :
    ofDecimal negative d.coefficient d.exponent =
      ofSignWord negative (nearestWord (d.value * unitsPerOne)) := by
  have hden : 0 < 10 ^ (-d.exponent).toNat := Nat.pow_pos (by decide)
  rw [ofDecimal_eq_round, round, roundWord_eq_nearestWord _ hden, Decimal.value, Decimal.ten_zpow]
  congr 2
  push_cast
  ring

end Binary64

namespace Decimal

open Binary64

theorem toWord_eq (d : Decimal) : d.toWord = nearestWord (d.value * unitsPerOne) := by
  rw [toWord, ofDecimal_eq, word_ofSignWord (nearestWord_le _)]

theorem value_ofMagnitude (significand shift : Nat) :
    (ofMagnitude significand shift).value * unitsPerOne = (significand <<< shift : Nat) := by
  obtain ⟨k, hk, hunits⟩ := exists_unitsPerOne_eq
  rw [hunits, Nat.shiftLeft_eq]
  unfold ofMagnitude
  split_ifs with hshift
  · have hsum : shift = shift - 1074 + k := by omega
    rw [value, Nat.shiftLeft_eq]
    conv_rhs => rw [hsum, Nat.pow_add]
    push_cast
    ring
  · have hexponent : ((shift : Int) - 1074) = -((1074 - shift : Nat) : Int) := by omega
    have hsum : k = 1074 - shift + shift := by omega
    rw [value, hexponent, zpow_neg, zpow_natCast, hsum, Nat.pow_add, Nat.pow_eq]
    generalize 1074 - shift = j
    have hten : (10 : ℚ) ^ j = 2 ^ j * 5 ^ j := by
      rw [← mul_pow]
      norm_num
    rw [hten]
    push_cast
    field_simp

/-- The shortest decimal of a magnitude is read as the exact one is. -/
theorem toWord_shortest (significand shift : Nat) :
    (shortest significand shift).toWord = nearestWord (significand <<< shift : Nat) := by
  rw [← value_ofMagnitude, ← toWord_eq]
  unfold shortest
  generalize ofMagnitude significand shift = d
  cases hfound : (List.range 17).findSome? fun k =>
      (d.neighbours ((digits d.coefficient).length - (k + 1))).find? fun c => c.toWord = d.toWord with
  | none => simp [hfound]
  | some c =>
    -- Whatever the search finds has passed its test.
    obtain ⟨k, -, hk⟩ := List.exists_of_findSome?_eq_some hfound
    have hc := List.find?_some hk
    simpa [hfound] using hc

end Decimal

end ArithJit
