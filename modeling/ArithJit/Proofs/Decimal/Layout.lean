import ArithJit.Decimal.Layout
import ArithJit.Proofs.Decimal.Numeral
import ArithJit.Proofs.Decimal.Shortest

/-!
# A decimal laid out with a point reads back

Digits with a point among them write a rational number, and a plain decimal is read as the double
nearest to the number that it writes. A decimal laid out with a point writes its own value: needless
zeros at the end and zeros that fill up a place do not count. Whether a layout uses the point alone
depends only on the value, which lies between two powers of ten that the digits count out.
-/

namespace ArithJit

open Binary64

namespace Numeral

/-- The text is a plain decimal that writes a given number. -/
def Denotes (cs : List Char) (q : ℚ) : Prop :=
  IsPlain cs ∧ ∃ d : Decimal, decimal? cs = some (d.coefficient, d.exponent) ∧ d.value = q

variable {cs ds fs : List Char} {q : ℚ}

/-- A plain decimal is read as the double nearest to the number that it writes. -/
theorem Denotes.read?_eq (h : Denotes cs q) :
    read? (String.ofList cs) = some (ofSignWord false (nearestWord (q * unitsPerOne))) := by
  obtain ⟨hplain, d, hdecimal, rfl⟩ := h
  rw [hplain.read?_eq, hdecimal, Option.map_some]
  exact congrArg some (ofDecimal_eq false d)

theorem denotes_digits (hds : ∀ c ∈ ds, c.isDigit = true) (hne : ds ≠ []) :
    Denotes ds (natOfDigits ds) := by
  refine ⟨.whole hds hne, ⟨natOfDigits ds, 0⟩, decimal?_digits hds hne, ?_⟩
  simp [Decimal.value]

theorem denotes_pointed (hds : ∀ c ∈ ds, c.isDigit = true) (hfs : ∀ c ∈ fs, c.isDigit = true)
    (hne : ds ++ fs ≠ []) :
    Denotes (ds ++ '.' :: fs) (natOfDigits (ds ++ fs) * 10 ^ (-(fs.length : Int))) :=
  ⟨.pointed hds hfs hne, ⟨natOfDigits (ds ++ fs), -(fs.length : Int)⟩,
    decimal?_pointed hds hfs hne, rfl⟩

theorem IsPlain.exists_denotes (h : IsPlain cs) : ∃ q, Denotes cs q := by
  cases h with
  | whole digits ne => exact ⟨_, denotes_digits digits ne⟩
  | pointed whole fraction ne => exact ⟨_, denotes_pointed whole fraction ne⟩

theorem natOfDigits_append_zeros (ds : List Char) (k : Nat) :
    natOfDigits (ds ++ List.replicate k '0') = natOfDigits ds * 10 ^ k := by
  rw [natOfDigits, Nat.ofDigitChars_append, Nat.ofDigitChars_replicate_zero, Nat.mul_comm]
  rfl

theorem natOfDigits_zeros_append (k : Nat) (ds : List Char) :
    natOfDigits (List.replicate k '0' ++ ds) = natOfDigits ds := by
  rw [natOfDigits, Nat.ofDigitChars_append, Nat.ofDigitChars_replicate_zero, Nat.mul_zero]
  rfl

end Numeral

namespace Decimal

open Numeral

variable {ds : List Char} {d : Decimal}

theorem isDigit_of_mem_digits {n : Nat} {c : Char} (h : c ∈ digits n) : c.isDigit = true :=
  Nat.isDigit_of_mem_toDigits (by decide) (by decide) h

theorem isDigit_replicate {k : Nat} : ∀ c ∈ List.replicate k '0', c.isDigit = true := by
  intro c hc
  rw [(List.mem_replicate.1 hc).2]
  decide

/-- Digits with a point after the first few of them write the number that the digits do, with as
    many places as stand behind the point. -/
theorem denotes_withPoint (hds : ∀ c ∈ ds, c.isDigit = true) (hne : ds ≠ []) (point : Int) :
    Denotes (withPoint ds point) (natOfDigits ds * 10 ^ (point - ds.length)) := by
  simp only [withPoint]
  split_ifs with hpoint hlength
  · have hfraction : ∀ c ∈ List.replicate (-point).toNat '0' ++ ds, c.isDigit = true := by
      intro c hc
      exact (List.mem_append.1 hc).elim (isDigit_replicate c) (hds c)
    have hzero : ∀ c ∈ ['0'], c.isDigit = true := by simp
    have hdenotes := denotes_pointed hzero hfraction (by simp)
    have hdigits : natOfDigits (['0'] ++ (List.replicate (-point).toNat '0' ++ ds)) =
        natOfDigits ds := by
      rw [← List.append_assoc]
      exact natOfDigits_zeros_append ((-point).toNat + 1) ds
    have hplaces : -((List.replicate (-point).toNat '0' ++ ds).length : Int) =
        point - ds.length := by
      rw [List.length_append, List.length_replicate]
      omega
    rw [hdigits, hplaces] at hdenotes
    exact hdenotes
  · have hwhole : ∀ c ∈ ds ++ List.replicate (point.toNat - ds.length) '0', c.isDigit = true := by
      intro c hc
      exact (List.mem_append.1 hc).elim (hds c) (isDigit_replicate c)
    have hzero : ∀ c ∈ ['0'], c.isDigit = true := by simp
    have hdenotes := denotes_pointed hwhole hzero (by simp)
    have hdigits : natOfDigits (ds ++ List.replicate (point.toNat - ds.length) '0' ++ ['0']) =
        natOfDigits ds * 10 ^ (point.toNat - ds.length) * 10 ^ 1 := by
      rw [← natOfDigits_append_zeros, ← natOfDigits_append_zeros]
      rfl
    have hplaces : point - ds.length = ((point.toNat - ds.length : Nat) : Int) := by omega
    rw [hdigits] at hdenotes
    rw [hplaces, zpow_natCast]
    convert hdenotes using 1
    push_cast
    simp
  · have hdenotes := denotes_pointed (fun c hc => hds c (List.mem_of_mem_take hc))
      (fun c hc => hds c (List.mem_of_mem_drop hc))
      (by rwa [List.take_append_drop point.toNat ds])
    have hplaces : -((ds.drop point.toNat).length : Int) = point - ds.length := by
      rw [List.length_drop]
      omega
    rw [List.take_append_drop, hplaces] at hdenotes
    exact hdenotes

/-- Only zeros are lost. -/
theorem exists_dropZeros_append (ds : List Char) :
    ∃ k, ds = dropZeros ds ++ List.replicate k '0' := by
  cases ds with
  | nil => exact ⟨0, rfl⟩
  | cons d ds =>
    have hsplit := ds.reverse.takeWhile_append_dropWhile (p := fun c => decide (c = '0'))
    have hzeros : ds.reverse.takeWhile (fun c => decide (c = '0')) =
        List.replicate (ds.reverse.takeWhile (fun c => decide (c = '0'))).length '0' := by
      refine List.eq_replicate_of_mem fun c hc => ?_
      simpa using List.mem_takeWhile_imp hc
    refine ⟨(ds.reverse.takeWhile (fun c => decide (c = '0'))).length, ?_⟩
    have hds := congrArg List.reverse hsplit
    rw [List.reverse_append, List.reverse_reverse, hzeros, List.reverse_replicate] at hds
    rw [dropZeros, List.cons_append, hds]

theorem dropZeros_ne_nil (h : ds ≠ []) : dropZeros ds ≠ [] := by
  cases ds with
  | nil => exact absurd rfl h
  | cons d ds => simp [dropZeros]

/-- The place of the point of a decimal, counted from its first digit. -/
def point (d : Decimal) : Int := (digits d.coefficient).length + d.exponent

theorem isDigit_of_mem_dropZeros {n : Nat} {c : Char} (h : c ∈ dropZeros (digits n)) :
    c.isDigit = true := by
  obtain ⟨k, hk⟩ := exists_dropZeros_append (digits n)
  refine isDigit_of_mem_digits (n := n) ?_
  rw [hk]
  exact List.mem_append_left _ h

/-- The zeros that are lost are made up for by the place of the point. -/
theorem value_eq_dropZeros (d : Decimal) :
    d.value = natOfDigits (dropZeros (digits d.coefficient)) *
      10 ^ (d.point - (dropZeros (digits d.coefficient)).length) := by
  obtain ⟨k, hk⟩ := exists_dropZeros_append (digits d.coefficient)
  have hcoefficient : d.coefficient = natOfDigits (dropZeros (digits d.coefficient)) * 10 ^ k := by
    rw [← natOfDigits_append_zeros, ← hk]
    exact Nat.ofDigitChars_ten_toDigits.symm
  have hlength : (digits d.coefficient).length = (dropZeros (digits d.coefficient)).length + k := by
    conv_lhs => rw [hk, List.length_append, List.length_replicate]
  have hplaces : d.point - (dropZeros (digits d.coefficient)).length = k + d.exponent := by
    rw [point, hlength]
    push_cast
    ring
  rw [hplaces, value, zpow_add₀ (by norm_num), zpow_natCast]
  conv_lhs => rw [hcoefficient]
  push_cast
  ring

/-- A decimal laid out with a point writes its value. -/
theorem denotes_value (d : Decimal) :
    Denotes (withPoint (dropZeros (digits d.coefficient)) d.point) d.value := by
  rw [value_eq_dropZeros]
  exact denotes_withPoint (fun c hc => isDigit_of_mem_dropZeros hc)
    (dropZeros_ne_nil Nat.toDigits_ne_nil) d.point

theorem pow_length_digits {n : Nat} (h : n ≠ 0) :
    10 ^ ((digits n).length - 1) ≤ n ∧ n < 10 ^ (digits n).length := by
  have hpos : 0 < (digits n).length := Nat.length_toDigits_pos
  refine ⟨?_, (Nat.length_toDigits_le_iff (by decide) hpos).1 (Nat.le_refl _)⟩
  rcases Nat.eq_zero_or_pos ((digits n).length - 1) with hone | hmore
  · rw [hone, Nat.pow_zero]
    exact Nat.pos_of_ne_zero h
  · apply Nat.le_of_not_lt
    intro hlt
    have hle : (digits n).length ≤ (digits n).length - 1 :=
      (Nat.length_toDigits_le_iff (by decide) hmore).2 hlt
    omega

/-- The digits of a decimal count out the powers of ten that its value lies between. -/
theorem pow_point (h : d.coefficient ≠ 0) :
    (10 : ℚ) ^ (d.point - 1) ≤ d.value ∧ d.value < 10 ^ d.point := by
  obtain ⟨hlow, hhigh⟩ := pow_length_digits h
  have hpos : 0 < (digits d.coefficient).length := Nat.length_toDigits_pos
  have hten : (0 : ℚ) < 10 ^ d.exponent := zpow_pos (by norm_num) _
  have hleast : d.point - 1 = (((digits d.coefficient).length - 1 : Nat) : Int) + d.exponent := by
    rw [point]
    omega
  rw [hleast, point, zpow_add₀ (by norm_num), zpow_add₀ (by norm_num), zpow_natCast, zpow_natCast,
    value]
  constructor
  · exact mul_le_mul_of_nonneg_right (by exact_mod_cast hlow) hten.le
  · exact mul_lt_mul_of_pos_right (by exact_mod_cast hhigh) hten

theorem lt_point_iff (h : d.coefficient ≠ 0) (k : Int) : k < d.point ↔ (10 : ℚ) ^ k ≤ d.value := by
  obtain ⟨hlow, hhigh⟩ := pow_point h
  constructor
  · intro hk
    exact (zpow_le_zpow_right₀ (by norm_num) (by omega)).trans hlow
  · intro hk
    exact (zpow_lt_zpow_iff_right₀ (by norm_num)).1 (hk.trans_lt hhigh)

theorem mem_withExponent (ds : List Char) (exponent : Int) : 'e' ∈ withExponent ds exponent := by
  simp [withExponent]

/-- A decimal is laid out with a point and writes its value, or with an exponent, and which of the
    two depends on the value. -/
theorem lay_cases (l : Layout) (h : d.coefficient ≠ 0) :
    ((10 : ℚ) ^ l.leastPlain ≤ d.value ∧ d.value < 10 ^ (l.mostPlain + 1) ∧
      Denotes (lay l d) d.value) ∨
    (¬((10 : ℚ) ^ l.leastPlain ≤ d.value ∧ d.value < 10 ^ (l.mostPlain + 1)) ∧
      'e' ∈ lay l d) := by
  have hrange : (l.leastPlain ≤ d.point - 1 && d.point - 1 ≤ l.mostPlain) = true ↔
      (10 : ℚ) ^ l.leastPlain ≤ d.value ∧ d.value < 10 ^ (l.mostPlain + 1) := by
    have hleast := lt_point_iff h l.leastPlain
    have hmost := (lt_point_iff h (l.mostPlain + 1)).not
    rw [not_le] at hmost
    rw [← hleast, ← hmost]
    simp only [Bool.and_eq_true, decide_eq_true_eq]
    omega
  unfold lay
  simp only [h, if_false]
  split_ifs with hplain
  · obtain ⟨hlow, hhigh⟩ := hrange.1 hplain
    exact .inl ⟨hlow, hhigh, d.denotes_value⟩
  · exact .inr ⟨fun hvalue => hplain (hrange.2 hvalue), mem_withExponent _ _⟩

end Decimal

end ArithJit
