import ArithJit.Json.Reader
import ArithJit.Json.Writer
import Mathlib.Tactic.SplitIfs

/-!
# Strings are read back

However a character is escaped, the reader gets its sixteen-bit units from what was written: one
unit, or the two halves of a pair. No character is a surrogate, so the first half of a pair always
stands before its own second half, and joining the units of a text gives its characters.
-/

namespace ArithJit

theorem Text.hexValue?_hexDigit : ∀ d < 16, Text.hexValue? (Text.hexDigit d) = some d := by
  decide

namespace Json

/-- The sixteen-bit units of a character. -/
def units (c : Char) : List Nat :=
  if c.toNat < 0x10000 then [c.toNat]
  else [0xd800 + (c.toNat - 0x10000) / 0x400, 0xdc00 + (c.toNat - 0x10000) % 0x400]

variable {c : Char} {acc : List Nat} {rest : List Char}

/-! ## Joining units -/

theorem joinUnits_cons {u : Nat} (h : isHighUnit u = false) (us : List Nat) :
    joinUnits (u :: us) = .ofNat u :: joinUnits us := by
  cases us with
  | nil => rfl
  | cons v us => simp [joinUnits, h]

theorem toNat_valid (c : Char) : c.toNat < 0x110000 ∧ ¬(0xd800 ≤ c.toNat ∧ c.toNat < 0xe000) := by
  have h := c.valid
  simp only [UInt32.isValidChar, Nat.isValidChar] at h
  change c.val.toNat < 0x110000 ∧ ¬(0xd800 ≤ c.val.toNat ∧ c.val.toNat < 0xe000)
  omega

theorem joinUnits_units (c : Char) (us : List Nat) :
    joinUnits (units c ++ us) = .char c :: joinUnits us := by
  obtain ⟨hlt, hvalid⟩ := toNat_valid c
  unfold units
  split_ifs with hplane
  · have hhigh : isHighUnit c.toNat = false := by
      simp only [isHighUnit, Bool.and_eq_false_iff, decide_eq_false_iff_not]
      omega
    rw [List.singleton_append, joinUnits_cons hhigh]
    exact congrArg (· :: joinUnits us) (CodePoint.ofNat_toNat (.char c))
  · have hpair : (isHighUnit (0xd800 + (c.toNat - 0x10000) / 0x400) &&
        isLowUnit (0xdc00 + (c.toNat - 0x10000) % 0x400)) = true := by
      simp only [isHighUnit, isLowUnit, Bool.and_eq_true, decide_eq_true_eq]
      omega
    have hsum : 0x10000 + (0xd800 + (c.toNat - 0x10000) / 0x400 - 0xd800) * 0x400 +
        (0xdc00 + (c.toNat - 0x10000) % 0x400 - 0xdc00) = c.toNat := by
      omega
    simp only [List.cons_append, List.nil_append, joinUnits, hpair, if_true, pairChar, hsum,
      Char.ofNat_toNat]

theorem joinUnits_flatMap_units (cs : List Char) :
    joinUnits (cs.flatMap units) = cs.map .char := by
  induction cs with
  | nil => rfl
  | cons c cs ih => rw [List.flatMap_cons, joinUnits_units, ih, List.map_cons]

/-! ## Reading escapes -/

theorem unit?_hex {u : Nat} (h : u < 0x10000) :
    unit? (Text.hexDigit (u / 16 / 16 / 16 % 16)) (Text.hexDigit (u / 16 / 16 % 16))
      (Text.hexDigit (u / 16 % 16)) (Text.hexDigit (u % 16)) = some u := by
  have hdigit (n : Nat) : Text.hexValue? (Text.hexDigit (n % 16)) = some (n % 16) :=
    Text.hexValue?_hexDigit (n % 16) (Nat.mod_lt n (by decide))
  simp only [unit?, hdigit, Option.bind_eq_bind, Option.bind_some, Option.pure_def, Option.some_inj]
  omega

theorem readString_unitEscape {u : Nat} (hu : u < 0x10000) (hrest : rest ≠ [])
    (start position : Nat) :
    readString start position acc (unitEscape u ++ rest) =
      readString start (position + (unitEscape u).length) (u :: acc) rest := by
  have hempty : rest.isEmpty = false := by simpa using hrest
  simp [unitEscape, Text.hex, readString, hempty, unit?_hex hu]

theorem readString_plain (hquote : c ≠ '"') (hslash : c ≠ '\\') (hcontrol : 0x20 ≤ c.toNat)
    (start position : Nat) :
    readString start position acc (c :: rest) =
      readString start (position + 1) (c.toNat :: acc) rest := by
  have hlow : ¬c.toNat < 0x20 := by omega
  simp [readString, hslash, hlow]

/-- The reader takes an escaped character and keeps its units. -/
theorem readString_escapedChar (c : Char) (hrest : rest ≠ []) (start position : Nat) :
    readString start position acc (escapedChar c ++ rest) =
      readString start (position + (escapedChar c).length) ((units c).reverse ++ acc) rest := by
  obtain ⟨hlt, -⟩ := toNat_valid c
  by_cases hshort : c ∈ ['"', '\\', '\n', '\r', '\t', '\x08', '\x0c']
  · simp only [List.mem_cons, List.not_mem_nil, or_false] at hshort
    rcases hshort with rfl | rfl | rfl | rfl | rfl | rfl | rfl
    all_goals simp [escapedChar, readString, shortEscape?, units]
  simp only [List.mem_cons, List.not_mem_nil, or_false, not_or] at hshort
  obtain ⟨hquote, hslash, hline, hreturn, htab, hback, hfeed⟩ := hshort
  simp only [escapedChar, hquote, hslash, hline, hreturn, htab, hback, hfeed, if_false]
  split_ifs with hplain hplane
  · simp only [Bool.and_eq_true, decide_eq_true_eq] at hplain
    rw [units, if_pos (by omega), List.singleton_append, readString_plain hquote hslash hplain.1]
    rfl
  · rw [units, if_pos hplane, readString_unitEscape hplane hrest]
    rfl
  · have hhigh : 0xd800 + (c.toNat - 0x10000) / 0x400 < 0x10000 := by omega
    have hlow : 0xdc00 + (c.toNat - 0x10000) % 0x400 < 0x10000 := by omega
    rw [units, if_neg hplane, List.append_assoc, readString_unitEscape hhigh (by simp [unitEscape]),
      readString_unitEscape hlow hrest, List.length_append, Nat.add_assoc]
    rfl

theorem readString_flatMap_escapedChar (cs : List Char) (start position : Nat) :
    readString start position acc (cs.flatMap escapedChar ++ '"' :: rest) =
      .ok (⟨joinUnits (acc.reverse ++ cs.flatMap units)⟩,
        ⟨position + (cs.flatMap escapedChar).length + 1, rest⟩) := by
  induction cs generalizing acc position with
  | nil => simp [readString]
  | cons c cs ih =>
    rw [List.flatMap_cons, List.append_assoc, readString_escapedChar c (by simp), ih]
    simp [Nat.add_assoc]

/-! ## Whole strings -/

theorem writeString_ofString (s : String) :
    writeString (.ofString s) = '"' :: (s.toList.flatMap escapedChar ++ ['"']) := by
  simp [writeString, UnicodeString.ofString, List.flatMap_map, escapedPoint]

/-- A text is read back from behind its opening quote. -/
theorem readString_writeString (s : String) (rest : List Char) (start position : Nat) :
    ∃ body, writeString (.ofString s) = '"' :: body ∧
      readString start position [] (body ++ rest) =
        .ok (.ofString s, ⟨position + body.length, rest⟩) := by
  refine ⟨s.toList.flatMap escapedChar ++ ['"'], writeString_ofString s, ?_⟩
  rw [List.append_assoc, List.singleton_append, readString_flatMap_escapedChar, List.reverse_nil,
    List.nil_append, joinUnits_flatMap_units, List.length_append, List.length_singleton,
    Nat.add_assoc]
  rfl

end Json

end ArithJit
