import ArithJit.Json.Reader
import ArithJit.Json.Writer
import ArithJit.Proofs.Decimal.Layout

/-!
# Numbers are read back

A number has digits before the point, digits behind it and an exponent, of which only the first must
be there. In front of a rest that cannot continue it, the reader takes the whole number and no more.
Integers are written as such numbers, and so is every finite double: whichever way its decimal is
laid out, the number that stands there has the value of the decimal, and the double nearest to that
value is the one that was written.
-/

namespace ArithJit

open Numeral

namespace Decimal

theorem eq_zero_of_head?_digits {n : Nat} (h : (digits n).head? = some '0') : n = 0 := by
  induction n using Nat.strongRecOn with
  | ind n ih =>
    by_cases hn : n < 10
    · rw [digits, Nat.toDigits_of_lt_base hn, List.head?_cons, Option.some_inj] at h
      have hdigit : ∀ d < 10, Nat.digitChar d = '0' → d = 0 := by decide
      exact hdigit n hn h
    · have hmore : digits n = digits (n / 10) ++ [(n % 10).digitChar] :=
        Nat.toDigits_of_base_le (by decide) (by omega)
      rw [hmore, List.head?_append_of_ne_nil (digits (n / 10)) Nat.toDigits_ne_nil] at h
      have hzero := ih (n / 10) (by omega) h
      omega

end Decimal

namespace Json

theorem Input.advance_append (position : Nat) (cs rest : List Char) :
    Input.advance ⟨position, cs ++ rest⟩ cs.length = ⟨position + cs.length, rest⟩ := by
  rw [Input.advance, List.drop_left]

/-- A number without its sign: the digits before the point and behind it, and the digits of the
    exponent with whether it is negative. A zero at the beginning stands alone. -/
structure Number where
  whole : List Char
  fraction : List Char
  exponent : Option (Bool × List Char)
  whole_digits : ∀ c ∈ whole, c.isDigit = true
  whole_ne : whole ≠ []
  leading : whole.head? = some '0' → whole = ['0']
  fraction_digits : ∀ c ∈ fraction, c.isDigit = true
  exponent_digits : ∀ e ∈ exponent, e.2 ≠ [] ∧ ∀ c ∈ e.2, c.isDigit = true

/-- A rest that cannot continue a number. -/
def EndsNumber (rest : List Char) : Prop :=
  ∀ c ∈ rest.head?, c.isDigit = false ∧ c ≠ '.' ∧ c ≠ 'e' ∧ c ≠ 'E'

/-- The sign of a number. -/
def signText (negative : Bool) : List Char := if negative then ['-'] else []

namespace Number

/-- The point and what stands behind it. -/
def fractionText (n : Number) : List Char :=
  if n.fraction.isEmpty then [] else '.' :: n.fraction

/-- The exponent with its mark and its sign. -/
def exponentText (n : Number) : List Char :=
  match n.exponent with
  | none => []
  | some (down, places) => 'e' :: (if down then '-' else '+') :: places

/-- The number as it is written. -/
def text (n : Number) : List Char := n.whole ++ n.fractionText ++ n.exponentText

/-- The exponent, which is zero if none is written. -/
def power (n : Number) : Int :=
  match n.exponent with
  | none => 0
  | some (down, places) => if down then -(natOfDigits places : Int) else natOfDigits places

/-- The decimal that is written. -/
def decimal (n : Number) : Decimal :=
  ⟨natOfDigits (n.whole ++ n.fraction), n.power - n.fraction.length⟩

/-- Whether the number is written as an integer. -/
def isInteger (n : Number) : Bool := n.fraction.isEmpty && n.exponent.isNone

/-- The value of the number with a sign. -/
def json (n : Number) (negative : Bool) : Json :=
  if n.isInteger then .int (if negative then -(natOfDigits n.whole : Int) else natOfDigits n.whole)
  else .float (.ofDecimal negative n.decimal.coefficient n.decimal.exponent)

variable {rest : List Char} (n : Number)

/-! ## Reading a number -/

theorem wholeDigits_append (hrest : ∀ c ∈ rest.head?, c.isDigit = false) :
    wholeDigits (n.whole ++ rest) = n.whole := by
  rw [wholeDigits, List.head?_append_of_ne_nil _ n.whole_ne]
  split_ifs with hzero
  · exact (n.leading hzero).symm
  · exact (takeWhile_of_boundary n.whole_digits hrest).1

theorem fractionDigits_append (hrest : ∀ c ∈ rest.head?, c.isDigit = false ∧ c ≠ '.') :
    fractionDigits (n.fractionText ++ rest) = n.fraction := by
  unfold fractionText
  split_ifs with hempty
  · rw [List.isEmpty_iff.1 hempty, List.nil_append]
    unfold fractionDigits
    split
    · exact absurd rfl (hrest '.' rfl).2
    · rfl
  · exact (takeWhile_of_boundary n.fraction_digits fun c hc => (hrest c hc).1).1

theorem exponentPart?_of_endsNumber (hrest : EndsNumber rest) : exponentPart? rest = none := by
  cases rest with
  | nil => rfl
  | cons c rest =>
    obtain ⟨-, -, hlower, hupper⟩ := hrest c rfl
    simp [exponentPart?, hlower, hupper]

theorem exponentPart?_append (hrest : EndsNumber rest) :
    exponentPart? (n.exponentText ++ rest) =
      n.exponent.map fun _ => (n.power, n.exponentText.length) := by
  cases hexponent : n.exponent with
  | none =>
    simp only [exponentText, hexponent, List.nil_append, Option.map_none]
    exact exponentPart?_of_endsNumber hrest
  | some e =>
    obtain ⟨down, places⟩ := e
    obtain ⟨hne, hdigits⟩ := n.exponent_digits (down, places) hexponent
    have hplaces := (takeWhile_of_boundary hdigits fun c hc => (hrest c hc).1).1
    have hsign : splitSign ((if down then '-' else '+') :: (places ++ rest)) =
        (down, places ++ rest) := by
      cases down <;> rfl
    have hempty : places.isEmpty = false := by simpa using hne
    simp [exponentText, power, hexponent, exponentPart?, hsign, hplaces, hempty, Nat.add_comm 2]

theorem head?_exponentText_append (hrest : EndsNumber rest) :
    ∀ c ∈ (n.exponentText ++ rest).head?, c.isDigit = false ∧ c ≠ '.' := by
  intro c hc
  cases hexponent : n.exponent with
  | none =>
    rw [exponentText, hexponent, List.nil_append] at hc
    exact ⟨(hrest c hc).1, (hrest c hc).2.1⟩
  | some e =>
    rw [exponentText, hexponent, List.cons_append, List.head?_cons, Option.mem_some_iff] at hc
    rw [← hc]
    decide

theorem head?_fractionText_append (hrest : ∀ c ∈ rest.head?, c.isDigit = false ∧ c ≠ '.') :
    ∀ c ∈ (n.fractionText ++ rest).head?, c.isDigit = false := by
  intro c hc
  unfold fractionText at hc
  split_ifs at hc
  · exact (hrest c hc).1
  · rw [List.cons_append, List.head?_cons, Option.mem_some_iff] at hc
    rw [← hc]
    decide

theorem exists_text_eq_cons : ∃ c cs, c.isDigit = true ∧ n.text = c :: cs := by
  obtain ⟨c, ds, hwhole⟩ := List.exists_cons_of_ne_nil n.whole_ne
  refine ⟨c, ds ++ n.fractionText ++ n.exponentText, n.whole_digits c ?_, ?_⟩
  · rw [hwhole]
    exact List.mem_cons_self
  · rw [text, hwhole, List.cons_append, List.cons_append]

theorem length_fractionText :
    n.fractionText.length = if n.fraction.isEmpty then 0 else n.fraction.length + 1 := by
  unfold fractionText
  split_ifs
  · rfl
  · rw [List.length_cons]

theorem head?_signText_append (negative : Bool) (rest : List Char) :
    (signText negative ++ n.text ++ rest).head? = some '-' ↔ negative = true := by
  cases negative with
  | false =>
    obtain ⟨c, cs, hdigit, hcs⟩ := n.exists_text_eq_cons
    rw [signText, if_neg (by decide), List.nil_append, hcs, List.cons_append, List.head?_cons,
      Option.some_inj]
    simp only [Bool.false_eq_true, iff_false]
    rintro rfl
    exact absurd hdigit (by decide)
  | true => simp [signText]

/-- The reader takes a number and leaves what follows it. -/
theorem readNumber_text (negative : Bool) (position : Nat) (hrest : EndsNumber rest)
    (hlength : n.isInteger = true → n.whole.length ≤ maxDigits) :
    readNumber ⟨position, signText negative ++ n.text ++ rest⟩ =
      .ok (n.json negative, ⟨position + (signText negative ++ n.text).length, rest⟩) := by
  have hexponentHead := n.head?_exponentText_append hrest
  have hfractionHead := n.head?_fractionText_append hexponentHead
  have hunsigned : (if negative = true then (signText negative ++ n.text ++ rest).drop 1
      else signText negative ++ n.text ++ rest) =
      n.whole ++ (n.fractionText ++ (n.exponentText ++ rest)) := by
    cases negative <;> simp [signText, text]
  have hpointed : (n.fractionText ++ (n.exponentText ++ rest)).drop
      (if n.fraction.isEmpty then 0 else n.fraction.length + 1) = n.exponentText ++ rest := by
    rw [← length_fractionText, List.drop_left]
  have htotal : (if negative = true then 1 else 0) + n.whole.length +
      (if n.fraction.isEmpty then 0 else n.fraction.length + 1) +
      ((n.exponent.map fun _ => (n.power, n.exponentText.length)).map Prod.snd).getD 0 =
      (signText negative ++ n.text).length := by
    rw [← length_fractionText]
    cases hexponent : n.exponent <;> cases negative <;>
      simp [text, signText, exponentText, hexponent] <;> omega
  have hpower : ((n.exponent.map fun _ => (n.power, n.exponentText.length)).map Prod.fst).getD 0 =
      n.power := by
    cases hexponent : n.exponent <;> simp [power, hexponent]
  have hempty : n.whole.isEmpty = false := by simpa using n.whole_ne
  -- The parts that the reader finds are those of the number, and only its kind is left to decide.
  simp only [readNumber, n.head?_signText_append, hunsigned, n.wholeDigits_append hfractionHead,
    hempty, List.drop_left, n.fractionDigits_append hexponentHead, hpointed,
    n.exponentPart?_append hrest, htotal, hpower, Input.advance_append, Option.isNone_map]
  cases hinteger : n.isInteger with
  | false =>
    rw [isInteger] at hinteger
    simp [json, isInteger, hinteger, decimal]
  | true =>
    have hshort : ¬maxDigits < n.whole.length := Nat.not_lt.2 (hlength hinteger)
    rw [isInteger] at hinteger
    simp [json, isInteger, hinteger, hshort]

/-! ## Integers -/

/-- The number that writes a natural number. -/
def ofNat (k : Nat) : Number where
  whole := Decimal.digits k
  fraction := []
  exponent := none
  whole_digits _ hc := Decimal.isDigit_of_mem_digits hc
  whole_ne := Nat.toDigits_ne_nil
  leading h := by rw [Decimal.eq_zero_of_head?_digits h]; rfl
  fraction_digits _ hc := nomatch hc
  exponent_digits _ he := nomatch he

theorem writeInt_eq (k : Int) : writeInt k = signText (k < 0) ++ (ofNat k.natAbs).text := by
  simp only [writeInt, signText, text, ofNat, fractionText, exponentText, List.isEmpty_nil, if_true,
    List.append_nil, decide_eq_true_eq]
  split_ifs <;> rfl

theorem json_ofNat (k : Int) : (ofNat k.natAbs).json (k < 0) = .int k := by
  have hdigits : natOfDigits (Decimal.digits k.natAbs) = k.natAbs := Nat.ofDigitChars_ten_toDigits
  simp only [json, isInteger, ofNat, List.isEmpty_nil, Option.isNone_none, Bool.and_self, if_true,
    hdigits, decide_eq_true_eq]
  split_ifs <;> congr 1 <;> omega

end Number

/-- The integer has no more digits than are read. -/
def IsShort (k : Int) : Prop := (Decimal.digits k.natAbs).length ≤ maxDigits

instance (k : Int) : Decidable (IsShort k) :=
  inferInstanceAs (Decidable ((Decimal.digits k.natAbs).length ≤ maxDigits))

/-- The text is a number with its sign, not too long to be read, and has a given value. -/
def IsNumberText (cs : List Char) (v : Json) : Prop :=
  ∃ (negative : Bool) (n : Number), cs = signText negative ++ n.text ∧ n.json negative = v ∧
    (n.isInteger = true → n.whole.length ≤ maxDigits)

theorem isNumberText_writeInt {k : Int} (hshort : IsShort k) :
    IsNumberText (writeInt k) (.int k) :=
  ⟨k < 0, .ofNat k.natAbs, Number.writeInt_eq k, Number.json_ofNat k, fun _ => hshort⟩

/-! ## Doubles -/

/-- The text is a number that is not an integer, and has a given value. -/
def WritesReal (cs : List Char) (q : ℚ) : Prop :=
  ∃ n : Number, n.text = cs ∧ n.isInteger = false ∧ n.decimal.value = q

end Json

namespace Decimal

open Json

variable {ds : List Char} {d : Decimal}

theorem head?_dropZeros (ds : List Char) : (dropZeros ds).head? = ds.head? := by
  cases ds <;> rfl

/-- Digits with a point among them have digits on both sides of it. -/
theorem exists_withPoint_eq (hds : ∀ c ∈ ds, c.isDigit = true) (hne : ds ≠ [])
    (hhead : ds.head? ≠ some '0') (point : Int) :
    ∃ ws fs, withPoint ds point = ws ++ '.' :: fs ∧ (∀ c ∈ ws, c.isDigit = true) ∧
      (∀ c ∈ fs, c.isDigit = true) ∧ ws ≠ [] ∧ fs ≠ [] ∧ (ws.head? = some '0' → ws = ['0']) := by
  simp only [withPoint]
  split_ifs with hpoint hlength
  · refine ⟨['0'], _, rfl, by simp, ?_, by simp, by simp [hne], fun _ => rfl⟩
    intro c hc
    exact (List.mem_append.1 hc).elim (isDigit_replicate c) (hds c)
  · refine ⟨ds ++ List.replicate (point.toNat - ds.length) '0', ['0'], rfl, ?_, by simp,
      by simp [hne], by simp, ?_⟩
    · intro c hc
      exact (List.mem_append.1 hc).elim (hds c) (isDigit_replicate c)
    · rw [List.head?_append_of_ne_nil _ hne]
      exact fun hzero => absurd hzero hhead
  · refine ⟨ds.take point.toNat, ds.drop point.toNat, rfl, ?_, ?_, ?_, ?_, ?_⟩
    · intro c hc
      exact hds c (List.mem_of_mem_take hc)
    · intro c hc
      exact hds c (List.mem_of_mem_drop hc)
    · simp only [ne_eq, List.take_eq_nil_iff, hne, or_false]
      omega
    · simp only [ne_eq, List.drop_eq_nil_iff]
      omega
    · rw [List.head?_take, if_neg (by omega)]
      exact fun hzero => absurd hzero hhead

theorem writesReal_withPoint (hds : ∀ c ∈ ds, c.isDigit = true) (hne : ds ≠ [])
    (hhead : ds.head? ≠ some '0') (point : Int) :
    WritesReal (withPoint ds point) (natOfDigits ds * 10 ^ (point - ds.length)) := by
  obtain ⟨-, d, hdecimal, hvalue⟩ := denotes_withPoint hds hne point
  obtain ⟨ws, fs, hshape, hws, hfs, hwsNe, hfsNe, hleading⟩ :=
    exists_withPoint_eq hds hne hhead point
  rw [hshape, decimal?_pointed hws hfs (by simp [hwsNe])] at hdecimal
  simp only [Option.some_inj, Prod.mk.injEq] at hdecimal
  refine ⟨⟨ws, fs, none, hws, hwsNe, hleading, hfs, nofun⟩, ?_, ?_, ?_⟩
  · simp [Number.text, Number.fractionText, Number.exponentText, hfsNe, hshape]
  · simp [Number.isInteger, hfsNe]
  · rw [← hvalue, value, value, ← hdecimal.1, ← hdecimal.2]
    simp [Number.decimal, Number.power]

/-- The digits of an exponent, filled up to two. -/
def exponentDigits (k : Nat) : List Char :=
  if (digits k).length < 2 then '0' :: digits k else digits k

theorem natOfDigits_exponentDigits (k : Nat) : natOfDigits (exponentDigits k) = k := by
  have hdigits : natOfDigits (digits k) = k := Nat.ofDigitChars_ten_toDigits
  unfold exponentDigits
  split_ifs
  · exact (natOfDigits_zeros_append 1 (digits k)).trans hdigits
  · exact hdigits

theorem isDigit_of_mem_exponentDigits {k : Nat} {c : Char} (h : c ∈ exponentDigits k) :
    c.isDigit = true := by
  unfold exponentDigits at h
  split_ifs at h
  · rcases List.mem_cons.1 h with rfl | h
    · rfl
    · exact isDigit_of_mem_digits h
  · exact isDigit_of_mem_digits h

theorem exponentDigits_ne_nil (k : Nat) : exponentDigits k ≠ [] := by
  unfold exponentDigits
  split_ifs
  · exact List.cons_ne_nil _ _
  · exact Nat.toDigits_ne_nil

theorem writesReal_withExponent (hds : ∀ c ∈ ds, c.isDigit = true) (hne : ds ≠ [])
    (exponent : Int) :
    WritesReal (withExponent ds exponent) (natOfDigits ds * 10 ^ (exponent + 1 - ds.length)) := by
  obtain ⟨c, fs, rfl⟩ := List.exists_cons_of_ne_nil hne
  refine ⟨⟨[c], fs, some (exponent < 0, exponentDigits exponent.natAbs), ?_, by simp, ?_, ?_, ?_⟩,
    ?_, ?_, ?_⟩
  · intro a ha
    rw [List.mem_singleton.1 ha]
    exact hds c List.mem_cons_self
  · intro hzero
    rw [List.head?_cons, Option.some_inj] at hzero
    rw [hzero]
  · intro a ha
    exact hds a (List.mem_cons_of_mem c ha)
  · rintro e he
    obtain rfl := Option.mem_some_iff.1 he
    exact ⟨exponentDigits_ne_nil _, fun a ha => isDigit_of_mem_exponentDigits ha⟩
  · cases fs <;>
      simp [Number.text, Number.fractionText, Number.exponentText, withExponent, exponentDigits]
  · simp [Number.isInteger]
  · have hpower : (if exponent < 0 then -(exponent.natAbs : Int) else exponent.natAbs) =
        exponent := by
      split_ifs <;> omega
    have hplaces : exponent + 1 - ((c :: fs).length : Int) = exponent - fs.length := by
      rw [List.length_cons]
      omega
    rw [value, hplaces]
    simp only [Number.decimal, Number.power, natOfDigits_exponentDigits, List.singleton_append,
      decide_eq_true_eq, hpower]

/-- A decimal laid out in either way is a number with the value of the decimal. -/
theorem writesReal_lay (l : Layout) (d : Decimal) : WritesReal (lay l d) d.value := by
  by_cases hzero : d.coefficient = 0
  · refine ⟨⟨['0'], ['0'], none, by simp, by simp, fun _ => rfl, by simp, nofun⟩, ?_, rfl, ?_⟩
    · simp only [lay, hzero, if_true]
      rfl
    · have hnone : natOfDigits ['0', '0'] = 0 := rfl
      simp [Number.decimal, value, hzero, hnone]
  · -- Digits before the point may not begin with a zero, and those of a positive number do not.
    have hhead : (dropZeros (digits d.coefficient)).head? ≠ some '0' := by
      intro hfirst
      rw [head?_dropZeros] at hfirst
      exact hzero (eq_zero_of_head?_digits hfirst)
    have hds : ∀ c ∈ dropZeros (digits d.coefficient), c.isDigit = true :=
      fun c hc => isDigit_of_mem_dropZeros hc
    have hne : dropZeros (digits d.coefficient) ≠ [] := dropZeros_ne_nil Nat.toDigits_ne_nil
    rw [value_eq_dropZeros]
    simp only [lay, hzero, if_false]
    split_ifs
    · exact writesReal_withPoint hds hne hhead d.point
    · have hreal := writesReal_withExponent hds hne (d.point - 1)
      rw [sub_add_cancel] at hreal
      exact hreal

end Decimal

namespace Json

open Binary64

/-- A finite double is written as a number that has it as its value, whatever its sign and its
    layout. -/
theorem isNumberText_of_finite {x : Binary64} {m s : Nat} (h : x.magnitude = .finite m s) :
    IsNumberText (x.text .json) (.float x) := by
  obtain ⟨n, htext, hreal, hvalue⟩ := Decimal.writesReal_lay .json (Decimal.shortest m s)
  refine ⟨x.isNegative, n, ?_, ?_, fun hinteger => ?_⟩
  · rw [Binary64.text, h, htext, signText]
    cases x.isNegative <;> rfl
  · have hword : nearestWord (n.decimal.value * unitsPerOne) = nearestWord (m <<< s : Nat) := by
      rw [hvalue, ← Decimal.toWord_eq, Decimal.toWord_shortest]
    rw [Number.json, hreal, if_neg (by decide), ofDecimal_eq, hword, ofSignWord_nearestWord h]
  · rw [hreal] at hinteger
    exact absurd hinteger (by decide)

end Json

end ArithJit
