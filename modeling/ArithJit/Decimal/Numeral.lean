import ArithJit.Text.Digit
import ArithJit.Binary64.Arithmetic

/-!
# Numerals

Reading a text as a double: blanks around it, a sign, and then a word for infinity or NaN in
any case, or decimal digits with at most one point and an optional exponent. An underscore may
stand between two digits. The value is correctly rounded, however many digits are written.
-/

namespace ArithJit.Numeral

/-- A character as its ASCII equivalent: blanks and decimal digits of any script have one,
    and of the others only ASCII characters do. -/
def asciiChar? (c : Char) : Option Char :=
  if c.toNat < 0x80 then some c
  else if Text.isWideBlank c then some ' '
  else (Text.wideDigitValue? c).map Nat.digitChar

/-- The characters without the blanks at either end. -/
def strip (cs : List Char) : List Char :=
  ((cs.dropWhile Text.isBlank).reverse.dropWhile Text.isBlank).reverse

/-- The characters without underscores, each of which must stand between two digits;
    `previous` is the character before. -/
def dropUnderscores? : (previous : Option Char) → List Char → Option (List Char)
  | previous, [] => if previous = some '_' then none else some []
  | previous, c :: cs =>
      if c = '_' then
        if previous.any Char.isDigit then dropUnderscores? (some c) cs else none
      else if previous = some '_' && !Char.isDigit c then none
      else (dropUnderscores? (some c) cs).map (c :: ·)

/-- The number that decimal digits write. -/
def natOfDigits (ds : List Char) : Nat := Nat.ofDigitChars 10 ds 0

/-- Splits a sign off; no sign is positive. -/
def splitSign : List Char → Bool × List Char
  | '-' :: cs => (true, cs)
  | '+' :: cs => (false, cs)
  | cs => (false, cs)

/-- The exponent part, which is empty or a mark, a sign and digits, and nothing else. -/
def exponent? : List Char → Option Int
  | [] => some 0
  | c :: cs =>
      let (negative, ds) := splitSign cs
      if (c = 'e' || c = 'E') && !ds.isEmpty && ds.all Char.isDigit then
        some (if negative then -(natOfDigits ds : Int) else natOfDigits ds)
      else none

/-- An unsigned decimal as a coefficient and an exponent. -/
def decimal? (cs : List Char) : Option (Nat × Int) :=
  let whole := cs.takeWhile Char.isDigit
  let rest := cs.dropWhile Char.isDigit
  let (fraction, rest) := match rest with
    | '.' :: more => (more.takeWhile Char.isDigit, more.dropWhile Char.isDigit)
    | _ => ([], rest)
  if whole.isEmpty && fraction.isEmpty then none
  else (exponent? rest).map fun e => (natOfDigits (whole ++ fraction), e - fraction.length)

/-- An unsigned numeral: a word for infinity or NaN, or a decimal. -/
def unsigned? (negative : Bool) (cs : List Char) : Option Binary64 :=
  let word := String.ofList (cs.map Char.toLower)
  if word = "inf" || word = "infinity" then some (.infinity negative)
  else if word = "nan" then some (.nan negative)
  else (decimal? cs).map fun (coefficient, exponent) =>
    .ofDecimal negative coefficient exponent

/-- Reads a text as a double, if it is a numeral. -/
def read? (s : String) : Option Binary64 := do
  let ascii ← s.toList.mapM asciiChar?
  let plain ← dropUnderscores? none (strip ascii)
  let (negative, cs) := splitSign plain
  unsigned? negative cs

end ArithJit.Numeral
