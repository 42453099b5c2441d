import ArithJit.Text.CodePoint
import ArithJit.Text.Printable

/-!
# Quoted text

Messages show text between quotes, on one line and without characters that cannot be seen.
The single quote is used unless the text holds one and no double quote. The backslash, the
quote in use, every unprintable character and every surrogate are written as escapes.
-/

namespace ArithJit.Text

/-- The lower-case hexadecimal digit of a value below sixteen. -/
def hexDigit (d : Nat) : Char :=
  if d < 10 then Char.ofNat (0x30 + d) else Char.ofNat (0x57 + d)

/-- The last `width` hexadecimal digits of a number. -/
def hex : (width : Nat) → Nat → List Char
  | 0, _ => []
  | width + 1, n => hex width (n / 16) ++ [hexDigit (n % 16)]

/-- The value of a hexadecimal digit in either case. -/
def hexValue? (c : Char) : Option Nat :=
  if '0' ≤ c && c ≤ '9' then some (c.toNat - 0x30)
  else if 'a' ≤ c && c ≤ 'f' then some (c.toNat - 0x57)
  else if 'A' ≤ c && c ≤ 'F' then some (c.toNat - 0x37)
  else none

/-- The shortest of the two-, four- and eight-digit escapes that holds a code point. -/
def escape (n : Nat) : List Char :=
  if n < 0x100 then '\\' :: 'x' :: hex 2 n
  else if n < 0x10000 then '\\' :: 'u' :: hex 4 n
  else '\\' :: 'U' :: hex 8 n

/-- The quote that surrounds a text. -/
def quoteMark (ps : List CodePoint) : Char :=
  if ps.contains (.char '\'') && !ps.contains (.char '"') then '"' else '\''

/-- How one character stands between the given quotes. -/
def quotedChar (mark c : Char) : List Char :=
  if c = mark || c = '\\' then ['\\', c]
  else if c = '\n' then ['\\', 'n']
  else if c = '\r' then ['\\', 'r']
  else if c = '\t' then ['\\', 't']
  else if isPrintable c then [c]
  else escape c.toNat

/-- How one code point stands between the given quotes. -/
def quotedPoint (mark : Char) : CodePoint → List Char
  | .char c => quotedChar mark c
  | .surrogate offset => escape (CodePoint.surrogate offset).toNat

/-- A text between quotes. -/
def quoted (s : UnicodeString) : String :=
  let mark := quoteMark s.points
  String.ofList (mark :: s.points.flatMap (quotedPoint mark) ++ [mark])

end ArithJit.Text
