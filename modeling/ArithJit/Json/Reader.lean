import ArithJit.Json.Basic
import ArithJit.Decimal.Numeral
import ArithJit.Text.Quoted

/-!
# Reading JSON

Reading goes from left to right and stops at the first fault, which is reported with its place.
Beside the standard grammar the words `NaN`, `Infinity` and `-Infinity` are numbers. A number
with a fraction or an exponent is a double, any other an integer. Of two members with one key
the place of the first and the value of the last count.

The functions that descend into a value take a bound on the characters that are left and spend
at least one of them on each step, so at a bound of zero the text is at its end, and they answer
what the end of the text asks for.
-/

namespace ArithJit.Json

/-- What is wrong with a JSON text at some place. -/
inductive Fault where
  | value
  | propertyName
  | colon
  | comma
  | extraData
  | unterminated
  | control
  | escape
  | unicodeEscape
  | byteOrderMark
  deriving DecidableEq, Repr

/-- The wording of a fault. -/
def Fault.message : Fault → String
  | .value => "Expecting value"
  | .propertyName => "Expecting property name enclosed in double quotes"
  | .colon => "Expecting ':' delimiter"
  | .comma => "Expecting ',' delimiter"
  | .extraData => "Extra data"
  | .unterminated => "Unterminated string starting at"
  | .control => "Invalid control character at"
  | .escape => "Invalid \\escape"
  | .unicodeEscape => "Invalid \\uXXXX escape"
  | .byteOrderMark => "Unexpected UTF-8 BOM (decode using utf-8-sig)"

/-- Why a text is not read: a fault at a position, or an integer with too many digits. -/
inductive ReadError where
  | malformed (fault : Fault) (position : Nat)
  | longInteger (digits : Nat)
  deriving DecidableEq, Repr

/-- What is left to read, and how many characters were read before it. -/
structure Input where
  position : Nat
  rest : List Char

/-- Passes over some characters. -/
def Input.advance (i : Input) (count : Nat) : Input :=
  ⟨i.position + count, i.rest.drop count⟩

/-- The four blanks of JSON. -/
def isSpace (c : Char) : Bool := c = ' ' || c = '\t' || c = '\n' || c = '\r'

/-- Passes over blanks. -/
def Input.skipSpaces (i : Input) : Input := i.advance (i.rest.takeWhile isSpace).length

/-- A fault where the reader stands. -/
def Input.fault {α : Type} (i : Input) (f : Fault) : Except ReadError α :=
  .error (.malformed f i.position)

/-- The character that a one-letter escape stands for. -/
def shortEscape? (c : Char) : Option Char :=
  if c = '"' || c = '\\' || c = '/' then some c
  else if c = 'b' then some '\x08'
  else if c = 'f' then some '\x0c'
  else if c = 'n' then some '\n'
  else if c = 'r' then some '\r'
  else if c = 't' then some '\t'
  else none

/-- The value of four hexadecimal digits. -/
def unit? (a b c d : Char) : Option Nat := do
  let a ← Text.hexValue? a
  let b ← Text.hexValue? b
  let c ← Text.hexValue? c
  let d ← Text.hexValue? d
  return ((a * 16 + b) * 16 + c) * 16 + d

/-- Whether a unit is the first half of a surrogate pair. -/
def isHighUnit (u : Nat) : Bool := 0xd800 ≤ u && u < 0xdc00

/-- Whether a unit is the second half of a surrogate pair. -/
def isLowUnit (u : Nat) : Bool := 0xdc00 ≤ u && u < 0xe000

/-- The character of a surrogate pair. -/
def pairChar (high low : Nat) : Char :=
  Char.ofNat (0x10000 + (high - 0xd800) * 0x400 + (low - 0xdc00))

/-- The code points of a list of code points and sixteen-bit units: the two halves of a pair that
    stand side by side are one character. -/
def joinUnits : List Nat → List CodePoint
  | [] => []
  | [u] => [.ofNat u]
  | u :: v :: rest =>
      if isHighUnit u && isLowUnit v then .char (pairChar u v) :: joinUnits rest
      else .ofNat u :: joinUnits (v :: rest)

/-- Reads a string after its opening quote, which stood at `start`; `acc` holds the code points
    and units so far in reverse. An escape by four digits must not be the last thing in the
    text. -/
def readString (start : Nat) (position : Nat) (acc : List Nat) :
    List Char → Except ReadError (UnicodeString × Input)
  | [] => .error (.malformed .unterminated start)
  | '"' :: rest => .ok (⟨joinUnits acc.reverse⟩, ⟨position + 1, rest⟩)
  | '\\' :: [] => .error (.malformed .unterminated start)
  | '\\' :: 'u' :: a :: b :: c :: d :: rest =>
      match if rest.isEmpty then none else unit? a b c d with
      | none => .error (.malformed .unicodeEscape (position + 1))
      | some u => readString start (position + 6) (u :: acc) rest
  | '\\' :: 'u' :: _ => .error (.malformed .unicodeEscape (position + 1))
  | '\\' :: c :: rest =>
      match shortEscape? c with
      | none => .error (.malformed .escape position)
      | some e => readString start (position + 2) (e.toNat :: acc) rest
  | c :: rest =>
      if c.toNat < 0x20 then .error (.malformed .control position)
      else readString start (position + 1) (c.toNat :: acc) rest

/-- The words that are values. -/
def words : List (String × Json) :=
  [("null", .null), ("true", .bool true), ("false", .bool false),
   ("NaN", .float (.nan false)), ("Infinity", .float (.infinity false)),
   ("-Infinity", .float (.infinity true))]

/-- The longest integer that is read. -/
def maxDigits : Nat := 4300

/-- The digits before the point, which are one zero if they begin with a zero. -/
def wholeDigits (cs : List Char) : List Char :=
  if cs.head? = some '0' then ['0'] else cs.takeWhile Char.isDigit

/-- The digits behind a point, if a point is next. -/
def fractionDigits : List Char → List Char
  | '.' :: more => more.takeWhile Char.isDigit
  | _ => []

/-- The exponent that is next, if there is one, and the length of what writes it. -/
def exponentPart? : List Char → Option (Int × Nat)
  | c :: more =>
      let (down, ds) := Numeral.splitSign more
      let places := ds.takeWhile Char.isDigit
      if (c = 'e' || c = 'E') && !places.isEmpty then
        let e : Int := Numeral.natOfDigits places
        some (if down then -e else e, 1 + (more.length - ds.length) + places.length)
      else none
  | [] => none

/-- Reads a number, which begins where the reader stands. A point without a digit after it and
    an exponent mark without digits do not belong to the number. -/
def readNumber (i : Input) : Except ReadError (Json × Input) :=
  let negative := i.rest.head? = some '-'
  let unsigned := if negative then i.rest.drop 1 else i.rest
  let whole := wholeDigits unsigned
  if whole.isEmpty then i.fault .value
  else
    let afterWhole := unsigned.drop whole.length
    let fraction := fractionDigits afterWhole
    let pointed := if fraction.isEmpty then 0 else fraction.length + 1
    let exponent := exponentPart? (afterWhole.drop pointed)
    let length := (if negative then 1 else 0) + whole.length + pointed +
      (exponent.map Prod.snd).getD 0
    if fraction.isEmpty && exponent.isNone then
      if maxDigits < whole.length then .error (.longInteger whole.length)
      else
        let n : Int := Numeral.natOfDigits whole
        .ok (.int (if negative then -n else n), i.advance length)
    else
      let e := (exponent.map Prod.fst).getD 0 - fraction.length
      .ok (.float (.ofDecimal negative (Numeral.natOfDigits (whole ++ fraction)) e),
        i.advance length)

/-- Reads a word or a number. -/
def readScalar (i : Input) : Except ReadError (Json × Input) :=
  match words.find? fun w => w.1.toList.isPrefixOf i.rest with
  | some (w, v) => .ok (v, i.advance w.length)
  | none => readNumber i

mutual

/-- Reads a value, with at most `bound` characters left. -/
def readValue : (bound : Nat) → Input → Except ReadError (Json × Input)
  | 0, i => i.fault .value
  | bound + 1, i =>
      match i.rest with
      | [] => i.fault .value
      | '"' :: rest => do
          let (s, i) ← readString i.position (i.position + 1) [] rest
          return (.str s, i)
      | '[' :: _ =>
          let i := (i.advance 1).skipSpaces
          if i.rest.head? = some ']' then .ok (.arr [], i.advance 1)
          else do
            let (v, i) ← readValue bound i
            readItems bound [v] i
      | '{' :: _ =>
          let i := (i.advance 1).skipSpaces
          if i.rest.head? = some '}' then .ok (.obj [], i.advance 1)
          else readMembers bound [] i
      | _ => readScalar i

/-- Reads what follows an item of an array; `acc` holds the items so far in reverse. -/
def readItems : (bound : Nat) → List Json → Input → Except ReadError (Json × Input)
  | 0, _, i => i.fault .comma
  | bound + 1, acc, i =>
      let i := i.skipSpaces
      if i.rest.head? = some ']' then .ok (.arr acc.reverse, i.advance 1)
      else if i.rest.head? = some ',' then do
        let (v, i) ← readValue bound (i.advance 1).skipSpaces
        readItems bound (v :: acc) i
      else i.fault .comma

/-- Reads the members of an object from a key on; `acc` holds the members so far. -/
def readMembers : (bound : Nat) → Members → Input → Except ReadError (Json × Input)
  | 0, _, i => i.fault .propertyName
  | bound + 1, acc, i =>
      match i.rest with
      | '"' :: rest => do
          let (key, i) ← readString i.position (i.position + 1) [] rest
          let i := i.skipSpaces
          if i.rest.head? = some ':' then do
            let (v, i) ← readValue bound (i.advance 1).skipSpaces
            let i := i.skipSpaces
            let acc := setMember key v acc
            if i.rest.head? = some '}' then return (.obj acc, i.advance 1)
            else if i.rest.head? = some ',' then readMembers bound acc (i.advance 1).skipSpaces
            else i.fault .comma
          else i.fault .colon
      | _ => i.fault .propertyName

end

/-- Reads a whole text, which holds one value and blanks around it. -/
def read (text : List Char) : Except ReadError Json :=
  if text.head? = some '\ufeff' then .error (.malformed .byteOrderMark 0)
  else do
    let (v, i) ← readValue text.length (Input.skipSpaces ⟨0, text⟩)
    let i := i.skipSpaces
    if i.rest.isEmpty then return v else i.fault .extraData

end ArithJit.Json
