import ArithJit.Json.Basic
import ArithJit.Decimal.Layout
import ArithJit.Text.Quoted

/-!
# Writing JSON

JSON texts are ASCII: every other character is escaped, beyond the basic plane as a pair of
surrogates, and so is a surrogate alone. Without an indentation the text is one line; with one,
every item and member has a line of its own, and empty arrays and objects stay closed.
-/

namespace ArithJit.Json

/-- A sixteen-bit unit as an escape. -/
def unitEscape (unit : Nat) : List Char := '\\' :: 'u' :: Text.hex 4 unit

/-- How a character stands in a JSON string. -/
def escapedChar (c : Char) : List Char :=
  if c = '"' then ['\\', '"']
  else if c = '\\' then ['\\', '\\']
  else if c = '\n' then ['\\', 'n']
  else if c = '\r' then ['\\', 'r']
  else if c = '\t' then ['\\', 't']
  else if c = '\x08' then ['\\', 'b']
  else if c = '\x0c' then ['\\', 'f']
  else if 0x20 ≤ c.toNat && c.toNat < 0x7f then [c]
  else if c.toNat < 0x10000 then unitEscape c.toNat
  else
    let offset := c.toNat - 0x10000
    unitEscape (0xd800 + offset / 0x400) ++ unitEscape (0xdc00 + offset % 0x400)

/-- How a code point stands in a JSON string. -/
def escapedPoint : CodePoint → List Char
  | .char c => escapedChar c
  | .surrogate offset => unitEscape (CodePoint.surrogate offset).toNat

/-- A JSON string. -/
def writeString (s : UnicodeString) : List Char :=
  '"' :: s.points.flatMap escapedPoint ++ ['"']

/-- An integer in full. -/
def writeInt (n : Int) : List Char :=
  if n < 0 then '-' :: Decimal.digits n.natAbs else Decimal.digits n.natAbs

/-- What separates the parts of a container at a given depth: nothing without an indentation,
    and otherwise a new line and so many indentations. -/
def lineStart (indent : Option Nat) (depth : Nat) : List Char :=
  match indent with
  | none => []
  | some width => '\n' :: List.replicate (width * depth) ' '

/-- What follows a part of a container that is not its last. -/
def separator (indent : Option Nat) (depth : Nat) : List Char :=
  match indent with
  | none => [',', ' ']
  | some _ => ',' :: lineStart indent depth

mutual

/-- The text of a value at a given depth. -/
def write (indent : Option Nat) (depth : Nat) : Json → List Char
  | .null => "null".toList
  | .bool true => "true".toList
  | .bool false => "false".toList
  | .int n => writeInt n
  | .float x => x.text .json
  | .str s => writeString s
  | .arr [] => ['[', ']']
  | .arr (v :: vs) =>
      '[' :: lineStart indent (depth + 1) ++ write indent (depth + 1) v ++
        writeItems indent (depth + 1) vs ++ lineStart indent depth ++ [']']
  | .obj [] => ['{', '}']
  | .obj ((k, v) :: ms) =>
      '{' :: lineStart indent (depth + 1) ++ writeString k ++ ':' :: ' ' ::
        write indent (depth + 1) v ++ writeMembers indent (depth + 1) ms ++
        lineStart indent depth ++ ['}']

/-- The items of an array after its first. -/
def writeItems (indent : Option Nat) (depth : Nat) : List Json → List Char
  | [] => []
  | v :: vs => separator indent depth ++ write indent depth v ++ writeItems indent depth vs

/-- The members of an object after its first. -/
def writeMembers (indent : Option Nat) (depth : Nat) : Members → List Char
  | [] => []
  | (k, v) :: ms =>
      separator indent depth ++ writeString k ++ ':' :: ' ' :: write indent depth v ++
        writeMembers indent depth ms

end

/-- The text of a value. A negative indentation is none at all on lines of their own. -/
def text (indent : Option Int) (v : Json) : String :=
  String.ofList (write (indent.map Int.toNat) 0 v)

end ArithJit.Json
