import ArithJit.Location
import ArithJit.Decimal.Numeral
import ArithJit.Text.Quoted

/-!
# Tokens

The words of an arithmetic expression: numbers, the four operators, the two parentheses, and a
mark for the end of the text. A token keeps its lexeme and its place.
-/

namespace ArithJit

/-- The kinds of token. -/
inductive TokenKind where
  | number
  | plus
  | minus
  | star
  | slash
  | openParen
  | closeParen
  | endMark
  deriving DecidableEq, Repr

namespace TokenKind

/-- Every kind. -/
def all : List TokenKind :=
  [.number, .plus, .minus, .star, .slash, .openParen, .closeParen, .endMark]

/-- The name of a kind. -/
def name : TokenKind → String
  | .number => "NUMBER"
  | .plus => "PLUS"
  | .minus => "MINUS"
  | .star => "STAR"
  | .slash => "SLASH"
  | .openParen => "LPAREN"
  | .closeParen => "RPAREN"
  | .endMark => "EOF"

/-- The kind of a name. -/
def ofName? (s : String) : Option TokenKind := all.find? fun k => k.name = s

/-- The kind of a token that is one character. -/
def ofChar? (c : Char) : Option TokenKind :=
  if c = '+' then some .plus
  else if c = '-' then some .minus
  else if c = '*' then some .star
  else if c = '/' then some .slash
  else if c = '(' then some .openParen
  else if c = ')' then some .closeParen
  else none

end TokenKind

/-- A word of an expression. -/
structure Token where
  kind : TokenKind
  lexeme : String
  place : Location
  deriving DecidableEq, Repr

/-- Why a token has no numeric value. -/
inductive NumeralError where
  | notNumber (description : String)
  | unreadable (lexeme : String)
  deriving DecidableEq, Repr

/-- The wording of the reason. -/
def NumeralError.message : NumeralError → String
  | .notNumber description => description ++ " is not a number"
  | .unreadable lexeme => "could not convert string to float: " ++ Text.quoted lexeme

namespace Token

/-- The name of a token in messages. -/
def describe (t : Token) : String :=
  match t.kind with
  | .number => "number " ++ t.lexeme
  | .endMark => "end of input"
  | _ => "'" ++ t.lexeme ++ "'"

/-- A token with its kind, lexeme and place. -/
def text (t : Token) : String :=
  s!"Token({t.kind.name}, {Text.quoted t.lexeme}, {t.place.text})"

/-- The value of a number. -/
def number (t : Token) : Except NumeralError Binary64 :=
  if t.kind = .number then
    match Numeral.read? t.lexeme with
    | some x => .ok x
    | none => .error (.unreadable t.lexeme)
  else .error (.notNumber t.describe)

end Token

end ArithJit
