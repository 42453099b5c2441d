import ArithJit.Json.Writer
import ArithJit.Location

/-!
# Diagnostics

A diagnostic says what was wrong in a form for machines: a kind, a message, the place if there
is one, and details. It has one text for people and one JSON form.
-/

namespace ArithJit

/-- The kinds of diagnostic. -/
inductive DiagnosticKind where
  | unexpectedCharacter
  | malformedNumber
  | unexpectedToken
  | unmatchedParen
  | emptyExpression
  | trailingInput
  | configError
  | internalError
  deriving DecidableEq, Repr

namespace DiagnosticKind

/-- Every kind. -/
def all : List DiagnosticKind :=
  [.unexpectedCharacter, .malformedNumber, .unexpectedToken, .unmatchedParen, .emptyExpression,
   .trailingInput, .configError, .internalError]

/-- The name of a kind. -/
def name : DiagnosticKind → String
  | .unexpectedCharacter => "unexpected_character"
  | .malformedNumber => "malformed_number"
  | .unexpectedToken => "unexpected_token"
  | .unmatchedParen => "unmatched_paren"
  | .emptyExpression => "empty_expression"
  | .trailingInput => "trailing_input"
  | .configError => "config_error"
  | .internalError => "internal_error"

/-- The kind of a name. -/
def ofName? (s : String) : Option DiagnosticKind := all.find? fun k => k.name = s

end DiagnosticKind

/-- What was wrong, where, and with what. -/
structure Diagnostic where
  kind : DiagnosticKind
  message : String
  place : Option Location
  details : Json.Members
  deriving DecidableEq, Repr

namespace Diagnostic

/-- A character that begins no token. -/
def unexpectedCharacter (character : String) (place : Location) : Diagnostic where
  kind := .unexpectedCharacter
  message := "Unexpected character " ++ Text.quoted character
  place := some place
  details := [("character", .str character), ("offset", .int place.offset)]

/-- A character that spoils a number. -/
def malformedNumber (lexeme character : String) (place : Location) : Diagnostic where
  kind := .malformedNumber
  message := "Unexpected " ++ Text.quoted character ++ " in numeric literal " ++ Text.quoted lexeme
  place := some place
  details :=
    [("character", .str character), ("lexeme", .str lexeme), ("offset", .int place.offset)]

/-- A token where another one had to stand. -/
def unexpectedToken (found expected : String) (place : Option Location) : Diagnostic where
  kind := .unexpectedToken
  message := "Expected " ++ expected ++ ", found " ++ found
  place := place
  details := [("found", .str found), ("expected", .str expected)]

/-- A parenthesis that is not closed before the end. -/
def unmatchedParen (opened : Location) (place : Option Location) : Diagnostic where
  kind := .unmatchedParen
  message := "Missing ')' to close '(' opened at " ++ opened.text
  place := place
  details := [("open_offset", .int opened.offset)]

/-- A text without an expression. -/
def emptyExpression (place : Option Location) : Diagnostic where
  kind := .emptyExpression
  message := "Expected an expression, found end of input"
  place := place
  details := []

/-- Something after an expression that is already complete. -/
def trailingInput (found : String) (place : Option Location) : Diagnostic where
  kind := .trailingInput
  message := "Unexpected " ++ found ++ " after complete expression"
  place := place
  details := [("found", .str found)]

/-- A failure of the back end, which has no place in the text. -/
def internalError (message : String) (details : Json.Members) : Diagnostic where
  kind := .internalError
  message := message
  place := none
  details := details

/-- A setting that is refused. -/
def configError (message key : String) : Diagnostic where
  kind := .configError
  message := message
  place := none
  details := [("key", .str key)]

/-- The JSON form of a place. -/
def placeJson (l : Location) : Json :=
  .obj [("offset", .int l.offset), ("line", .int l.line), ("column", .int l.column)]

/-- The JSON form: the place and the details are left out where there are none. -/
def toJson (d : Diagnostic) : Json :=
  let head : Json.Members := [("kind", .str d.kind.name), ("message", .str d.message)]
  let place : Json.Members := match d.place with
    | none => []
    | some l => [("location", placeJson l)]
  let details : Json.Members := if d.details.isEmpty then [] else [("details", .obj d.details)]
  .obj (head ++ place ++ details)

/-- The one-line text. -/
def text (d : Diagnostic) : String :=
  let place := match d.place with
    | none => ""
    | some l => " at " ++ l.text
  "[" ++ d.kind.name ++ "]" ++ place ++ ": " ++ d.message

end Diagnostic

end ArithJit
