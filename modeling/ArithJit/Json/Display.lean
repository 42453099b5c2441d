import ArithJit.Json.Basic
import ArithJit.Decimal.Layout
import ArithJit.Text.Quoted

/-!
# Showing JSON values in messages

A message names a value that it refuses on one line: texts are quoted, and the words for the
constants begin with a capital letter.
-/

namespace ArithJit.Json

mutual

/-- A value as messages show it. -/
def display : Json → String
  | .null => "None"
  | .bool true => "True"
  | .bool false => "False"
  | .int n => toString n
  | .float x => x.message
  | .str s => Text.quoted s
  | .arr vs => "[" ++ ", ".intercalate (displayItems vs) ++ "]"
  | .obj ms => "\x7b" ++ ", ".intercalate (displayMembers ms) ++ "\x7d"

/-- The items of an array, each as messages show it. -/
def displayItems : List Json → List String
  | [] => []
  | v :: vs => display v :: displayItems vs

/-- The members of an object, each as messages show it. -/
def displayMembers : Members → List String
  | [] => []
  | (k, v) :: ms => (Text.quoted k ++ ": " ++ display v) :: displayMembers ms

end

end ArithJit.Json
