/-!
# Locations in a text

A location counts code points from the start of the text and says which line and column they
lead to. Only a line feed starts a new line.
-/

namespace ArithJit

/-- A place in a text: the code points before it, its line and its column, both from one. -/
structure Location where
  offset : Int
  line : Int
  column : Int
  deriving DecidableEq, Repr

namespace Location

/-- The start of a text. -/
def start : Location := ⟨0, 1, 1⟩

/-- The place after one more character. -/
def advance (l : Location) (c : Char) : Location :=
  if c = '\n' then ⟨l.offset + 1, l.line + 1, 1⟩ else ⟨l.offset + 1, l.line, l.column + 1⟩

/-- The place after more characters. -/
def after (l : Location) (cs : List Char) : Location := cs.foldl advance l

/-- A place as messages show it. -/
def text (l : Location) : String := s!"{l.line}:{l.column} (offset {l.offset})"

@[simp] theorem after_nil (l : Location) : l.after [] = l := rfl

@[simp] theorem after_cons (l : Location) (c : Char) (cs : List Char) :
    l.after (c :: cs) = (l.advance c).after cs := rfl

@[simp] theorem after_append (l : Location) (cs ds : List Char) :
    l.after (cs ++ ds) = (l.after cs).after ds := by
  simp [after]

end Location

end ArithJit
