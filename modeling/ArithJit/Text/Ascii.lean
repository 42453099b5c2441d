import ArithJit.Text.Quoted

/-!
# ASCII

Compiled code is looked up by a name in ASCII. Of a name with other characters the first of them
are reported, up to the next ASCII character.
-/

namespace ArithJit.Text

/-- Whether a character is in ASCII. -/
def isAscii (c : Char) : Bool := c.toNat < 0x80

/-- The first run of characters outside ASCII, with its place. -/
structure AsciiError where
  position : Nat
  spoiled : List Char
  deriving DecidableEq, Repr

/-- What keeps a text from being ASCII. -/
def asciiError? (s : String) : Option AsciiError :=
  let rest := s.toList.dropWhile isAscii
  if rest.isEmpty then none
  else some ⟨(s.toList.takeWhile isAscii).length, rest.takeWhile fun c => !isAscii c⟩

/-- A text is ASCII if nothing keeps it from being so. -/
theorem asciiError?_eq_none_iff {s : String} :
    asciiError? s = none ↔ ∀ c ∈ s.toList, isAscii c = true := by
  have h : ∀ cs : List Char, cs.dropWhile isAscii = [] ↔ ∀ c ∈ cs, isAscii c = true := by
    intro cs
    induction cs with
    | nil => simp
    | cons c cs ih => cases hc : isAscii c <;> simp [List.dropWhile, hc, ih]
  simp only [asciiError?]
  split <;> simp_all

/-- The text of the characters that are reported. -/
def AsciiError.spoiledText (e : AsciiError) : String :=
  match e.spoiled with
  | [c] => s!"character '{String.ofList (escape c.toNat)}' in position {e.position}"
  | cs => s!"characters in position {e.position}-{e.position + cs.length - 1}"

/-- The wording of the report. -/
def AsciiError.message (e : AsciiError) : String :=
  "'ascii' codec can't encode " ++ e.spoiledText ++ ": ordinal not in range(128)"

end ArithJit.Text
