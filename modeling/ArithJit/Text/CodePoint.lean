/-!
# Code points

A Unicode string is a sequence of code points. Most code points are characters; the others are
the surrogates, two of which stand for one character and one of which alone stands for none. A
JSON text can name a surrogate alone, so the strings that it holds are Unicode strings, while
every other text of the library is made of characters.
-/

namespace ArithJit

/-- A code point: a character, or the surrogate at an offset from the first one. -/
inductive CodePoint where
  | char (c : Char)
  | surrogate (offset : Fin 2048)
  deriving DecidableEq, Repr

namespace CodePoint

/-- The number of a code point. -/
def toNat : CodePoint → Nat
  | .char c => c.toNat
  | .surrogate offset => 0xd800 + offset.val

/-- The code point of a number. -/
def ofNat (n : Nat) : CodePoint :=
  if h : 0xd800 ≤ n ∧ n < 0xe000 then .surrogate ⟨n - 0xd800, by omega⟩ else .char (Char.ofNat n)

/-- The character that a code point is. -/
def char? : CodePoint → Option Char
  | .char c => some c
  | .surrogate _ => none

/-- A code point is the one of its number. -/
theorem ofNat_toNat (p : CodePoint) : ofNat p.toNat = p := by
  cases p with
  | char c =>
      have hv : ¬ (0xd800 ≤ c.toNat ∧ c.toNat < 0xe000) := by
        have h := c.valid
        simp only [UInt32.isValidChar, Nat.isValidChar] at h
        change ¬ (0xd800 ≤ c.val.toNat ∧ c.val.toNat < 0xe000)
        omega
      simp [toNat, ofNat, hv]
  | surrogate offset =>
      have h : 0xd800 + offset.val < 0xe000 := by omega
      simp [toNat, ofNat, h]

end CodePoint

/-- A sequence of code points. -/
structure UnicodeString where
  points : List CodePoint
  deriving DecidableEq, Repr

namespace UnicodeString

/-- A text as a Unicode string. -/
def ofString (s : String) : UnicodeString := ⟨s.toList.map .char⟩

instance : Coe String UnicodeString := ⟨ofString⟩

/-- The text of a Unicode string, if it holds no surrogate. -/
def toString? (s : UnicodeString) : Option String :=
  (s.points.mapM CodePoint.char?).map String.ofList

instance : Append UnicodeString := ⟨fun s t => ⟨s.points ++ t.points⟩⟩

/-- Strings one after the other, with a separator between them. -/
def intercalate (separator : UnicodeString) (parts : List UnicodeString) : UnicodeString :=
  ⟨separator.points.intercalate (parts.map points)⟩

/-- Whether one list of code points stands before another or is the same, by the numbers of the
    code points at the first place where they differ. -/
def pointsLE : List CodePoint → List CodePoint → Bool
  | [], _ => true
  | _ :: _, [] => false
  | p :: ps, q :: qs =>
      if p = q then pointsLE ps qs else p.toNat < q.toNat

/-- Whether one string stands before another or is the same, in the order of code points. -/
def le (s t : UnicodeString) : Bool := pointsLE s.points t.points

/-- A text comes back from its Unicode string. -/
theorem toString?_ofString (s : String) : (ofString s).toString? = some s := by
  have h : ∀ cs : List Char, (cs.map CodePoint.char).mapM CodePoint.char? = some cs := by
    intro cs
    induction cs with
    | nil => rfl
    | cons c cs ih => simp [CodePoint.char?, ih]
  simp [toString?, ofString, h]

end UnicodeString

end ArithJit
