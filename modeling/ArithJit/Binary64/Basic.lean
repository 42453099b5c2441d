/-!
# Binary64 values

A double is its 64-bit word. Every finite double is a whole number of the least positive one,
so its magnitude is a significand and a shift, and all later arithmetic is arithmetic of natural
numbers. No operation of the machine's own floating point is used: the rules stand in the
definitions.
-/

namespace ArithJit

/-- A double, held as its word: one sign bit, eleven exponent bits, fifty-two fraction bits. -/
structure Binary64 where
  bits : UInt64
  deriving DecidableEq, Repr

/-- What a word says apart from its sign. A finite magnitude is the significand, shifted to the
    left, times the least positive double. -/
inductive Magnitude where
  | nan
  | infinite
  | finite (significand shift : Nat)
  deriving DecidableEq, Repr

namespace Binary64

/-- The sign bit of a word. -/
def signBit : Nat := 0x8000000000000000

/-- The bit above the fraction, which normal numbers have without writing it. -/
def hiddenBit : Nat := 0x10000000000000

/-- The word of infinity without its sign. -/
def infinityWord : Nat := 0x7ff0000000000000

/-- The word of the quiet NaN without its sign. -/
def nanWord : Nat := 0x7ff8000000000000

/-- How many of the least positive double make one. -/
def unitsPerOne : Nat := Nat.pow 2 1074

/-- The word as a natural number. -/
def word (x : Binary64) : Nat := x.bits.toNat

/-- Whether the sign bit is set. -/
def isNegative (x : Binary64) : Bool := signBit ≤ x.word

/-- The eleven exponent bits. -/
def exponentField (x : Binary64) : Nat := x.word / hiddenBit % 2048

/-- The fifty-two fraction bits. -/
def fractionField (x : Binary64) : Nat := x.word % hiddenBit

/-- The magnitude of a word: the all-ones exponent holds the infinity and the NaNs, the zero
    exponent the subnormals, and every other exponent adds the hidden bit. -/
def magnitude (x : Binary64) : Magnitude :=
  if x.exponentField = 2047 then
    if x.fractionField = 0 then .infinite else .nan
  else if x.exponentField = 0 then .finite x.fractionField 0
  else .finite (hiddenBit + x.fractionField) (x.exponentField - 1)

/-- Whether the word is one of the NaNs. -/
def isNaN (x : Binary64) : Bool := x.magnitude = .nan

/-- The double with a given sign and the low bits of a given word. -/
def ofSignWord (negative : Bool) (w : Nat) : Binary64 :=
  ⟨UInt64.ofNat ((if negative then signBit else 0) + w)⟩

/-- Zero with a sign. -/
def zero (negative : Bool) : Binary64 := ofSignWord negative 0

/-- Infinity with a sign. -/
def infinity (negative : Bool) : Binary64 := ofSignWord negative infinityWord

/-- The quiet NaN with a sign. -/
def nan (negative : Bool) : Binary64 := ofSignWord negative nanWord

/-- A number of units with a sign. -/
def signed (negative : Bool) (units : Nat) : Int := if negative then -(units : Int) else units

/-- The value of a finite double in units of the least positive one; zero for the others. -/
def units (x : Binary64) : Int :=
  match x.magnitude with
  | .finite m s => signed x.isNegative (m <<< s)
  | _ => 0

/-- A finite double without a fractional part, as the integer that it is. -/
def toInt? (x : Binary64) : Option Int :=
  match x.magnitude with
  | .finite m s =>
      if m <<< s % unitsPerOne = 0 then some (signed x.isNegative (m <<< s / unitsPerOne)) else none
  | _ => none

end Binary64

end ArithJit
