import ArithJit.Binary64.Basic

/-!
# Rounding and arithmetic of binary64

Each operation is the exact result, rounded once to the nearest double, ties to the even
significand. The exact result is a fraction of natural numbers counted in units of the least
positive double, so one function `round` serves sums, products, quotients and decimal numerals.
-/

namespace ArithJit.Binary64

/-- The quotient rounded to the nearest integer, a half to the even neighbour. -/
def roundDiv (num den : Nat) : Nat :=
  let k := num / den
  let twice := 2 * (num % den)
  if twice < den then k
  else if den < twice then k + 1
  else k + k % 2

/-- The word, without sign, nearest to `num / den` units. The shift keeps fifty-three bits of
    the quotient, or fewer below the normal range; a significand that rounds up past them
    carries into the exponent field by itself, and what passes the largest double is infinity. -/
def roundWord (num den : Nat) : Nat :=
  let shift := Nat.log2 (num / den) - 52
  let w := shift * hiddenBit + roundDiv num (den <<< shift)
  if w < infinityWord then w else infinityWord

/-- The double with a given sign nearest to `num / den` units. -/
def round (negative : Bool) (num den : Nat) : Binary64 :=
  ofSignWord negative (roundWord num den)

/-- The double nearest to an integer number of units; `zeroSign` is the sign of an exact zero. -/
def ofUnits (zeroSign : Bool) (n : Int) : Binary64 :=
  if n = 0 then zero zeroSign else round (n < 0) n.natAbs 1

/-- The opposite: the sign bit is flipped, also of a NaN. -/
def neg (x : Binary64) : Binary64 := ⟨x.bits ^^^ 0x8000000000000000⟩

/-- The sum. Infinities of opposite sign have none; an exact zero is negative only if both
    operands are. -/
def add (x y : Binary64) : Binary64 :=
  match x.magnitude, y.magnitude with
  | .nan, _ | _, .nan => nan false
  | .infinite, .infinite => if x.isNegative = y.isNegative then x else nan false
  | .infinite, _ => x
  | _, .infinite => y
  | .finite _ _, .finite _ _ => ofUnits (x.isNegative && y.isNegative) (x.units + y.units)

/-- The difference: the sum with the opposite. -/
def sub (x y : Binary64) : Binary64 := add x (neg y)

/-- The product. Infinity times zero has none; the sign is that of the factors also for zero. -/
def mul (x y : Binary64) : Binary64 :=
  let negative := x.isNegative != y.isNegative
  match x.magnitude, y.magnitude with
  | .nan, _ | _, .nan => nan false
  | .infinite, .infinite => infinity negative
  | .infinite, .finite m _ | .finite m _, .infinite =>
      if m = 0 then nan false else infinity negative
  | .finite m s, .finite n t => round negative (m <<< s * n <<< t) unitsPerOne

/-- The quotient. Zero by zero and infinity by infinity have none; any other number by zero
    is infinite. -/
def div (x y : Binary64) : Binary64 :=
  let negative := x.isNegative != y.isNegative
  match x.magnitude, y.magnitude with
  | .nan, _ | _, .nan => nan false
  | .infinite, .infinite => nan false
  | .infinite, .finite _ _ => infinity negative
  | .finite _ _, .infinite => zero negative
  | .finite m s, .finite n t =>
      if n = 0 then (if m = 0 then nan false else infinity negative)
      else round negative (m <<< s * unitsPerOne) (n <<< t)

/-- The double nearest to a coefficient times a power of ten. Powers that pass every double, or
    that vanish against the least one, are decided without computing them. -/
def ofDecimal (negative : Bool) (coefficient : Nat) (exponent : Int) : Binary64 :=
  if coefficient = 0 then zero negative
  else if 400 < exponent then infinity negative
  else if exponent < -(Nat.log2 coefficient + 400 : Int) then zero negative
  else if 0 ≤ exponent then
    round negative (coefficient * Nat.pow 10 exponent.toNat * unitsPerOne) 1
  else round negative (coefficient * unitsPerOne) (Nat.pow 10 (-exponent).toNat)

end ArithJit.Binary64
