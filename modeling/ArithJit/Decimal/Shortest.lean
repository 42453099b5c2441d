import ArithJit.Binary64.Arithmetic

/-!
# The shortest decimal of a double

Among the decimals that read back as a given finite double, the one with the fewest digits is
chosen, of several the nearest, and of two at the same distance the even one. For each number
of digits only the two neighbours of the exact value on that decimal grid need to be tried:
if any point of the grid reads back, so does one of them.
-/

namespace ArithJit

/-- A decimal: `coefficient * 10 ^ exponent`. -/
structure Decimal where
  coefficient : Nat
  exponent : Int
  deriving DecidableEq, Repr

namespace Decimal

/-- The decimal digits of a number, without leading zeros; zero has the digit `0`. -/
def digits (n : Nat) : List Char := Nat.toDigits 10 n

/-- The exact value of a finite magnitude: a division by two is a multiplication by five and
    one more place. -/
def ofMagnitude (significand shift : Nat) : Decimal :=
  if 1074 ≤ shift then ⟨significand <<< (shift - 1074), 0⟩
  else ⟨significand * Nat.pow 5 (1074 - shift), (shift : Int) - 1074⟩

/-- The word without sign that a decimal reads as. -/
def toWord (d : Decimal) : Nat := (Binary64.ofDecimal false d.coefficient d.exponent).word

/-- The two neighbours of a decimal on the grid that cuts its last `cut` digits, the nearer
    first, and of two at the same distance the even one first. -/
def neighbours (d : Decimal) (cut : Nat) : List Decimal :=
  let unit := Nat.pow 10 cut
  let low := d.coefficient / unit
  let rest := 2 * (d.coefficient % unit)
  let below : Decimal := ⟨low, d.exponent + cut⟩
  let above : Decimal := ⟨low + 1, d.exponent + cut⟩
  if rest < unit || (rest = unit && low % 2 = 0) then [below, above] else [above, below]

/-- The shortest decimal of a finite magnitude. Seventeen digits always suffice; the exact value
    would do otherwise. -/
def shortest (significand shift : Nat) : Decimal :=
  let d := ofMagnitude significand shift
  let count := (digits d.coefficient).length
  let target := d.toWord
  let found := (List.range 17).findSome? fun k =>
    (d.neighbours (count - (k + 1))).find? fun c => c.toWord = target
  found.getD d

end Decimal

end ArithJit
