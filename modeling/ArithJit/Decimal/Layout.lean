import ArithJit.Decimal.Shortest

/-!
# Layout of decimals

How the digits of a double are laid out on the page: with a point among them when the
exponent is moderate, and otherwise with an exponent of at least two digits. The words for
infinity and NaN belong to the layout.
-/

namespace ArithJit.Decimal

/-- The decisions of a layout: the least and greatest exponent written with a point only,
    and the words for the values that have no digits. -/
structure Layout where
  leastPlain : Int
  mostPlain : Int
  infinity : String
  nan : String

/-- The layout of messages. -/
def Layout.message : Layout := ⟨-4, 15, "inf", "nan"⟩

/-- The layout of JSON texts. -/
def Layout.json : Layout := ⟨-4, 15, "Infinity", "NaN"⟩

/-- Removes the zeros at the end of a list of digits, keeping the first digit. -/
def dropZeros : List Char → List Char
  | [] => []
  | d :: ds => d :: (ds.reverse.dropWhile (· = '0')).reverse

/-- The digits, with a point after the first `point` of them and zeros where there are none.
    At least one digit stands on either side of the point. -/
def withPoint (ds : List Char) (point : Int) : List Char :=
  if point ≤ 0 then '0' :: '.' :: (List.replicate (-point).toNat '0' ++ ds)
  else
    let k := point.toNat
    if ds.length ≤ k then ds ++ List.replicate (k - ds.length) '0' ++ ['.', '0']
    else ds.take k ++ '.' :: ds.drop k

/-- The digits in scientific form: one before the point, and an exponent with a sign and at
    least two digits. -/
def withExponent (ds : List Char) (exponent : Int) : List Char :=
  let mantissa := match ds with
    | [] => []
    | [d] => [d]
    | d :: rest => d :: '.' :: rest
  let sign := if exponent < 0 then '-' else '+'
  let places := digits exponent.natAbs
  mantissa ++ 'e' :: sign :: (if places.length < 2 then '0' :: places else places)

/-- A decimal laid out. Its digits do not end in a needless zero, and the point stands so many
    places after the first digit as the exponent says. -/
def lay (l : Layout) (d : Decimal) : List Char :=
  let all := digits d.coefficient
  let point : Int := all.length + d.exponent
  let ds := dropZeros all
  if d.coefficient = 0 then withPoint ['0'] 1
  else if l.leastPlain ≤ point - 1 && point - 1 ≤ l.mostPlain then withPoint ds point
  else withExponent ds (point - 1)

end ArithJit.Decimal

namespace ArithJit.Binary64

/-- The text of a double in a layout. The sign of a NaN is not shown; that of zero is. -/
def text (l : Decimal.Layout) (x : Binary64) : List Char :=
  match x.magnitude with
  | .nan => l.nan.toList
  | .infinite => if x.isNegative then '-' :: l.infinity.toList else l.infinity.toList
  | .finite m s =>
      let body := Decimal.lay l (Decimal.shortest m s)
      if x.isNegative then '-' :: body else body

/-- The text of a double in messages. -/
def message (x : Binary64) : String := String.ofList (x.text .message)

end ArithJit.Binary64
