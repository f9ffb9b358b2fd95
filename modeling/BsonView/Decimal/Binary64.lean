import BsonView.Decimal.Shortest
import BsonView.Scalar

/-
  The decimal text of a floating-point number.

  Main declarations:
    * `Double.negative`
    * `Double.interval`
    * `Double.text`
-/

------------------------------------------------------------
-- Binary64 Numbers
------------------------------------------------------------

namespace BsonView

namespace Double

/- The sign bit. -/
def negative (x : Double) : Bool :=
  Nat.pow 2 63 ≤ x.bits.toNat

/- The exponent field. -/
def exponentField (x : Double) : Nat :=
  x.bits.toNat / Nat.pow 2 52 % Nat.pow 2 11

/- The fraction field. -/
def fraction (x : Double) : Nat :=
  x.bits.toNat % Nat.pow 2 52

/-
  The reals that round to the magnitude of a finite number.

  They reach half a step up and down. Below a power of two
  the steps are half as wide. The ends round to the number
  when its last bit is zero.
-/
def interval (x : Double) : Decimal.Interval :=
  let normal := x.exponentField ≠ 0
  let mantissa :=
    if normal then
      Nat.pow 2 52 + x.fraction
    else
      x.fraction
  let power := normal ∧ x.fraction = 0
  { low := 4 * mantissa - (if power then 1 else 2)
    value := 4 * mantissa
    high := 4 * mantissa + 2
    exponent := (max x.exponentField 1 : Int) - 1077
    closed := mantissa % 2 = 0 }

/- The magnitude of a finite number in decimal. -/
def magnitude (x : Double) : String :=
  if x.exponentField = 0 ∧ x.fraction = 0 then
    "0"
  else
    x.interval.shortest.positional

/-
  The shortest decimal that reads back, in positional
  notation. A zero keeps its sign; a NaN has none.
-/
def text (x : Double) : String :=
  let sign := if x.negative then "-" else ""
  if x.exponentField = Nat.pow 2 11 - 1 then
    if x.fraction = 0 then sign ++ "inf" else "NaN"
  else
    sign ++ x.magnitude

end Double

end BsonView
