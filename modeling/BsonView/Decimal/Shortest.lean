/-
  The shortest decimal that reads back.

  A floating-point number stands for all reals that round to
  it. Of the decimals among these, the shortest has the
  coarsest grid; where two neighbours on that grid qualify,
  the nearer one is taken, and of two equally near ones the
  larger.

  Everything is computed with natural numbers: a real is a
  whole multiple of a power of two, a decimal is a whole
  multiple of a power of ten.

  Main declarations:
    * `Decimal`
    * `Decimal.Interval`
    * `Decimal.Interval.onGrid?`
    * `Decimal.Interval.shortest`
    * `Decimal.positional`
-/

------------------------------------------------------------
-- Decimals
------------------------------------------------------------

namespace BsonView

/- The number `digits * 10 ^ exponent`. -/
structure Decimal where
  digits : Nat
  exponent : Int
deriving DecidableEq, Repr

namespace Decimal

/- A run of zeros. -/
def zeros (n : Nat) : String :=
  String.ofList (List.replicate n '0')

/-
  A decimal in positional notation, without an exponent and
  without a point that no digit follows.
-/
def positional (d : Decimal) : String :=
  let digits := toString d.digits
  if 0 ≤ d.exponent then
    digits ++ zeros d.exponent.toNat
  else
    let places := (-d.exponent).toNat
    let whole := digits.length - places
    if whole = 0 then
      "0." ++ zeros (places - digits.length) ++ digits
    else
      String.ofList (digits.toList.take whole) ++ "." ++
        String.ofList (digits.toList.drop whole)

end Decimal

end BsonView

------------------------------------------------------------
-- Shortest Decimals
------------------------------------------------------------

namespace BsonView

namespace Decimal

/-
  The reals from `low` to `high` around `value`, all three
  counted in units of `2 ^ exponent`. The ends belong to the
  interval if it is `closed`.
-/
structure Interval where
  low : Nat
  value : Nat
  high : Nat
  exponent : Int
  closed : Bool
deriving DecidableEq, Repr

namespace Interval

/-
  The better neighbour of the value among the multiples of
  `10 ^ k`, if one of the two is in the interval.
-/
def onGrid?
    (r : Interval)
    (k : Int) : Option Nat :=
  let unit :=
    Nat.pow 2 r.exponent.toNat * Nat.pow 10 (-k).toNat
  let grid :=
    Nat.pow 2 (-r.exponent).toNat * Nat.pow 10 k.toNat
  let inside := fun n =>
    if r.closed then
      r.low * unit ≤ n * grid && n * grid ≤ r.high * unit
    else
      r.low * unit < n * grid && n * grid < r.high * unit
  let value := r.value * unit
  let below := value / grid
  let above := below + 1
  match inside below, inside above with
  | true, true =>
      if value - below * grid < above * grid - value then
        some below
      else
        some above
  | true, false => some below
  | false, true => some above
  | false, false => none

/- The first hit on `fuel` grids, from `10 ^ k` down. -/
def search
    (r : Interval) :
    Nat → Int → Option Decimal
| 0, _ => none
| fuel + 1, k =>
    match r.onGrid? k with
    | some digits => some ⟨digits, k⟩
    | none => r.search fuel (k - 1)

/-
  The shortest decimal in the interval of a binary64 number.
  No such number exceeds `10 ^ 309`, and seventeen digits
  below the smallest, at `10 ^ -324`, always suffice, so the
  search does not end without a hit.
-/
def shortest (r : Interval) : Decimal :=
  (r.search 660 309).getD ⟨0, 0⟩

end Interval

end Decimal

end BsonView
