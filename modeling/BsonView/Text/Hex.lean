/-
  Hexadecimal text of bytes and code points, in lower case.

  Main declarations:
    * `Hex.digit`
    * `Hex.pair`
    * `Hex.digits`
-/

------------------------------------------------------------
-- Hexadecimal Digits
------------------------------------------------------------

namespace BsonView

namespace Hex

/- The digit of a number below sixteen. -/
def digit (n : Nat) : Char :=
  if n < 10 then
    Char.ofNat (48 + n)
  else
    Char.ofNat (87 + n)

/- A byte as exactly two digits. -/
def pair (b : UInt8) : String :=
  String.ofList
    [digit (b.toNat / 16), digit (b.toNat % 16)]

/- A number in as few digits as it needs. -/
def digits (n : Nat) : String :=
  String.ofList (Nat.toDigits 16 n)

/- Bytes as consecutive pairs. -/
def pairs (bytes : List UInt8) : String :=
  String.join (bytes.map pair)

end Hex

end BsonView
