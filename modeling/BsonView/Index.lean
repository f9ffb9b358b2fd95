import BsonView.Bytes

/-
  Decimal index keys.

  The key of an array's value is its position in decimal
  digits. Sizing needs the number of digits, writing the
  digits as bytes, and a new element its key as a text.

  Main declarations:
    * `Index.length`
    * `Index.digits`
    * `Index.text`
    * `Index.ofText_text`
-/

------------------------------------------------------------
-- Decimal Digits
------------------------------------------------------------

namespace BsonView

namespace Index

/- The number of decimal digits. -/
def length (index : Nat) : Nat :=
  if index < 10 then
    1
  else
    length (index / 10) + 1

/- Decimal digits in front of what follows them. -/
def digitsBefore
    (index : Nat)
    (rest : Bytes) : Bytes :=
  let digit := UInt8.ofNat (48 + index % 10)
  if index < 10 then
    digit :: rest
  else
    digitsBefore (index / 10) (digit :: rest)

/- The decimal digits, without leading zeros. -/
def digits (index : Nat) : Bytes :=
  digitsBefore index []

/- The decimal digits as a text. -/
def text (index : Nat) : String :=
  toString index

theorem length_digitsBefore
    (index : Nat)
    (rest : Bytes) :
    (digitsBefore index rest).length =
      length index + rest.length := by
  fun_induction digitsBefore index rest with
  | case1 index rest digit hSmall =>
      rw [length, if_pos hSmall, List.length_cons]
      omega
  | case2 index rest digit hLarge ih =>
      rw [ih, length.eq_def index, if_neg hLarge,
        List.length_cons]
      omega

/- There are as many digits as are counted. -/
theorem length_digits
    (index : Nat) :
    (digits index).length = length index :=
  length_digitsBefore index []

/- A small index has one digit. -/
theorem digits_of_lt
    {index : Nat}
    (hSmall : index < 10) :
    digits index = [UInt8.ofNat (48 + index)] := by
  rw [digits, digitsBefore, if_pos hSmall,
    Nat.mod_eq_of_lt hSmall]

theorem zero_notMem_digitsBefore
    {index : Nat}
    {rest : Bytes}
    (hRest : 0 ∉ rest) :
    0 ∉ digitsBefore index rest := by
  have hDigit :
      ∀ n, (0 : UInt8) ≠ UInt8.ofNat (48 + n % 10) := by
    intro n hZero
    have hValue := congrArg UInt8.toNat hZero
    rw [UInt8.toNat_ofNat] at hValue
    simp at hValue
    omega
  fun_induction digitsBefore index rest with
  | case1 index rest digit hSmall =>
      rw [List.mem_cons, not_or]
      exact ⟨hDigit index, hRest⟩
  | case2 index rest digit hLarge ih =>
      apply ih
      rw [List.mem_cons, not_or]
      exact ⟨hDigit index, hRest⟩

/- No digit is the null byte. -/
theorem zero_notMem_digits
    (index : Nat) :
    0 ∉ digits index := by
  apply zero_notMem_digitsBefore
  exact List.not_mem_nil

end Index

end BsonView

------------------------------------------------------------
-- Texts Of Indices
------------------------------------------------------------

namespace BsonView

/- The bytes of a text are those of its characters. -/
theorem Bytes.ofText_ofList
    (characters : List Char) :
    ofText (String.ofList characters) =
      characters.flatMap String.utf8EncodeChar := by
  rw [ofText, String.toByteArray_ofList, List.utf8Encode,
    List.data_toByteArray]

namespace Index

theorem utf8EncodeChar_digitChar
    {digit : Nat}
    (hDigit : digit < 10) :
    String.utf8EncodeChar (Nat.digitChar digit) =
      [UInt8.ofNat (48 + digit)] := by
  decide +revert

/- The digits in front are those of the text. -/
theorem digitsBefore_eq
    (index : Nat)
    (rest : Bytes) :
    digitsBefore index rest =
      Bytes.ofText (text index) ++ rest := by
  rw [text, Nat.toString_eq_repr,
    Nat.repr_eq_ofList_toDigits, Bytes.ofText_ofList]
  fun_induction digitsBefore index rest with
  | case1 index rest digit hSmall =>
      rw [Nat.toDigits_of_lt_base hSmall,
        List.flatMap_singleton,
        utf8EncodeChar_digitChar hSmall,
        List.singleton_append, ← Nat.mod_eq_of_lt hSmall]
  | case2 index rest digit hLarge ih =>
      have hLast : index % 10 < 10 := by omega
      have hSplit :
          Nat.toDigits 10 index =
            Nat.toDigits 10 (index / 10) ++
              [Nat.digitChar (index % 10)] :=
        Nat.toDigits_of_base_le (by decide) (by omega)
      rw [ih, hSplit, List.flatMap_append,
        List.flatMap_singleton,
        utf8EncodeChar_digitChar hLast, List.append_assoc,
        List.singleton_append]

/- The digits are the bytes of the text. -/
theorem ofText_text
    (index : Nat) :
    Bytes.ofText (text index) = digits index := by
  rw [digits, digitsBefore_eq, List.append_nil]

end Index

end BsonView
