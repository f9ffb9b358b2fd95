import BsonView.Bytes

/-
  Little-endian words.

  The format stores every number with its least significant
  byte first. A reader looks at the front of the bytes it is
  given and asks for a fixed number of them.

  Main declarations:
    * `Word.bytes`
    * `Word.value`
    * `Word.front`
    * `Word.readInt32`
    * `Word.readUInt32`
    * `Word.readInt64`
    * `Word.readUInt64`
    * `Word.putInt32`
    * `Word.readLength`
    * `Word.lengthField`
    * `Word.readLength_eq_ok`
-/

------------------------------------------------------------
-- Numbers As Bytes
------------------------------------------------------------

namespace BsonView

namespace Word

/-
  The `width` lowest bytes of a number, least significant
  first.
-/
def bytes : Nat → Nat → Bytes
| 0, _ => []
| width + 1, n =>
    UInt8.ofNat n :: bytes width (n / 256)

/- The least number that does not fit so many bytes. -/
def bound : Nat → Nat
| 0 => 1
| width + 1 => 256 * bound width

/- The number whose bytes, lowest first, are given. -/
def value : Bytes → Nat
| [] => 0
| b :: rest => b.toNat + 256 * value rest

@[simp] theorem length_bytes
    (width n : Nat) :
    (bytes width n).length = width := by
  induction width generalizing n with
  | zero => rfl
  | succ width ih => simp [bytes, ih]

/- Reading back gives the number modulo the word's range. -/
theorem value_bytes
    (width n : Nat) :
    value (bytes width n) = n % bound width := by
  induction width generalizing n with
  | zero => simp [bytes, value, bound, Nat.mod_one]
  | succ width ih =>
      rw [bound, Nat.mod_mul]
      simp [bytes, value, ih]

/- Bytes of a word are determined by its value. -/
theorem bytes_value
    (word : Bytes) :
    bytes word.length (value word) = word := by
  induction word with
  | nil => rfl
  | cons b rest ih =>
      have hHigh :
          (b.toNat + 256 * value rest) / 256 =
            value rest := by
        have := b.toNat_lt
        omega
      have hLow :
          UInt8.ofNat (b.toNat + 256 * value rest) = b := by
        apply UInt8.toNat_inj.mp
        simp
      simp [bytes, value, hHigh, hLow, ih]

theorem value_lt
    (word : Bytes) :
    value word < bound word.length := by
  induction word with
  | nil => exact Nat.zero_lt_one
  | cons b rest ih =>
      have hByte := b.toNat_lt
      rw [value, List.length_cons, bound]
      omega

end Word

end BsonView

------------------------------------------------------------
-- Readers
------------------------------------------------------------

namespace BsonView

namespace Word

/- The first `width` bytes, if there are that many. -/
def front
    (width : Nat)
    (bytes : Bytes) : Except Error Bytes :=
  if width ≤ bytes.length then
    .ok (bytes.take width)
  else
    .error .endOfFile

/- The 32-bit word at the front, unsigned. -/
def readUInt32 (bytes : Bytes) : Except Error UInt32 :=
  return UInt32.ofNat (value (← front 4 bytes))

/- The 32-bit word at the front in two's complement. -/
def readInt32 (bytes : Bytes) : Except Error Int32 :=
  return (← readUInt32 bytes).toInt32

/- A 32-bit word is read where there are four bytes. -/
theorem readInt32_eq_ok
    {bytes : Bytes}
    {n : Int32} :
    readInt32 bytes = .ok n ↔
      4 ≤ bytes.length ∧
        n = (UInt32.ofNat (value (bytes.take 4))).toInt32 := by
  unfold readInt32 readUInt32 front
  by_cases hThere : 4 ≤ bytes.length
  · rw [if_pos hThere]
    simp [hThere, pure, Except.pure, eq_comm]
  · rw [if_neg hThere]
    constructor
    · intro hRead
      cases hRead
    · intro hBoth
      rcases hBoth with ⟨hLength, _⟩
      exact absurd hLength hThere

/- The 64-bit word at the front, unsigned. -/
def readUInt64 (bytes : Bytes) : Except Error UInt64 :=
  return UInt64.ofNat (value (← front 8 bytes))

/- The 64-bit word at the front in two's complement. -/
def readInt64 (bytes : Bytes) : Except Error Int64 :=
  return (← readUInt64 bytes).toInt64

end Word

end BsonView

------------------------------------------------------------
-- Writers
------------------------------------------------------------

namespace BsonView

namespace Word

/- The four bytes of a 32-bit word. -/
def ofUInt32 (n : UInt32) : Bytes :=
  bytes 4 n.toNat

/- The four bytes of a 32-bit word in two's complement. -/
def ofInt32 (n : Int32) : Bytes :=
  ofUInt32 n.toUInt32

/- The eight bytes of a 64-bit word. -/
def ofUInt64 (n : UInt64) : Bytes :=
  bytes 8 n.toNat

/- The eight bytes of a 64-bit word in two's complement. -/
def ofInt64 (n : Int64) : Bytes :=
  ofUInt64 n.toUInt64

@[simp] theorem length_ofUInt32
    (n : UInt32) :
    (ofUInt32 n).length = 4 :=
  length_bytes 4 _

@[simp] theorem length_ofInt32
    (n : Int32) :
    (ofInt32 n).length = 4 :=
  length_bytes 4 _

@[simp] theorem length_ofUInt64
    (n : UInt64) :
    (ofUInt64 n).length = 8 :=
  length_bytes 8 _

/- A word that is stored is read as what it was. -/
theorem readUInt32_ofUInt32
    (n : UInt32)
    (rest : Bytes) :
    readUInt32 (ofUInt32 n ++ rest) = .ok n := by
  have hThere : 4 ≤ (ofUInt32 n ++ rest).length := by
    rw [List.length_append, length_ofUInt32]
    exact Nat.le_add_right _ _
  have hRange : n.toNat < bound 4 := n.toNat_lt
  unfold readUInt32 front
  rw [if_pos hThere, List.take_left' (length_ofUInt32 n),
    ofUInt32, ok_bind, value_bytes, Nat.mod_eq_of_lt hRange,
    UInt32.ofNat_toNat]
  rfl

theorem readInt32_ofInt32
    (n : Int32)
    (rest : Bytes) :
    readInt32 (ofInt32 n ++ rest) = .ok n := by
  unfold readInt32 ofInt32
  rw [readUInt32_ofUInt32]
  rfl

theorem readUInt64_ofUInt64
    (n : UInt64)
    (rest : Bytes) :
    readUInt64 (ofUInt64 n ++ rest) = .ok n := by
  have hThere : 8 ≤ (ofUInt64 n ++ rest).length := by
    rw [List.length_append, length_ofUInt64]
    exact Nat.le_add_right _ _
  have hRange : n.toNat < bound 8 := n.toNat_lt
  unfold readUInt64 front
  rw [if_pos hThere, List.take_left' (length_ofUInt64 n),
    ofUInt64, ok_bind, value_bytes, Nat.mod_eq_of_lt hRange,
    UInt64.ofNat_toNat]
  rfl

theorem readInt64_ofInt64
    (n : Int64)
    (rest : Bytes) :
    readInt64 (ofInt64 n ++ rest) = .ok n := by
  unfold readInt64 ofInt64
  rw [readUInt64_ofUInt64]
  rfl

/- Four bytes are those of the word that they are read as. -/
theorem ofUInt32_of_value
    {word : Bytes}
    (hWidth : word.length = 4) :
    ofUInt32 (UInt32.ofNat (value word)) = word := by
  have hRange := value_lt word
  have hWord := bytes_value word
  rw [hWidth] at hRange hWord
  rw [ofUInt32, UInt32.toNat_ofNat_of_lt' hRange, hWord]

/- So are eight bytes. -/
theorem ofUInt64_of_value
    {word : Bytes}
    (hWidth : word.length = 8) :
    ofUInt64 (UInt64.ofNat (value word)) = word := by
  have hRange := value_lt word
  have hWord := bytes_value word
  rw [hWidth] at hRange hWord
  rw [ofUInt64, UInt64.toNat_ofNat_of_lt' hRange, hWord]

/- Put a 32-bit word at `start`, where it has to fit. -/
def putInt32
    (dest : Bytes)
    (start : Nat)
    (n : Int32) : Except Error Bytes :=
  if start + 4 ≤ dest.length then
    .ok (dest.overwrite start (ofInt32 n))
  else
    .error .endOfFile

/- A word takes the place of four bytes and no others. -/
theorem of_putInt32_eq_ok
    {dest changed : Bytes}
    {start : Nat}
    {n : Int32}
    (hPut : putInt32 dest start n = .ok changed) :
    changed.length = dest.length ∧
      changed.take start = dest.take start ∧
      changed.drop (start + 4) = dest.drop (start + 4) := by
  have hWidth : (ofInt32 n).length = 4 := length_bytes 4 _
  unfold putInt32 at hPut
  split at hPut
  next hFits =>
    cases hPut
    rw [← hWidth] at hFits
    have hStart : start ≤ dest.length := by omega
    refine
      ⟨Bytes.length_overwrite hFits,
        Bytes.take_overwrite hStart _, ?_⟩
    rw [← hWidth]
    exact Bytes.drop_overwrite hStart _
  · cases hPut

end Word

end BsonView

------------------------------------------------------------
-- Length Fields
------------------------------------------------------------

namespace BsonView

namespace Word

/-
  The length at the front. It is stored signed and must not
  be negative.
-/
def readLength (bytes : Bytes) : Except Error Nat := do
  let length := (← readInt32 bytes).toInt
  if length < 0 then
    throw (.invalidLength length 0)
  return length.toNat

/- A length field is too short or negative. -/
theorem readLength_eq_error
    {bytes : Bytes}
    {error : Error}
    (hLength : readLength bytes = .error error) :
    error = .endOfFile ∨
      ∃ declared actual,
        error = .invalidLength declared actual := by
  unfold readLength readInt32 readUInt32 front at hLength
  by_cases hThere : 4 ≤ bytes.length
  · rw [if_pos hThere] at hLength
    simp only [ok_bind, pure_bind] at hLength
    split at hLength
    · cases hLength
      exact .inr ⟨_, _, rfl⟩
    · cases hLength
  · rw [if_neg hThere] at hLength
    cases hLength
    exact .inl rfl

/- The largest length that a length field can hold. -/
def maxLength : Nat := 2147483647

/-
  A length as a field holds it, if it is small enough for
  one.
-/
def lengthField (length : Nat) : Except Error Int32 :=
  if length ≤ maxLength then
    .ok (Int32.ofNat length)
  else
    .error (.invalidLength maxLength length)

/-
  The four bytes of a length. Lengths beyond the field's
  range wrap around.
-/
def ofLength (length : Nat) : Bytes :=
  bytes 4 length

@[simp] theorem length_ofLength
    (length : Nat) :
    (ofLength length).length = 4 :=
  length_bytes 4 length

/- Words from the middle of their range on are negative. -/
theorem toInt_ofNat
    {n : Nat}
    (hRange : n < bound 4) :
    (UInt32.ofNat n).toInt32.toInt =
      if n ≤ maxLength then (n : Int)
      else (n : Int) - bound 4 := by
  have hBits :
      (UInt32.ofNat n).toInt32.toInt =
        (UInt32.ofNat n).toBitVec.toInt := rfl
  rw [hBits, BitVec.toInt_eq_toNat_cond,
    UInt32.toNat_toBitVec,
    UInt32.toNat_ofNat_of_lt' hRange]
  simp only [bound] at hRange ⊢
  unfold maxLength
  split <;> split <;> omega

/- A length is read where the four bytes of it stand. -/
theorem readLength_eq_ok
    {bytes : Bytes}
    {n : Nat} :
    readLength bytes = .ok n ↔
      n ≤ maxLength ∧ ofLength n <+: bytes := by
  unfold readLength
  rw [bind_eq_ok]
  constructor
  · intro hExists
    rcases hExists with ⟨word, hWord, hLength⟩
    rcases readInt32_eq_ok.mp hWord with ⟨hThere, rfl⟩
    have hWidth : (bytes.take 4).length = 4 := by
      rw [List.length_take]
      omega
    have hRange := value_lt (bytes.take 4)
    rw [hWidth] at hRange
    rw [toInt_ofNat hRange] at hLength
    by_cases hSmall : value (bytes.take 4) ≤ maxLength
    · rw [if_pos hSmall] at hLength
      dsimp only at hLength
      rw [if_neg (by omega)] at hLength
      cases hLength
      refine ⟨hSmall, ?_⟩
      have hFront := bytes_value (bytes.take 4)
      rw [hWidth] at hFront
      rw [ofLength, Int.toNat_natCast, hFront]
      exact List.take_prefix 4 bytes
    · rw [if_neg hSmall] at hLength
      dsimp only at hLength
      rw [if_pos (by omega)] at hLength
      cases hLength
  · intro hBoth
    rcases hBoth with ⟨hSmall, rest, rfl⟩
    have hRange : n < bound 4 := by
      simp only [bound]
      unfold maxLength at hSmall
      omega
    refine ⟨(UInt32.ofNat n).toInt32, ?_, ?_⟩
    · refine readInt32_eq_ok.mpr ⟨?_, ?_⟩
      · rw [List.length_append, length_ofLength]
        omega
      · rw [List.take_left' (length_ofLength n), ofLength,
          value_bytes, Nat.mod_eq_of_lt hRange]
    · rw [toInt_ofNat hRange, if_pos hSmall]
      dsimp only
      rw [if_neg (by omega)]
      rfl

/- A length that fits its field is stored as it is. -/
theorem ofInt32_ofNat
    {n : Nat}
    (hSmall : n ≤ maxLength) :
    ofInt32 (Int32.ofNat n) = ofLength n := by
  unfold maxLength at hSmall
  have hBits : (Int32.ofNat n).toUInt32 = UInt32.ofNat n :=
    rfl
  have hRange : n < UInt32.size := by
    unfold UInt32.size
    omega
  unfold ofInt32 ofUInt32 ofLength
  rw [hBits, UInt32.toNat_ofNat_of_lt' hRange]

/- A word that was read is stored as the bytes it was. -/
theorem ofInt32_of_value
    {word : Bytes}
    (hWidth : word.length = 4) :
    ofInt32 (UInt32.ofNat (value word)).toInt32 = word :=
  ofUInt32_of_value hWidth

end Word

end BsonView
