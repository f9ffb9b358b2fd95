import BsonView.Proofs.Validation.Locality
import BsonView.Scalar

/-
  Scalars are read in their own bytes.

  A reader of scalars looks at the bytes that the framing
  claims for the payload and at none after them. So it
  answers the same, a scalar or an error, when more bytes
  follow.

  Main declarations:
    * `Bytes.take_of_front`
    * `Word.front_of_front`
    * `Scalar.readString_of_front`
    * `Scalar.readString_of_form`
    * `Scalar.readRegex_of_front`
    * `Tag.read_of_front`
-/

------------------------------------------------------------
-- Parts Of Scalars
------------------------------------------------------------

namespace BsonView

open Grammar

variable {a b : Bytes} {n : Nat}

namespace Bytes

/- Bytes that are there are taken when more follow. -/
theorem take_of_front
    (hFront : a <+: b)
    (hThere : n ≤ a.length) :
    b.take n = a.take n := by
  rcases hFront with ⟨more, rfl⟩
  exact List.take_append_of_le_length hThere

end Bytes

namespace Word

theorem front_of_front
    (hFront : a <+: b)
    (hThere : n ≤ a.length) :
    front n b = front n a := by
  have hMore := Nat.le_trans hThere hFront.length_le
  rw [front, front, if_pos hThere, if_pos hMore,
    Bytes.take_of_front hFront hThere]

end Word

namespace Block

theorem read_of_front
    (hFront : a <+: b)
    (hThere : n ≤ a.length) :
    read n b = read n a := by
  have hMore := Nat.le_trans hThere hFront.length_le
  simp only [read, hThere, hMore, dite_true,
    Bytes.take_of_front hFront hThere]

end Block

namespace Scalar

/- A string is read in the bytes that it is measured in. -/
theorem readString_of_front
    (hFront : a <+: b)
    (hLength : Framing.stringLength a = .ok n) :
    readString b = readString a := by
  rcases Framing.stringLength_eq_ok.mp hLength with
    ⟨length, _, _, rfl, hThere, _⟩
  have hMore := Framing.stringLength_of_front hFront hLength
  have hText :
      (b.drop 4).take (4 + length - 5) =
        (a.drop 4).take (4 + length - 5) := by
    apply Bytes.take_of_front (hFront.drop 4)
    rw [List.length_drop]
    omega
  rw [readString, readString, hLength, hMore, ok_bind,
    ok_bind, hText]

/- The text of a string is read where its form stands. -/
theorem readString_of_form
    {text : Bytes}
    (hText : text.length + 1 ≤ Word.maxLength)
    (hString : stringForm text <+: a) :
    readString a = Bytes.text text := by
  have hLength :=
    Grammar.stringLength_eq_ok.mpr
      ⟨text, hText, hString, rfl⟩
  have hTake :
      (a.drop 4).take ((stringForm text).length - 5) =
        text := by
    rcases hString with ⟨more, rfl⟩
    rw [stringForm, List.append_assoc,
      List.drop_left' (Word.length_ofLength _),
      List.append_assoc]
    apply List.take_left'
    simp
    omega
  rw [readString, hLength, ok_bind, hTake]

/- A terminated string is read up to its first null byte. -/
theorem readCString_eq
    (hLength : Bytes.cstringLength a = .ok n) :
    readCString a =
      Bytes.text (a.take n) >>=
        fun text => .ok (text, a.drop (n + 1)) := by
  rw [readCString, hLength]
  rfl

/- A regex is read in the bytes that it is measured in. -/
theorem readRegex_of_front
    (hFront : a <+: b)
    (hLength : Framing.payloadLength .regex a = .ok n) :
    readRegex b = readRegex a := by
  rcases bind_eq_ok.mp hLength with
    ⟨pattern, hPattern, hRest⟩
  rcases bind_eq_ok.mp hRest with ⟨options, hOptions, _⟩
  have hBehind := hFront.drop (pattern + 1)
  have hFirst :=
    Bytes.take_of_front hFront
      (Nat.le_of_lt (Bytes.lt_of_cstringLength_eq_ok hPattern))
  have hSecond :=
    Bytes.take_of_front hBehind
      (Nat.le_of_lt (Bytes.lt_of_cstringLength_eq_ok hOptions))
  rw [readRegex, readRegex, readCString_eq hPattern,
    readCString_eq
      (Bytes.cstringLength_of_front hFront hPattern),
    hFirst]
  cases Bytes.text (a.take pattern) with
  | error error => rfl
  | ok text =>
      simp only [ok_bind]
      rw [readCString_eq hOptions,
        readCString_eq
          (Bytes.cstringLength_of_front hBehind hOptions),
        hSecond]
      cases Bytes.text ((a.drop (pattern + 1)).take options)
        <;> rfl

/- A binary payload is read where it is measured. -/
theorem readBinary_of_front
    (hFront : a <+: b)
    (hLength : Framing.payloadLength .binary a = .ok n) :
    readBinary b = readBinary a := by
  have hMore := Framing.payloadLength_of_front hFront hLength
  have hThere := Framing.payloadLength_le hLength
  rcases bind_eq_ok.mp hLength with ⟨size, _, hClaim⟩
  rcases Framing.claim_eq_ok.mp hClaim with ⟨hSize, _⟩
  have hSubtype : b.getD 4 0 = a.getD 4 0 := by
    rcases hFront with ⟨more, rfl⟩
    rw [List.getD_eq_getElem?_getD,
      List.getElem?_append_left (by omega),
      List.getD_eq_getElem?_getD]
  rw [readBinary, readBinary, hMore, hLength, ok_bind,
    ok_bind, Bytes.take_of_front hFront hThere, hSubtype]

/- A database pointer is read where it is measured. -/
theorem readDbPointer_of_front
    (hFront : a <+: b)
    (hLength : Framing.payloadLength .dbPointer a = .ok n) :
    readDbPointer b = readDbPointer a := by
  rcases bind_eq_ok.mp hLength with ⟨name, hName, hClaim⟩
  rcases Framing.claim_eq_ok.mp hClaim with ⟨_, hThere⟩
  have hId : Block.read 12 (b.drop name) =
      Block.read 12 (a.drop name) := by
    apply Block.read_of_front (hFront.drop name)
    rw [List.length_drop]
    omega
  rw [readDbPointer, readDbPointer,
    readString_of_front hFront hName, hName,
    Framing.stringLength_of_front hFront hName]
  simp only [ok_bind, hId]

/- A boolean is its first byte. -/
theorem readBoolean_of_front
    (hFront : a <+: b)
    (hThere : 1 ≤ a.length) :
    readBoolean b = readBoolean a := by
  rcases hFront with ⟨more, rfl⟩
  cases a with
  | nil => cases hThere
  | cons value rest =>
      by_cases hZero : value = 0
      · rw [hZero]
        rfl
      by_cases hOne : value = 1
      · rw [hOne]
        rfl
      · simp [readBoolean]

/- A timestamp is its first eight bytes. -/
theorem readTimestamp_of_front
    (hFront : a <+: b)
    (hThere : 8 ≤ a.length) :
    readTimestamp b = readTimestamp a := by
  have hTime : Word.front 4 (b.drop 4) =
      Word.front 4 (a.drop 4) := by
    apply Word.front_of_front (hFront.drop 4)
    rw [List.length_drop]
    omega
  have hIncrement : Word.front 4 b = Word.front 4 a :=
    Word.front_of_front hFront (by omega)
  unfold readTimestamp Word.readUInt32
  rw [hTime, hIncrement]

end Scalar

end BsonView

------------------------------------------------------------
-- Scalars By Type
------------------------------------------------------------

namespace BsonView

variable {a b : Bytes} {n : Nat}

/-
  A scalar that is measured in some bytes is read the same
  when more follow, also when it cannot be read.
-/
theorem Tag.read_of_front
    {tag : Tag}
    {read : Bytes → Except Error Scalar}
    (hLayout : tag.layout = .scalar read)
    (hFront : a <+: b)
    (hLength : Framing.payloadLength tag a = .ok n) :
    read b = read a := by
  have hWord (width : Nat)
      (hClaim : Framing.claim width a = .ok n) :
      Word.front width b = Word.front width a :=
    Word.front_of_front hFront
      (Framing.claim_eq_ok.mp hClaim).2
  have hBlock (width : Nat)
      (hClaim : Framing.claim width a = .ok n) :
      Block.read width b = Block.read width a :=
    Block.read_of_front hFront
      (Framing.claim_eq_ok.mp hClaim).2
  cases tag with
  | double =>
      cases hLayout
      unfold Scalar.readDouble Word.readUInt64
      simp only [hWord 8 hLength]
  | dateTime | int64 =>
      cases hLayout
      unfold Word.readInt64 Word.readUInt64
      simp only [hWord 8 hLength]
  | int32 =>
      cases hLayout
      unfold Word.readInt32 Word.readUInt32
      simp only [hWord 4 hLength]
  | timestamp =>
      cases hLayout
      simp only [Scalar.readTimestamp_of_front hFront
        (Framing.claim_eq_ok.mp hLength).2]
  | string | javaScript | symbol =>
      cases hLayout
      simp only [Scalar.readString_of_front hFront hLength]
  | binary =>
      cases hLayout
      simp only [Scalar.readBinary_of_front hFront hLength]
  | objectId =>
      cases hLayout
      simp only [hBlock 12 hLength]
  | decimal128 =>
      cases hLayout
      simp only [hBlock 16 hLength]
  | boolean =>
      cases hLayout
      simp only [Scalar.readBoolean_of_front hFront
        (Framing.claim_eq_ok.mp hLength).2]
  | regex =>
      cases hLayout
      simp only [Scalar.readRegex_of_front hFront hLength]
  | dbPointer =>
      cases hLayout
      simp only [Scalar.readDbPointer_of_front hFront
        hLength]
  | undefined | null | minKey | maxKey =>
      cases hLayout
      rfl
  | embeddedDocument | array | codeWithScope =>
      cases hLayout

end BsonView
