import BsonView.Proofs.Reading.Scalars

/-
  Readers of scalars invert their encoding.

  A reader answers a scalar exactly where the encoding of
  the scalar stands at the front, whatever follows. So what
  is encoded is read as what it was, and what is read is
  encoded as the bytes it was read from.

  Main declarations:
    * `Word.readUInt32_iff_front`
    * `Word.readInt64_iff_front`
    * `Block.read_iff_front`
    * `Scalar.readString_iff_front`
    * `Scalar.readCString_eq_ok`
    * `Scalar.Fits`
    * `Scalar.Fits.scalarForm`
-/

------------------------------------------------------------
-- Words
------------------------------------------------------------

namespace BsonView

namespace Word

variable {bytes : Bytes}

/- A front is so many bytes that the bytes begin with. -/
theorem front_eq_ok
    {width : Nat}
    {word : Bytes} :
    front width bytes = .ok word ↔
      word.length = width ∧ word <+: bytes := by
  unfold front
  constructor
  · intro hFront
    split at hFront
    next hThere =>
      cases hFront
      refine ⟨?_, List.take_prefix width bytes⟩
      rw [List.length_take, Nat.min_eq_left hThere]
    · cases hFront
  · rintro ⟨rfl, hFront⟩
    rw [if_pos hFront.length_le,
      ← List.prefix_iff_eq_take.mp hFront]

/- A word is read exactly where its bytes stand. -/
theorem readUInt32_iff_front
    {n : UInt32} :
    readUInt32 bytes = .ok n ↔ ofUInt32 n <+: bytes := by
  constructor
  · intro hRead
    rcases bind_eq_ok.mp hRead with ⟨word, hWord, hDone⟩
    rcases front_eq_ok.mp hWord with ⟨hWidth, hFront⟩
    cases hDone
    rw [ofUInt32_of_value hWidth]
    exact hFront
  · rintro ⟨rest, rfl⟩
    exact readUInt32_ofUInt32 n rest

theorem readInt32_iff_front
    {n : Int32} :
    readInt32 bytes = .ok n ↔ ofInt32 n <+: bytes := by
  constructor
  · intro hRead
    rcases bind_eq_ok.mp hRead with ⟨word, hWord, hDone⟩
    cases hDone
    exact readUInt32_iff_front.mp hWord
  · rintro ⟨rest, rfl⟩
    exact readInt32_ofInt32 n rest

theorem readUInt64_iff_front
    {n : UInt64} :
    readUInt64 bytes = .ok n ↔ ofUInt64 n <+: bytes := by
  constructor
  · intro hRead
    rcases bind_eq_ok.mp hRead with ⟨word, hWord, hDone⟩
    rcases front_eq_ok.mp hWord with ⟨hWidth, hFront⟩
    cases hDone
    rw [ofUInt64_of_value hWidth]
    exact hFront
  · rintro ⟨rest, rfl⟩
    exact readUInt64_ofUInt64 n rest

theorem readInt64_iff_front
    {n : Int64} :
    readInt64 bytes = .ok n ↔ ofInt64 n <+: bytes := by
  constructor
  · intro hRead
    rcases bind_eq_ok.mp hRead with ⟨word, hWord, hDone⟩
    cases hDone
    exact readUInt64_iff_front.mp hWord
  · rintro ⟨rest, rfl⟩
    exact readInt64_ofInt64 n rest

end Word

end BsonView

------------------------------------------------------------
-- Parts Of Scalars
------------------------------------------------------------

namespace BsonView

open Grammar

variable {bytes : Bytes}

/- A block is read exactly where it stands. -/
theorem Block.read_iff_front
    {n : Nat}
    {block : Block n} :
    Block.read n bytes = .ok block ↔
      block.bytes <+: bytes := by
  rcases block with ⟨found, hWidth⟩
  unfold Block.read
  constructor
  · intro hRead
    split at hRead
    · cases hRead
      exact List.take_prefix n bytes
    · cases hRead
  · intro hFront
    have hThere := hFront.length_le
    rw [hWidth] at hThere
    have hTake := List.prefix_iff_eq_take.mp hFront
    rw [hWidth] at hTake
    rw [dif_pos hThere]
    congr
    exact hTake.symm

namespace Scalar

/- A string is encoded in the form of one. -/
theorem stringBytes_eq
    (text : String) :
    stringBytes text = stringForm (Bytes.ofText text) := by
  unfold stringBytes stringForm
  exact List.append_assoc _ _ _

/- A string is read exactly where one with its text stands. -/
theorem readString_iff_front
    {text : String} :
    readString bytes = .ok text ↔
      (Bytes.ofText text).length + 1 ≤ Word.maxLength ∧
        stringBytes text <+: bytes := by
  rw [stringBytes_eq]
  constructor
  · intro hRead
    rcases bind_eq_ok.mp hRead with ⟨total, hTotal, _⟩
    rcases Grammar.stringLength_eq_ok.mp hTotal with
      ⟨found, hFound, hString, _⟩
    rw [readString_of_form hFound hString] at hRead
    rw [← Bytes.text_eq_ok.mp hRead]
    exact ⟨hFound, hString⟩
  · rintro ⟨hText, hString⟩
    rw [readString_of_form hText hString]
    exact Bytes.text_eq_ok.mpr rfl

/-
  A terminated string is read exactly where its text stands,
  if that has no null byte of its own.
-/
theorem readCString_eq_ok
    {text : String}
    {rest : Bytes} :
    readCString bytes = .ok (text, rest) ↔
      0 ∉ Bytes.ofText text ∧
        bytes = cstringBytes text ++ rest := by
  unfold readCString cstringBytes
  constructor
  · intro hRead
    rcases bind_eq_ok.mp hRead with ⟨length, hLength, hRest⟩
    rcases bind_eq_ok.mp hRest with ⟨found, hFound, hDone⟩
    rcases Bytes.cstringLength_eq_ok.mp hLength with
      ⟨own, more, rfl, hOwn, rfl⟩
    cases hDone
    rw [List.take_left] at hFound
    rw [← Bytes.text_eq_ok.mp hFound, Bytes.drop_terminated,
      List.append_assoc]
    exact ⟨hOwn, rfl⟩
  · rintro ⟨hText, rfl⟩
    rw [List.append_assoc, List.singleton_append,
      Bytes.cstringLength_terminated hText, ok_bind,
      List.take_left, Bytes.text_eq_ok.mpr rfl, ok_bind,
      Bytes.drop_terminated]
    rfl

end Scalar

end BsonView

------------------------------------------------------------
-- Scalars
------------------------------------------------------------

namespace BsonView

open Grammar

variable {bytes : Bytes}

namespace Scalar

theorem readDouble_iff_front
    {x : Double} :
    readDouble bytes = .ok x ↔
      Word.ofUInt64 x.bits <+: bytes := by
  rw [← Word.readUInt64_iff_front]
  unfold readDouble
  cases Word.readUInt64 bytes with
  | error error => exact ⟨nofun, nofun⟩
  | ok n =>
      constructor
      · intro hRead
        cases hRead
        rfl
      · intro hRead
        cases hRead
        rfl

/- A timestamp is its two words, the increment first. -/
theorem readTimestamp_iff_front
    {time increment : UInt32} :
    readTimestamp bytes = .ok (time, increment) ↔
      Word.ofUInt32 increment ++ Word.ofUInt32 time <+:
        bytes := by
  rw [Bytes.append_prefix_iff, Word.length_ofUInt32,
    ← Word.readUInt32_iff_front,
    ← Word.readUInt32_iff_front]
  constructor
  · intro hRead
    rcases bind_eq_ok.mp hRead with ⟨low, hLow, hRest⟩
    rcases bind_eq_ok.mp hRest with ⟨high, hHigh, hDone⟩
    cases hDone
    exact ⟨hLow, hHigh⟩
  · rintro ⟨hLow, hHigh⟩
    exact bind_eq_ok.mpr
      ⟨increment, hLow, bind_eq_ok.mpr ⟨time, hHigh, rfl⟩⟩

/- A boolean is a byte that is zero or one. -/
theorem readBoolean_iff_front
    {b : Bool} :
    readBoolean bytes = .ok b ↔ [b.toUInt8] <+: bytes := by
  cases bytes with
  | nil =>
      constructor
      · intro hRead
        cases hRead
      · intro hFront
        cases List.prefix_nil.mp hFront
  | cons first rest =>
      rw [List.cons_prefix_cons, and_iff_left List.nil_prefix]
      constructor
      · intro hRead
        unfold readBoolean at hRead
        split at hRead
        next hNone => cases hNone
        next hZero =>
          cases hZero
          cases hRead
          rfl
        next hOne =>
          cases hOne
          cases hRead
          rfl
        · cases hRead
      · rintro rfl
        cases b <;> rfl

/- A regex is its pattern and its options, both terminated. -/
theorem readRegex_iff_front
    {pattern options : String} :
    readRegex bytes = .ok (pattern, options) ↔
      (0 ∉ Bytes.ofText pattern ∧ 0 ∉ Bytes.ofText options) ∧
        cstringBytes pattern ++ cstringBytes options <+:
          bytes := by
  constructor
  · intro hRead
    rcases bind_eq_ok.mp hRead with
      ⟨⟨first, behind⟩, hFirst, hRest⟩
    rcases bind_eq_ok.mp hRest with
      ⟨⟨second, more⟩, hSecond, hDone⟩
    cases hDone
    rcases readCString_eq_ok.mp hFirst with ⟨hPattern, rfl⟩
    rcases readCString_eq_ok.mp hSecond with ⟨hOptions, rfl⟩
    refine ⟨⟨hPattern, hOptions⟩, more, ?_⟩
    exact List.append_assoc _ _ _
  · rintro ⟨⟨hPattern, hOptions⟩, more, rfl⟩
    rw [List.append_assoc]
    exact bind_eq_ok.mpr
      ⟨_, readCString_eq_ok.mpr ⟨hPattern, rfl⟩,
        bind_eq_ok.mpr
          ⟨_, readCString_eq_ok.mpr ⟨hOptions, rfl⟩, rfl⟩⟩

/- A database pointer is its name and its identifier. -/
theorem readDbPointer_iff_front
    {name : String}
    {id : Block 12} :
    readDbPointer bytes = .ok (name, id) ↔
      (Bytes.ofText name).length + 1 ≤ Word.maxLength ∧
        stringBytes name ++ id.bytes <+: bytes := by
  have hTotal
      (hName :
        (Bytes.ofText name).length + 1 ≤ Word.maxLength)
      (hString : stringBytes name <+: bytes) :
      Framing.stringLength bytes =
        .ok (stringBytes name).length := by
    rw [stringBytes_eq] at hString ⊢
    exact Grammar.stringLength_eq_ok.mpr
      ⟨_, hName, hString, rfl⟩
  rw [Bytes.append_prefix_iff, ← and_assoc,
    ← readString_iff_front, ← Block.read_iff_front]
  constructor
  · intro hRead
    rcases bind_eq_ok.mp hRead with ⟨found, hFound, hRest⟩
    rcases bind_eq_ok.mp hRest with ⟨total, hLength, hRest⟩
    rcases bind_eq_ok.mp hRest with ⟨own, hOwn, hDone⟩
    cases hDone
    rcases readString_iff_front.mp hFound with
      ⟨hName, hString⟩
    cases hLength.symm.trans (hTotal hName hString)
    exact ⟨hFound, hOwn⟩
  · rintro ⟨hFound, hOwn⟩
    rcases readString_iff_front.mp hFound with
      ⟨hName, hString⟩
    exact bind_eq_ok.mpr
      ⟨name, hFound,
        bind_eq_ok.mpr
          ⟨_, hTotal hName hString,
            bind_eq_ok.mpr ⟨id, hOwn, rfl⟩⟩⟩

/- The byte after four others, and what comes after it. -/
theorem fifth_of_front
    {lead : Bytes}
    (hLead : lead.length = 4)
    (b : UInt8)
    (rest : Bytes) :
    (lead ++ b :: rest).getD 4 0 = b ∧
      (lead ++ b :: rest).drop 5 = rest := by
  constructor
  · rw [List.getD_eq_getElem?_getD,
      List.getElem?_append_right (Nat.le_of_eq hLead), hLead]
    rfl
  · have hDrop :
        (lead ++ b :: rest).drop (lead.length + 1) =
          (b :: rest).drop 1 :=
      List.drop_length_add_append ..
    rw [hLead] at hDrop
    exact hDrop

/- A binary payload is its length, its subtype and its data. -/
theorem readBinary_iff_front
    {subtype : UInt8}
    {data : Bytes} :
    readBinary bytes = .ok (subtype, data) ↔
      data.length ≤ Word.maxLength ∧
        Word.ofLength data.length ++ [subtype] ++ data <+:
          bytes := by
  rw [List.append_assoc, List.singleton_append]
  constructor
  · intro hRead
    rcases bind_eq_ok.mp hRead with ⟨total, hTotal, hDone⟩
    have hForm := scalarForm_of_binary hTotal
    have hFront := List.take_prefix total bytes
    generalize hTake : bytes.take total = form
      at hForm hFront hDone
    cases hForm with
    | fixed _ hWidth => cases hWidth
    | text hTag => cases hTag
    | @binary own found hSize =>
        rcases hFront with ⟨more, rfl⟩
        rw [List.append_assoc, List.cons_append,
          (fifth_of_front (Word.length_ofLength _) _ _).1,
          (fifth_of_front (Word.length_ofLength _) _ _).2]
          at hDone
        cases hDone
        exact ⟨hSize, List.prefix_append _ _⟩
  · rintro ⟨hData, hFront⟩
    have hForm : ScalarForm .binary
        (Word.ofLength data.length ++ subtype :: data) :=
      .binary hData
    have hTotal :
        Framing.payloadLength .binary bytes =
          .ok (Word.ofLength data.length ++
            subtype :: data).length :=
      hForm.scalarLength hFront
    unfold readBinary
    rw [hTotal, ok_bind, ← List.prefix_iff_eq_take.mp hFront,
      (fifth_of_front (Word.length_ofLength _) _ _).2]
    rcases hFront with ⟨more, rfl⟩
    rw [List.append_assoc, List.cons_append,
      (fifth_of_front (Word.length_ofLength _) _ _).1]
    rfl

end Scalar

end BsonView

------------------------------------------------------------
-- Scalars That Fit
------------------------------------------------------------

namespace BsonView

open Grammar

/-
  The lengths of a scalar fit their fields, and no null byte
  ends a part of a regex too early.
-/
def Scalar.Fits : Scalar → Prop
| .string text | .javaScript text | .symbol text
| .dbPointer text _ =>
    (Bytes.ofText text).length + 1 ≤ Word.maxLength
| .binary _ data => data.length ≤ Word.maxLength
| .regex pattern options =>
    0 ∉ Bytes.ofText pattern ∧ 0 ∉ Bytes.ofText options
| _ => True

/- A scalar that fits is encoded in a form of its type. -/
theorem Scalar.Fits.scalarForm
    {scalar : Scalar}
    (hFits : scalar.Fits) :
    ScalarForm scalar.tag scalar.bytes := by
  have hText
      {tag : Tag}
      {text : String}
      (hTag : tag.isText = true)
      (hSize :
        (Bytes.ofText text).length + 1 ≤ Word.maxLength) :
      ScalarForm tag (stringBytes text) := by
    rw [stringBytes_eq]
    exact .text hTag hSize
  cases scalar with
  | string | javaScript | symbol => exact hText rfl hFits
  | binary subtype data =>
      have hForm : ScalarForm .binary
          (Word.ofLength data.length ++ ([subtype] ++ data)) :=
        .binary hFits
      rw [← List.append_assoc] at hForm
      exact hForm
  | regex pattern options =>
      have hForm := ScalarForm.regex hFits.1 hFits.2
      rw [← List.singleton_append, ← List.append_assoc]
        at hForm
      exact hForm
  | dbPointer name id =>
      have hForm := ScalarForm.dbPointer hFits id.length_eq
      rw [← stringBytes_eq] at hForm
      exact hForm
  | boolean b => cases b <;> exact .boolean (by decide)
  | objectId id =>
      exact .fixed nofun (congrArg some id.length_eq.symm)
  | decimal128 digits =>
      exact .fixed nofun (congrArg some digits.length_eq.symm)
  | double | dateTime | int32 | timestamp | int64 =>
      exact .fixed nofun rfl
  | undefined | null | minKey | maxKey =>
      exact .fixed nofun rfl

end BsonView
