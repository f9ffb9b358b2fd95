import BsonView.Proofs.Reading.Accesses
import BsonView.Reading
import BsonView.Validation.Views
import Mathlib.Data.List.TakeWhile

/-
  The check of a key and the key itself agree.

  Validation looks for the first null byte behind the type
  byte, as far as the buffer and the payload's position let
  it; access looks at the byte before the payload and for
  other null bytes before that. Wherever the two positions
  of a place are, a key is there for both or for neither,
  but for bytes that are no text, and both stay in the
  buffer.

  Main declarations:
    * `Bytes.FirstNullBehind`
    * `Place.keyLength_eq_ok_iff`
    * `Place.keyLengthAt`
    * `Place.keyAt`
    * `Element.key?_eq_some`
    * `Element.validateWith_of_badKey`
    * `key_check_agrees_with_key`
-/

------------------------------------------------------------
-- First Null Bytes
------------------------------------------------------------

namespace BsonView

namespace Bytes

/- The first null byte behind a position is at another. -/
structure FirstNullBehind
    (bytes : Bytes)
    (start stop : Nat) : Prop where
  start_lt : start < stop
  null : bytes[stop]? = some 0
  others :
    ∀ i, start < i → i < stop → bytes[i]? ≠ some 0

/- A byte is in none of the places between two positions. -/
theorem not_mem_between_iff
    {bytes : Bytes}
    {first stop : Nat}
    {b : UInt8} :
    b ∉ (bytes.take stop).drop first ↔
      ∀ i, first ≤ i → i < stop → bytes[i]? ≠ some b := by
  constructor
  · intro hNone i hFirst hStop hByte
    apply hNone
    apply List.mem_iff_getElem?.mpr
    refine ⟨i - first, ?_⟩
    rw [List.getElem?_drop, Nat.add_sub_cancel' hFirst,
      List.getElem?_take_of_lt hStop, hByte]
  · intro hOthers hMem
    rcases List.mem_iff_getElem?.mp hMem with ⟨j, hByte⟩
    rw [List.getElem?_drop, List.getElem?_take] at hByte
    split at hByte
    next hStop =>
      exact
        hOthers (first + j) (Nat.le_add_right _ _) hStop
          hByte
    · cases hByte

/- The number of bytes before the first null byte. -/
def textLength (bytes : Bytes) : Nat :=
  (bytes.takeWhile (· ≠ 0)).length

/- They are those before the null byte that is found. -/
theorem textLength_of_nullIndex?
    {bytes : Bytes}
    {n : Nat}
    (hIndex : nullIndex? bytes = some n) :
    bytes.textLength = n := by
  rcases split_of_nullIndex?_eq_some hIndex with
    ⟨text, rest, rfl, hText, rfl⟩
  unfold textLength
  have hNonzero : ∀ b ∈ text, decide (b ≠ 0) = true := by
    intro b hMem
    apply decide_eq_true
    rintro rfl
    exact hText hMem
  rw [List.takeWhile_append_of_pos hNonzero,
    List.takeWhile_cons_of_neg (by simp), List.append_nil]

/- They are all if none is found. -/
theorem textLength_of_nullIndex?_none
    {bytes : Bytes}
    (hIndex : nullIndex? bytes = none) :
    bytes.textLength = bytes.length := by
  have hNonzero :=
    List.findIdx?_eq_none_iff.mp hIndex
  unfold textLength
  rw [List.takeWhile_eq_self_iff.mpr]
  intro b hMem
  simpa using hNonzero b hMem

end Bytes

end BsonView

------------------------------------------------------------
-- Keys And Their Checks
------------------------------------------------------------

namespace BsonView

namespace Place

variable {place : Place}

/-
  The bytes of the key are those between the type byte and
  the byte before the payload.
-/
theorem key_of_keyBytes?
    {key : Bytes}
    (hKey : place.keyBytes? = some key) :
    (place.buffer.take (place.offset - 1)).drop
        (place.start + 1) = key := by
  unfold keyBytes? at hKey
  dsimp only at hKey
  split at hKey
  · exact Option.some.inj hKey
  · cases hKey

/-
  There is a key if and only if the payload is behind the
  type byte and in the buffer, and the byte before it is the
  first null byte behind the type byte.
-/
theorem exists_keyBytes?_iff :
    (∃ key, place.keyBytes? = some key) ↔
      place.start < place.offset ∧
        place.offset ≤ place.buffer.length ∧
        place.buffer.FirstNullBehind place.start
          (place.offset - 1) := by
  unfold keyBytes?
  dsimp only
  split
  next hThere =>
    rcases hThere with ⟨hReady, hLeast, hNull, hText⟩
    simp only [isInitialized, Bool.and_eq_true,
      decide_eq_true_eq] at hReady
    have hFirst :
        place.buffer.FirstNullBehind place.start
          (place.offset - 1) :=
      ⟨by omega, hNull,
        fun i hStart =>
          Bytes.not_mem_between_iff.mp hText i hStart⟩
    exact
      ⟨fun _ => ⟨hReady.1, hReady.2, hFirst⟩,
        fun _ => ⟨_, rfl⟩⟩
  next hNowhere =>
    constructor
    · rintro ⟨key, hKey⟩
      cases hKey
    · rintro ⟨hStart, hOffset, hLess, hNull, hOthers⟩
      refine absurd ⟨?_, ?_, hNull, ?_⟩ hNowhere
      · simp [isInitialized, hStart, hOffset]
      · omega
      · exact
          Bytes.not_mem_between_iff.mpr
            fun i hBehind => hOthers i hBehind

/-
  The check succeeds under the same conditions, and accounts
  for the bytes of the header without the type byte.
-/
theorem keyLength_eq_ok_iff
    {n : Nat} :
    place.keyLength = .ok n ↔
      place.start < place.offset ∧
        place.offset ≤ place.buffer.length ∧
        place.buffer.FirstNullBehind place.start
          (place.offset - 1) ∧
        1 + n = place.offset - place.start := by
  constructor
  · intro hLength
    rcases keyLength_eq_ok.mp hLength with
      ⟨key, hKey, rfl⟩
    rcases exists_keyBytes?_iff.mp ⟨key, hKey⟩ with
      ⟨hStart, hOffset, hFirst⟩
    have hHeader := headerLength_eq hKey
    unfold headerLength at hHeader
    exact ⟨hStart, hOffset, hFirst, by omega⟩
  · rintro ⟨hStart, hOffset, hFirst, hHeader⟩
    rcases exists_keyBytes?_iff.mpr
        ⟨hStart, hOffset, hFirst⟩ with
      ⟨key, hKey⟩
    have hLength := headerLength_eq hKey
    unfold headerLength at hLength
    exact keyLength_eq_ok.mpr ⟨key, hKey, by omega⟩

/-
  What is looked through for the end of the key: the bytes
  behind the type byte, up to the payload or to where the
  buffer ends.
-/
def keyWindow (place : Place) : Bytes :=
  (place.buffer.take
    (min place.offset place.buffer.length)).drop
      (place.start + 1)

/-
  The check of a key that is to begin in the buffer fails at
  the first null byte or where there is none left.
-/
theorem keyLength_of_bad
    (hBuffer : place.start < place.buffer.length)
    (hStart : place.start < place.offset)
    (hBad : ¬∃ n, place.keyLength = .ok n) :
    place.keyLength =
      .error
        (Error.invalidKey.after
          place.keyWindow.textLength) := by
  unfold keyLength at hBad ⊢
  dsimp only at hBad ⊢
  rw [if_neg (by omega)] at hBad ⊢
  split at hBad
  next length hIndex =>
    split at hBad
    · exact absurd ⟨_, rfl⟩ hBad
    next hElsewhere =>
      have hLength :
          place.keyWindow.textLength = length :=
        Bytes.textLength_of_nullIndex? hIndex
      rw [if_neg hElsewhere, hLength]
  next hIndex =>
    have hLength :
        place.keyWindow.textLength =
          place.keyWindow.length :=
      Bytes.textLength_of_nullIndex?_none hIndex
    rw [hLength]
    rfl

end Place

namespace Element

variable {element : Element}

/-
  The key is a text if and only if the check of the key
  succeeds and the bytes it stands for are that text.
-/
theorem key?_eq_some
    {key : String} :
    element.key? = some key ↔
      (∃ n, element.value.keyLength = .ok n) ∧
        (element.value.buffer.take
            (element.value.offset - 1)).drop
            (element.value.start + 1) =
          Bytes.ofText key := by
  unfold key?
  rw [Option.bind_eq_some_iff]
  constructor
  · rintro ⟨bytes, hBytes, hText⟩
    exact
      ⟨⟨_, Place.keyLength_eq_ok.mpr ⟨bytes, hBytes, rfl⟩⟩,
        (Place.key_of_keyBytes? hBytes).trans
          (Bytes.text?_eq_some.mp hText)⟩
  · rintro ⟨⟨n, hLength⟩, hBytes⟩
    rcases Place.keyLength_eq_ok.mp hLength with
      ⟨bytes, hKey, _⟩
    rw [Place.key_of_keyBytes? hKey] at hBytes
    exact ⟨bytes, hKey, Bytes.text?_eq_some.mpr hBytes⟩

/-
  Where the check of the key fails, validation does, and
  counts the type byte, too.
-/
theorem validateWith_of_badKey
    (hBuffer :
      element.value.start < element.value.buffer.length)
    (hStart : element.value.start < element.value.offset)
    (hBad : ¬∃ n, element.value.keyLength = .ok n)
    (limits : Limits) :
    element.validateWith limits =
      .error
        (Error.invalidKey.after
          (1 + element.value.keyWindow.textLength)) := by
  have hLength :=
    Place.keyLength_of_bad hBuffer hStart hBad
  rcases element with ⟨value⟩
  have hSome : ¬value.buffer.isEmpty = true := by
    intro hEmpty
    rw [List.isEmpty_iff.mp hEmpty] at hBuffer
    exact Nat.not_lt_zero _ hBuffer
  rw [validateWith, measure, if_neg hSome]
  dsimp only at hLength
  rw [hLength]
  rfl

/-
  Where it succeeds, validation goes on behind the header,
  whose bytes it counts.
-/
theorem validateWith_of_goodKey
    {n : Nat}
    (hLength : element.value.keyLength = .ok n)
    (limits : Limits) :
    element.validateWith limits =
      (element.value.validateWith limits).mapError
          (Failure.after
            (element.value.offset - element.value.start)) >>=
        fun length =>
          .ok
            (element.value.offset - element.value.start +
              length) := by
  rcases Place.keyLength_eq_ok_iff.mp hLength with
    ⟨hStart, hOffset, _, hHeader⟩
  rcases element with ⟨value⟩
  have hSome : ¬value.buffer.isEmpty = true := by
    intro hEmpty
    rw [List.isEmpty_iff.mp hEmpty, List.length_nil]
      at hOffset
    exact
      Nat.not_lt_zero _
        (Nat.lt_of_lt_of_le hStart hOffset)
  rw [validateWith, measure, if_neg hSome]
  dsimp only at hLength hHeader
  rw [hLength, ← hHeader]
  rfl

end Element

end BsonView

------------------------------------------------------------
-- Positions
------------------------------------------------------------

namespace BsonView

namespace Place

/-
  The check of the key with its accesses guarded. There is
  no answer if one of them is out of range.
-/
def keyLengthAt
    (place : Place) : Reaching Failure Nat := do
  if place.buffer.length ≤ place.start ∨
      place.offset ≤ place.start then
    Reaching.fail (Error.uninitializedValue.after 0)
  else
    let stop := min place.offset place.buffer.length
    let first ← Position.sum? place.start 1
    let bytes ← place.buffer.slice? first stop
    match bytes.nullIndex? with
    | some length =>
        if length + 1 = bytes.length ∧
            stop = place.offset then
          return length + 1
        else
          Reaching.fail (Error.invalidKey.after length)
    | none =>
        Reaching.fail (Error.invalidKey.after bytes.length)

/-
  The key with the accesses to it guarded. There is no
  answer if one of them is out of range.
-/
def keyAt
    (place : Place) : Option (Option String) := do
  if !place.isInitialized then
    return none
  else
    let least ← Position.sum? place.start 2
    if place.offset < least then
      return none
    else
      let first ← Position.sum? place.start 1
      let last ← Position.difference? place.offset 1
      let key ← place.buffer.slice? first last
      let closing ← place.buffer.byte? last
      if closing ≠ 0 ∨ 0 ∈ key then
        return none
      else
        return Bytes.text? key

variable {place : Place}

/- The check of a key stays in the buffer. -/
theorem keyLengthAt_keeps
    (hBuffer : place.buffer.Addressable) :
    place.keyLengthAt.Keeps place.keyLength := by
  unfold keyLengthAt keyLength
  dsimp only
  by_cases hNowhere :
      place.buffer.length ≤ place.start ∨
        place.offset ≤ place.start
  · rw [if_pos hNowhere, if_pos hNowhere]
    rfl
  rw [if_neg hNowhere, if_neg hNowhere]
  unfold Bytes.Addressable at hBuffer
  apply Reaching.keeps_access
    (Position.sum?_of_lt (by omega))
  apply Reaching.keeps_access
    (Bytes.slice?_of_le (by omega) (Nat.min_le_right _ _))
  generalize
    (place.buffer.take
      (min place.offset place.buffer.length)).drop
        (place.start + 1) = bytes
  cases Bytes.nullIndex? bytes with
  | none => rfl
  | some length => exact Reaching.keeps_ite rfl rfl

/-
  A place that is not initialized has no key, and none is
  looked for.
-/
theorem keyAt_of_uninitialized
    (hReady : place.isInitialized = false) :
    place.keyAt =
      some (place.keyBytes?.bind Bytes.text?) := by
  simp [keyAt, keyBytes?, hReady]

/- Access to a key stays in the buffer. -/
theorem keyAt_eq
    (hBuffer : place.buffer.Addressable) :
    place.keyAt =
      some (place.keyBytes?.bind Bytes.text?) := by
  rcases Bool.eq_false_or_eq_true place.isInitialized with
    hReady | hReady
  case inr => exact keyAt_of_uninitialized hReady
  have hBoth := hReady
  simp only [isInitialized, Bool.and_eq_true,
    decide_eq_true_eq] at hBoth
  unfold Bytes.Addressable at hBuffer
  have hEnd : place.offset - 1 < place.buffer.length := by
    omega
  -- The guards are met in the order of the accesses.
  unfold keyAt keyBytes?
  rw [if_neg (by simp [hReady])]
  apply Position.access_eq
    (Position.sum?_of_lt (by omega))
  by_cases hLeast : place.offset < place.start + 2
  · rw [if_pos hLeast, if_neg (by omega)]
    rfl
  rw [if_neg hLeast]
  apply Position.access_eq
    (Position.sum?_of_lt (by omega))
  apply Position.access_eq
    (Position.difference?_of_le (by omega))
  apply Position.access_eq
    (Bytes.slice?_of_le (by omega) (Nat.le_of_lt hEnd))
  apply Position.access_eq (List.getElem?_eq_getElem hEnd)
  dsimp only
  rw [List.getElem?_eq_getElem hEnd]
  split
  next hBad =>
    rw [if_neg]
    · rfl
    · rintro ⟨_, _, hNull, hText⟩
      exact
        hBad.elim (· (Option.some.inj hNull)) (hText ·)
  next hGood =>
    rcases not_or.mp hGood with ⟨hNull, hText⟩
    have hZero := Decidable.not_not.mp hNull
    rw [if_pos]
    · rfl
    · exact
        ⟨hReady, Nat.le_of_not_lt hLeast,
          congrArg some hZero, hText⟩

end Place

end BsonView

------------------------------------------------------------
-- Agreement
------------------------------------------------------------

namespace BsonView

/-
  Wherever the type byte and the payload of an element are,
  in the buffer or past it, the key is a text exactly where
  the check of it succeeds and its bytes are that text. The
  check succeeds exactly where the payload is behind the
  type byte, in the buffer, and right behind the first null
  byte; the bytes up to the payload are then counted by
  validation. If it fails for an element that begins in the
  buffer and before its payload, validation does, and has
  counted the type byte and what comes before the first null
  byte. Neither function looks at a byte that is not there.
-/
theorem key_check_agrees_with_key
    (element : Element) :
    let place := element.value.toPlace
    (∀ key : String,
      element.key? = some key ↔
        (∃ n, place.keyLength = .ok n) ∧
          (place.buffer.take (place.offset - 1)).drop
              (place.start + 1) = Bytes.ofText key) ∧
      (∀ n : Nat,
        place.keyLength = .ok n ↔
          place.start < place.offset ∧
            place.offset ≤ place.buffer.length ∧
            place.buffer.FirstNullBehind place.start
              (place.offset - 1) ∧
            1 + n = place.offset - place.start) ∧
      (∀ (n : Nat) (limits : Limits),
        place.keyLength = .ok n →
          element.validateWith limits =
            (element.value.validateWith limits).mapError
                (Failure.after
                  (place.offset - place.start)) >>=
              fun length =>
                .ok (place.offset - place.start + length)) ∧
      (∀ limits : Limits,
        place.start < place.buffer.length →
          place.start < place.offset →
            (¬∃ n, place.keyLength = .ok n) →
              element.validateWith limits =
                .error
                  (Error.invalidKey.after
                    (1 + place.keyWindow.textLength))) ∧
      (place.buffer.Addressable →
        place.keyLengthAt.Keeps place.keyLength ∧
          place.keyAt = some element.key?) := by
  intro place
  refine ⟨?_, ?_, ?_, ?_, ?_⟩
  · intro key
    exact Element.key?_eq_some
  · intro n
    exact Place.keyLength_eq_ok_iff
  · intro n limits hLength
    exact Element.validateWith_of_goodKey hLength limits
  · intro limits hBuffer hStart hBad
    exact
      Element.validateWith_of_badKey hBuffer hStart hBad
        limits
  · intro hBuffer
    exact
      ⟨Place.keyLengthAt_keeps hBuffer,
        Place.keyAt_eq hBuffer⟩

/-
  A null byte too early and a payload past the buffer: the
  check fails at the null byte or where the buffer ends.
-/
theorem bad_keys_fail_where_they_end :
    (Element.ofPositions [8, 97, 0, 98, 0, 1] 0
        5).validateWith .standard =
        .error (Error.invalidKey.after 2) ∧
      (Element.ofPositions [8, 97, 98] 0
          100).validateWith .standard =
        .error (Error.invalidKey.after 3) ∧
      (Element.ofPositions [8, 97, 0, 1] 0 3).key? =
        some "a" ∧
      (Element.ofPositions [8, 97, 98] 2
          18446744073709551615).value.keyAt =
        some none := by
  refine ⟨?_, ?_, ?_, ?_⟩
  · apply (key_check_agrees_with_key _).2.2.2.1 .standard
      (by decide) (by decide)
    rintro ⟨n, hLength⟩
    cases hLength
  · apply (key_check_agrees_with_key _).2.2.2.1 .standard
      (by decide) (by decide)
    rintro ⟨n, hLength⟩
    cases hLength
  · exact
      ((key_check_agrees_with_key _).1 "a").mpr
        ⟨⟨2, rfl⟩, rfl⟩
  · have hBuffer : Bytes.Addressable [8, 97, 98] := by
      unfold Bytes.Addressable
      decide
    exact
      ((key_check_agrees_with_key
        (Element.ofPositions [8, 97, 98] 2
          18446744073709551615)).2.2.2.2 hBuffer).2

end BsonView
