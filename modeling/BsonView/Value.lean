import BsonView.Framing

/-
  Values, elements, documents and arrays as views of
  buffers.

  A value is a place in a buffer: the position of its type
  byte and the position of its payload, with the key of its
  element between the two. Nothing is decoded until it is
  asked for. A container that has been opened for editing
  carries its decoded form, which supersedes the encoded
  document in the buffer; the bytes before that document
  (type byte, key, and the string of a code with scope) are
  still the buffer's.

  Main declarations:
    * `Place`
    * `Value`
    * `Payload`
    * `Element`
    * `Document`
    * `ArrayDoc`
    * `Place.isInitialized`
    * `Place.tag`
    * `Place.payloadBytes`
    * `Place.payloadBytes_eq`
    * `Place.payloadBytes_eq_ok`
    * `Place.keyBytes?`
    * `Place.keyLength`
    * `Element.key?`
-/

------------------------------------------------------------
-- Views
------------------------------------------------------------

namespace BsonView

/-
  A place in a buffer: the position `start` of an element's
  type byte and the position `offset` of its payload.
-/
structure Place where
  buffer : Bytes
  start : Nat
  offset : Nat
deriving DecidableEq, Repr

mutual

/-
  A place in a buffer with the content that is found there.
-/
structure Value extends Place where
  payload : Payload

/-
  Where the content of a value is: in its buffer, or in a
  decoded container. The decoded document of a code with
  scope is its scope.
-/
inductive Payload where
| raw
| document (document : Document)
| array (array : ArrayDoc)

/-
  A key with a value. The key is in the value's buffer,
  between the type byte and the payload.
-/
structure Element where
  value : Value

/- Elements in order. Keys may repeat. -/
structure Document where
  elements : List Element

/-
  A document whose keys are the decimal positions of its
  values, whatever keys the elements carry.
-/
structure ArrayDoc where
  elements : List Element

end

namespace Value

/- The view of nothing, which is not initialized. -/
def blank : Value := ⟨⟨[], 0, 0⟩, .raw⟩

end Value

namespace Element

/- The element without a buffer. -/
def blank : Element := ⟨.blank⟩

end Element

namespace Document

/- The document without elements. -/
def empty : Document := ⟨[]⟩

/- The number of elements. -/
def length (doc : Document) : Nat :=
  doc.elements.length

end Document

namespace ArrayDoc

/- The array without values. -/
def empty : ArrayDoc := ⟨[]⟩

/- The number of values. -/
def length (array : ArrayDoc) : Nat :=
  array.elements.length

/- The values in order. -/
def values (array : ArrayDoc) : List Value :=
  array.elements.map Element.value

end ArrayDoc

end BsonView

------------------------------------------------------------
-- Places
------------------------------------------------------------

namespace BsonView

namespace Place

/-
  A place is initialized when its type byte comes before its
  payload and both positions are in its buffer.
-/
def isInitialized (place : Place) : Bool :=
  place.start < place.offset &&
    place.offset ≤ place.buffer.length

/- The type announced by the type byte. -/
def tag (place : Place) : Except Error Tag :=
  if place.isInitialized then
    Framing.tag (place.buffer.getD place.start 0)
  else
    .error .uninitializedValue

/- Require a type. -/
def checkTag
    (place : Place)
    (expected : Tag) : Except Error Unit := do
  let actual ← place.tag
  if actual ≠ expected then
    throw (.typeMismatch expected actual)

/- The buffer from the payload on. -/
def rest (place : Place) : Bytes :=
  place.buffer.drop place.offset

/- Number of bytes from the type byte to the payload. -/
def headerLength (place : Place) : Nat :=
  place.offset - place.start

/-
  The payload as the buffer has it. For an opened container
  these are the superseded bytes.
-/
def payloadBytes (place : Place) : Except Error Bytes := do
  let tag ← place.tag
  let length ← Framing.payloadLength tag place.rest
  return place.rest.take length

/-
  The bytes of the key. They must be closed by a null byte
  right before the payload and hold no other.
-/
def keyBytes? (place : Place) : Option Bytes :=
  let stop := place.offset - 1
  let key :=
    (place.buffer.take stop).drop (place.start + 1)
  if place.isInitialized ∧
      place.start + 2 ≤ place.offset ∧
      place.buffer[stop]? = some 0 ∧
      0 ∉ key then
    some key
  else
    none

/-
  Length of the key with its null byte.

  The first null byte after the type byte must be the last
  byte before the payload. The search ends with the buffer
  when the payload would begin beyond it.
-/
def keyLength (place : Place) : Except Failure Nat :=
  let stop := min place.offset place.buffer.length
  let bytes :=
    (place.buffer.take stop).drop (place.start + 1)
  if place.buffer.length ≤ place.start ∨
      place.offset ≤ place.start then
    .error (Error.uninitializedValue.after 0)
  else
    match Bytes.nullIndex? bytes with
    | some length =>
        if length + 1 = bytes.length ∧
            stop = place.offset then
          .ok (length + 1)
        else
          .error (Error.invalidKey.after length)
    | none =>
        .error (Error.invalidKey.after bytes.length)

/-
  A place has a type when it is initialized and its first
  byte announces that type.
-/
theorem tag_eq_ok
    {place : Place}
    {tag : Tag} :
    place.tag = .ok tag ↔
      place.start < place.offset ∧
        place.offset ≤ place.buffer.length ∧
        place.buffer[place.start]? = some tag.byte := by
  unfold Place.tag isInitialized
  by_cases hThere :
      place.start < place.offset ∧
        place.offset ≤ place.buffer.length
  · have hByte : place.start < place.buffer.length := by
      omega
    simp [hThere, Framing.tag_eq_ok, hByte]
  · rw [if_neg (by simpa using hThere)]
    constructor
    · intro hTag
      cases hTag
    · intro hBoth
      rcases hBoth with ⟨hStart, hOffset, _⟩
      exact absurd ⟨hStart, hOffset⟩ hThere

/- A type is required where it is the type. -/
theorem checkTag_eq_ok
    {place : Place}
    {expected : Tag} :
    place.checkTag expected = .ok () ↔
      place.tag = .ok expected := by
  unfold checkTag
  rw [bind_eq_ok]
  constructor
  · intro hExists
    rcases hExists with ⟨actual, hTag, hSame⟩
    split at hSame
    · cases hSame
    next hEqual => rw [hTag, Decidable.not_not.mp hEqual]
  · intro hTag
    refine ⟨expected, hTag, ?_⟩
    rw [if_neg (by simp)]
    rfl

/- The payload is as long as its framing says. -/
theorem payloadBytes_eq
    {place : Place}
    {tag : Tag}
    {n : Nat}
    (hTag : place.tag = .ok tag)
    (hLength :
      Framing.payloadLength tag place.rest = .ok n) :
    place.payloadBytes = .ok (place.rest.take n) := by
  unfold payloadBytes
  rw [hTag, ok_bind, hLength]
  rfl

/- Its bytes are as many as its framing says. -/
theorem payloadBytes_eq_ok
    {place : Place}
    {tag : Tag}
    {bytes : Bytes}
    (hTag : place.tag = .ok tag) :
    place.payloadBytes = .ok bytes ↔
      ∃ n, Framing.payloadLength tag place.rest = .ok n ∧
        place.rest.take n = bytes := by
  constructor
  · intro hBytes
    rcases bind_eq_ok.mp hBytes with ⟨own, hOwn, hRest⟩
    cases hTag.symm.trans hOwn
    rcases bind_eq_ok.mp hRest with ⟨n, hLength, hTake⟩
    exact ⟨n, hLength, Except.ok.inj hTake⟩
  · rintro ⟨n, hLength, rfl⟩
    exact payloadBytes_eq hTag hLength

/-
  The key of a place is what stands between its type byte
  and a null byte right before its payload.
-/
theorem keyBytes?_eq_some
    {place : Place}
    {key : Bytes} :
    place.keyBytes? = some key ↔
      place.offset ≤ place.buffer.length ∧
        (place.buffer.take place.offset).drop
            (place.start + 1) = key ++ [0] ∧
        0 ∉ key := by
  have hSplit
      (hStart : place.start + 2 ≤ place.offset)
      (hOffset : place.offset ≤ place.buffer.length) :
      (place.buffer.take place.offset).drop
          (place.start + 1) =
        (place.buffer.take (place.offset - 1)).drop
            (place.start + 1) ++
          [place.buffer[place.offset - 1]] := by
    have hLast : place.offset - 1 < place.buffer.length := by
      omega
    have hTake := List.take_succ_eq_append_getElem hLast
    rw [Nat.sub_add_cancel (by omega)] at hTake
    rw [hTake,
      List.drop_append_of_le_length (by simp; omega)]
  unfold keyBytes? isInitialized
  constructor
  · intro hKey
    dsimp only at hKey
    split at hKey
    next hValid =>
      cases hKey
      rcases hValid with ⟨hThere, hStart, hNull, hText⟩
      have hOffset : place.offset ≤ place.buffer.length := by
        simp at hThere
        exact hThere.2
      rcases List.getElem?_eq_some_iff.mp hNull with
        ⟨_, hZero⟩
      rw [hSplit hStart hOffset, hZero]
      exact ⟨hOffset, rfl, hText⟩
    · cases hKey
  · intro hBoth
    rcases hBoth with ⟨hOffset, hBytes, hText⟩
    have hLength := congrArg List.length hBytes
    rw [List.length_drop, List.length_take,
      List.length_append, List.length_singleton] at hLength
    have hStart : place.start + 2 ≤ place.offset := by omega
    rw [hSplit hStart hOffset] at hBytes
    rcases List.append_inj' hBytes rfl with ⟨hKey, hNull⟩
    have hThere :
        place.buffer[place.offset - 1]? = some 0 := by
      rw [List.getElem?_eq_getElem (by omega),
        List.singleton_inj.mp hNull]
    dsimp only
    rw [hKey, if_pos]
    refine ⟨?_, hStart, hThere, hText⟩
    simp
    omega

/- The key counts with its null byte. -/
theorem keyLength_eq_ok
    {place : Place}
    {n : Nat} :
    place.keyLength = .ok n ↔
      ∃ key, place.keyBytes? = some key ∧
        n = key.length + 1 := by
  unfold keyLength
  constructor
  · intro hLength
    dsimp only at hLength
    split at hLength
    · cases hLength
    split at hLength
    next length hIndex =>
      split at hLength
      next hLast =>
        cases hLength
        rcases hLast with ⟨hWhole, hOffset⟩
        rw [hOffset] at hIndex hWhole
        rcases Bytes.split_of_nullIndex?_eq_some hIndex with
          ⟨key, rest, hBytes, hKey, rfl⟩
        rw [hBytes, List.length_append, List.length_cons]
          at hWhole
        have hEnd : rest = [] := by
          apply List.eq_nil_of_length_eq_zero
          omega
        rw [hEnd] at hBytes
        refine ⟨key, ?_, rfl⟩
        exact keyBytes?_eq_some.mpr
          ⟨by omega, hBytes, hKey⟩
      · cases hLength
    · cases hLength
  · intro hExists
    rcases hExists with ⟨key, hKey, rfl⟩
    rcases keyBytes?_eq_some.mp hKey with
      ⟨hOffset, hBytes, hText⟩
    have hLength := congrArg List.length hBytes
    rw [List.length_drop, List.length_take,
      List.length_append, List.length_singleton] at hLength
    dsimp only
    rw [if_neg (by omega), Nat.min_eq_left hOffset, hBytes,
      Bytes.nullIndex?_append hText]
    simp

/- The header is the type byte, the key and a null byte. -/
theorem header_eq
    {place : Place}
    {tag : Tag}
    {key : Bytes}
    (hTag : place.tag = .ok tag)
    (hKey : place.keyBytes? = some key) :
    (place.buffer.take place.offset).drop place.start =
      tag.byte :: (key ++ [0]) := by
  rcases tag_eq_ok.mp hTag with ⟨hStart, hOffset, hByte⟩
  rcases keyBytes?_eq_some.mp hKey with ⟨_, hBytes, _⟩
  have hInside :
      place.start <
        (place.buffer.take place.offset).length := by
    rw [List.length_take]
    omega
  rw [List.drop_eq_getElem_cons hInside, hBytes,
    List.getElem_take]
  rw [List.getElem?_eq_getElem (by omega)] at hByte
  rw [Option.some.inj hByte]

/- The header is as long as the key and two bytes more. -/
theorem headerLength_eq
    {place : Place}
    {key : Bytes}
    (hKey : place.keyBytes? = some key) :
    place.headerLength = key.length + 2 := by
  rcases keyBytes?_eq_some.mp hKey with
    ⟨hOffset, hBytes, _⟩
  have hLength := congrArg List.length hBytes
  rw [List.length_drop, List.length_take,
    List.length_append, List.length_singleton] at hLength
  unfold headerLength
  omega

end Place

end BsonView

------------------------------------------------------------
-- Keys
------------------------------------------------------------

namespace BsonView

namespace Element

/- The key, if there is a readable one. -/
def key? (element : Element) : Option String :=
  element.value.keyBytes?.bind Bytes.text?

/- The key, which has to be readable. -/
def key (element : Element) : Except Error String :=
  match element.key? with
  | some key => .ok key
  | none => .error .uninitializedValue

end Element

end BsonView
