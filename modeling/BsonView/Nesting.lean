import BsonView.Access

/-
  How far values can nest.

  Whoever visits everything inside a value goes from it to
  the elements of its container, whether these are opened or
  still in the buffer. The rank of a value bounds how long
  that can go on: each element found in a container has a
  smaller rank than the container's value. In a buffer the
  payload moves to the right; in an opened container the
  element is a part of it.

  Main declarations:
    * `Value.rank`
    * `Value.rank_lt_of_asDocument`
    * `Value.rank_lt_of_asArray`
    * `Value.rank_lt_of_asCodeWithScope`
-/

------------------------------------------------------------
-- Rank
------------------------------------------------------------

namespace BsonView

/- The number of bytes from the payload on. -/
def Place.room (place : Place) : Nat :=
  place.buffer.length - place.offset

mutual

/-
  The bytes from the payload on, and the rank of what the
  opened container holds.
-/
def Value.rank : Value → Nat
| ⟨place, payload⟩ => place.room + payload.rank

/- The rank of an opened container. -/
def Payload.rank : Payload → Nat
| .raw => 0
| .document doc => doc.rank + 1
| .array array => array.rank + 1

/- The rank of a document's elements. -/
def Document.rank : Document → Nat
| ⟨elements⟩ => elementsRank elements

/- The rank of an array's elements. -/
def ArrayDoc.rank : ArrayDoc → Nat
| ⟨elements⟩ => elementsRank elements

/- The ranks of all values together. -/
def elementsRank : List Element → Nat
| [] => 0
| ⟨value⟩ :: rest => value.rank + elementsRank rest

end

/- One value's rank is at most that of all together. -/
theorem rank_le_elementsRank
    {elements : List Element}
    {element : Element}
    (hMem : element ∈ elements) :
    element.value.rank ≤ elementsRank elements := by
  induction elements with
  | nil => cases hMem
  | cons first rest ih =>
      rcases first with ⟨value⟩
      rcases List.mem_cons.mp hMem with rfl | hRest
      · simp [elementsRank]
      · have := ih hRest
        simp only [elementsRank]
        omega

end BsonView

------------------------------------------------------------
-- Containers In Buffers
------------------------------------------------------------

namespace BsonView

namespace Word

/- A length can be read only where there are bytes. -/
theorem lt_length_of_readLength
    {buffer : Bytes}
    {offset length : Nat}
    (hRead :
      readLength (buffer.drop offset) = .ok length) :
    offset < buffer.length := by
  by_cases hInside : offset < buffer.length
  · exact hInside
  · have hEmpty : buffer.drop offset = [] :=
      List.drop_eq_nil_of_le (Nat.le_of_not_lt hInside)
    rw [hEmpty] at hRead
    cases hRead

end Word

namespace Document

/- Every payload found comes after the document's start. -/
theorem offset_of_mem_spansFrom
    {buffer : Bytes}
    {offset : Nat}
    {spans : List Span}
    (hSpans : spansFrom buffer offset = .ok spans)
    {span : Span}
    (hMem : span ∈ spans) :
    offset < span.offset := by
  rcases bind_eq_ok.mp hSpans with ⟨length, _, hRest⟩
  dsimp only at hRest
  split at hRest
  · cases hRest
  rcases bind_eq_ok.mp hRest with
    ⟨⟨found, last⟩, hFound, hDone⟩
  dsimp only at hDone
  split at hDone
  · cases hDone
  cases hDone
  have hPast := Span.offset_of_mem_split hFound hMem
  omega

/-
  An element found in a buffer is still in its buffer, with
  less room than the document around it.
-/
theorem rank_lt_of_readFrom
    {buffer : Bytes}
    {offset : Nat}
    {doc : Document}
    (hRead : readFrom buffer offset = .ok doc)
    {element : Element}
    (hMem : element ∈ doc.elements) :
    element.value.rank < buffer.length - offset := by
  rcases bind_eq_ok.mp hRead with ⟨spans, hSpans, hDoc⟩
  cases hDoc
  rcases List.mem_map.mp hMem with ⟨span, hSpan, rfl⟩
  rcases bind_eq_ok.mp hSpans with ⟨length, hLength, hRest⟩
  have hRoom := Word.lt_length_of_readLength hLength
  have hPast := offset_of_mem_spansFrom hSpans hSpan
  simp only [Element.ofSpan, Element.ofPositions,
    Value.rank, Payload.rank, Place.room]
  omega

end Document

end BsonView

------------------------------------------------------------
-- Containers
------------------------------------------------------------

namespace BsonView

namespace Value

/- The room of a value's place is a part of its rank. -/
theorem room_le_rank
    (value : Value) :
    value.room ≤ value.rank := by
  rcases value with ⟨place, payload⟩
  exact Nat.le_add_right _ _

/- Going into a document in a buffer lowers the rank. -/
theorem rank_lt_of_readDocument
    {value : Value}
    {doc : Document}
    (hRead : value.readDocument = .ok doc)
    {element : Element}
    (hMem : element ∈ doc.elements) :
    element.value.rank < value.rank :=
  Nat.lt_of_lt_of_le
    (Document.rank_lt_of_readFrom hRead hMem)
    value.room_le_rank

/- Going into an array in a buffer lowers the rank. -/
theorem rank_lt_of_readArray
    {value : Value}
    {array : ArrayDoc}
    (hRead : value.readArray = .ok array)
    {element : Element}
    (hMem : element ∈ array.elements) :
    element.value.rank < value.rank := by
  rcases bind_eq_ok.mp hRead with ⟨doc, hDoc, hArray⟩
  cases hArray
  exact rank_lt_of_readDocument hDoc hMem

/- Going into a scope in a buffer lowers the rank. -/
theorem rank_lt_of_readScope
    {value : Value}
    {scope : Document}
    (hRead : value.readScope = .ok scope)
    {element : Element}
    (hMem : element ∈ scope.elements) :
    element.value.rank < value.rank := by
  rcases bind_eq_ok.mp hRead with ⟨lead, _, hScope⟩
  have hRoom := Document.rank_lt_of_readFrom hScope hMem
  have hRank := value.room_le_rank
  simp only [Place.room] at hRank
  omega

/- Going into an opened document lowers the rank. -/
theorem rank_lt_of_document
    {value : Value}
    {doc : Document}
    (hPayload : value.payload = .document doc)
    {element : Element}
    (hMem : element ∈ doc.elements) :
    element.value.rank < value.rank := by
  rcases value with ⟨place, payload⟩
  rcases doc with ⟨elements⟩
  cases hPayload
  have := rank_le_elementsRank hMem
  simp only [rank, Payload.rank, Document.rank] at *
  omega

/- Going into an opened array lowers the rank. -/
theorem rank_lt_of_array
    {value : Value}
    {array : ArrayDoc}
    (hPayload : value.payload = .array array)
    {element : Element}
    (hMem : element ∈ array.elements) :
    element.value.rank < value.rank := by
  rcases value with ⟨place, payload⟩
  rcases array with ⟨elements⟩
  cases hPayload
  have := rank_le_elementsRank hMem
  simp only [rank, Payload.rank, ArrayDoc.rank] at *
  omega

/- Going into an embedded document lowers the rank. -/
theorem rank_lt_of_asDocument
    {value : Value}
    {doc : Document}
    (hDoc : value.asDocument = .ok doc)
    {element : Element}
    (hMem : element ∈ doc.elements) :
    element.value.rank < value.rank := by
  rcases bind_eq_ok.mp hDoc with ⟨_, _, hFound⟩
  split at hFound
  next hPayload =>
    cases hFound
    exact rank_lt_of_document hPayload hMem
  · exact rank_lt_of_readDocument hFound hMem

/- Going into an array lowers the rank. -/
theorem rank_lt_of_asArray
    {value : Value}
    {array : ArrayDoc}
    (hArray : value.asArray = .ok array)
    {element : Element}
    (hMem : element ∈ array.elements) :
    element.value.rank < value.rank := by
  rcases bind_eq_ok.mp hArray with ⟨_, _, hFound⟩
  split at hFound
  next hPayload =>
    cases hFound
    exact rank_lt_of_array hPayload hMem
  · exact rank_lt_of_readArray hFound hMem

/- Going into the scope of some code lowers the rank. -/
theorem rank_lt_of_asCodeWithScope
    {value : Value}
    {code : String}
    {scope : Document}
    (hCode :
      value.asCodeWithScope = .ok (code, scope))
    {element : Element}
    (hMem : element ∈ scope.elements) :
    element.value.rank < value.rank := by
  rcases bind_eq_ok.mp hCode with ⟨_, _, hText⟩
  rcases bind_eq_ok.mp hText with ⟨text, _, hFound⟩
  split at hFound
  next hPayload =>
    cases hFound
    exact rank_lt_of_document hPayload hMem
  · rcases bind_eq_ok.mp hFound with ⟨found, hRead, hDone⟩
    cases hDone
    exact rank_lt_of_readScope hRead hMem

end Value

end BsonView
