import BsonView.Proofs.Reading.Bodies
import BsonView.Proofs.Validation.Locality
import BsonView.Proofs.Validation.Walk
import BsonView.Proofs.Views.Measuring

/-
  Measures of what is read.

  A document that is read where it stands is measured as the
  bytes are validated there, failures included. The elements
  found see all of the buffer and the validator only the
  bytes that the document declares; what the splitting has
  measured makes that no difference.

  Main declarations:
    * `Value.measure_of_tag`
    * `Value.measure_raw`
    * `measureElements_of_split`
    * `Document.measure_of_readFrom`
    * `ArrayDoc.IndexKeyed`
    * `ArrayDoc.measure_of_readFrom`
    * `Document.validateWith_of_read`
    * `Document.show_of_read`
-/

------------------------------------------------------------
-- Elements
------------------------------------------------------------

namespace BsonView

open Grammar

variable {limits : Limits} {depth : Nat}

/- A value with a type is measured as its payload. -/
theorem Value.measure_of_tag
    {place : Place}
    {tag : Tag}
    (hTag : place.tag = .ok tag)
    (payload : Payload) :
    (⟨place, payload⟩ : Value).measure limits depth =
      payload.measure limits depth place tag := by
  rw [Value.measure, hTag]
  rfl

/- A value in a buffer is validated where it stands. -/
theorem Value.measure_raw
    {place : Place}
    {tag : Tag}
    (hTag : place.tag = .ok tag) :
    (⟨place, .raw⟩ : Value).measure limits depth =
      Validation.Plain.payload limits depth tag
        place.rest := by
  have hOffset := (Place.tag_eq_ok.mp hTag).2.1
  rw [Value.measure_of_tag hTag, Payload.measure,
    Validation.payload_eq_plain _ _ _ _ _ hOffset]
  rfl

/-
  An element at a position is measured as its header and its
  payload are validated in a part of the buffer that has the
  whole payload.
-/
theorem Element.measure_ofPositions
    {buffer key payload : Bytes}
    {tag : Tag}
    {pos length : Nat}
    (hKey : 0 ∉ key)
    (hFront :
      tag.byte :: (key ++ [0]) ++ payload <+:
        buffer.drop pos)
    (hLength :
      Framing.payloadLength tag payload = .ok length) :
    (ofPositions buffer pos (pos + (key.length + 2))).measure
        limits depth =
      (Validation.Plain.payload limits depth tag
          payload).mapError
          (Failure.after (key.length + 2)) >>=
        fun n => .ok (key.length + 2 + n) := by
  rcases Place.of_header
      ⟨buffer, pos, pos + (key.length + 2)⟩
      hKey rfl hFront with
    ⟨hTag, hText, hPayload⟩
  rw [ofPositions, Element.measure_of_key hText,
    Value.measure_raw hTag,
    Validation.Plain.payload_of_front hPayload hLength]

/-
  The elements that a body is split into are measured as the
  body is validated.
-/
theorem measureElements_of_split
    {buffer bytes : Bytes}
    {pos last : Nat}
    {spans : List Span}
    (hFront : bytes <+: buffer.drop pos)
    (hSplit : Span.split bytes pos = .ok (spans, last))
    (hLast : last + 1 = pos + bytes.length)
    (limits : Limits)
    (depth length total : Nat) :
    (measureElements limits depth total
        (spans.map (Element.ofSpan buffer)) >>=
      fun n => .ok (n + 1)) =
      Validation.Plain.elements limits depth length total
        bytes := by
  fun_induction Span.split bytes pos
    generalizing spans last total with
  | case1 => cases hSplit
  | case2 pos rest =>
      cases hSplit
      have hEnd : rest = [] := by
        apply List.eq_nil_of_length_eq_zero
        rw [List.length_cons] at hLast
        omega
      rw [hEnd, Validation.Plain.elements]
      rfl
  | case3 pos b rest hNull ih =>
      rcases bind_eq_ok.mp hSplit with ⟨tag, hTag, hSplit⟩
      rcases bind_eq_ok.mp hSplit with ⟨size, hSize, hSplit⟩
      rcases bind_eq_ok.mp hSplit with ⟨n, hLength, hSplit⟩
      rcases bind_eq_ok.mp hSplit with
        ⟨⟨more, stop⟩, hMore, hDone⟩
      cases hDone
      rcases Bytes.cstringLength_eq_ok.mp
          (mapError_eq_ok.mp hSize) with
        ⟨key, payload, rfl, hKey, rfl⟩
      have hByte : b = tag.byte := Framing.tag_eq_ok.mp hTag
      have hHeader :
          1 + key.length + 1 = key.length + 2 := by omega
      have hCount :
          (tag.byte :: (key ++ 0 :: payload)).length =
            key.length + 2 + payload.length := by
        simp
        omega
      rw [hByte] at hFront hLast
      rw [hCount] at hLast
      rw [Bytes.drop_terminated] at hLength
      have hThere := Framing.payloadLength_le hLength
      -- the same parts of the buffer, behind this element
      have hBehind :
          payload.drop n <+:
            buffer.drop (pos + (1 + key.length + 1) + n) := by
        have hDrop := hFront.drop (1 + key.length + 1 + n)
        rw [Bytes.drop_header, ← List.drop_drop,
          Bytes.drop_terminated, List.drop_drop,
          ← Nat.add_assoc] at hDrop
        exact hDrop
      have hRest :=
        ih key.length n
          (by
            rw [Bytes.drop_terminated]
            exact hBehind)
          hMore
          (by
            rw [Bytes.drop_terminated, List.length_drop]
            omega)
      rw [Bytes.drop_terminated] at hRest
      have hWhole :
          tag.byte :: (key ++ [0]) ++ payload <+:
            buffer.drop pos := by
        rw [List.cons_append, List.append_assoc]
        exact hFront
      rw [List.map_cons, measureElements, Element.ofSpan,
        hHeader,
        Element.measure_ofPositions hKey hWhole hLength,
        hByte, Validation.Plain.elements_of_header hKey]
      cases hPayload :
          Validation.Plain.payload limits depth tag
            payload with
      | error failure =>
          simp only [mapError_error, error_bind,
            Failure.after_after]
      | ok size =>
          have hSame :=
            Validation.Plain.payloadLength_of_payload_eq_ok
              hPayload
          rw [hLength] at hSame
          cases hSame
          simp only [mapError_ok, ok_bind]
          exact hRest _

end BsonView

------------------------------------------------------------
-- Documents And Arrays
------------------------------------------------------------

namespace BsonView

variable {limits : Limits} {depth : Nat}

/- What was read as a document declares its length. -/
theorem Document.of_spansFrom_eq_ok
    {buffer : Bytes}
    {offset : Nat}
    {spans : List Span}
    (hSpans : spansFrom buffer offset = .ok spans) :
    ∃ length last,
      Framing.documentLength (buffer.drop offset) =
          .ok length ∧
        Span.split
            (((buffer.drop offset).take length).drop 4)
            (offset + 4) = .ok (spans, last) ∧
        last + 1 = offset + length := by
  rcases bind_eq_ok.mp hSpans with ⟨length, hLength, hRest⟩
  dsimp only at hRest
  split at hRest
  · cases hRest
  next hThere =>
    rcases bind_eq_ok.mp hRest with
      ⟨⟨found, last⟩, hFound, hDone⟩
    dsimp only at hDone
    split at hDone
    · cases hDone
    next hLast =>
      cases hDone
      refine ⟨length, last, ?_, ?_, by omega⟩
      · refine Framing.documentLength_eq_ok.mpr
          ⟨hLength, by omega, ?_⟩
        rw [List.length_drop]
        omega
      · rw [List.take_drop, List.drop_drop]
        exact hFound

/-
  A document that is read where it stands is measured as it
  is validated there.
-/
theorem Document.measure_of_readFrom
    {buffer : Bytes}
    {offset : Nat}
    {doc : Document}
    (hRead : readFrom buffer offset = .ok doc) :
    doc.measure limits depth =
      Validation.Plain.document limits depth
        (buffer.drop offset) := by
  rcases bind_eq_ok.mp hRead with ⟨spans, hSpans, hDoc⟩
  cases hDoc
  rcases of_spansFrom_eq_ok hSpans with
    ⟨length, last, hLength, hSplit, hLast⟩
  rcases Framing.documentLength_eq_ok.mp hLength with
    ⟨_, hLeast, hThere⟩
  have hFront :
      ((buffer.drop offset).take length).drop 4 <+:
        buffer.drop (offset + 4) := by
    rw [← List.drop_drop]
    exact (List.take_prefix _ _).drop 4
  have hElements :=
    measureElements_of_split hFront hSplit
      (by
        rw [List.length_drop, List.length_take]
        unfold Framing.emptyLength at hLeast
        omega)
      limits depth length 4
  rw [Document.measure, Validation.Plain.document, hLength]
  simp only [lift_eq_mapError, mapError_ok, ok_bind,
    ← hElements]
  rfl

/-
  The values of the array have their indices for keys in the
  buffers that they are in.
-/
def ArrayDoc.IndexKeyed (array : ArrayDoc) : Prop :=
  ∀ index element,
    array.elements[index]? = some element →
      element.value.keyBytes? = some (Index.digits index)

/- With indices for keys, values measure as elements do. -/
theorem measureValues_of_keyed
    {elements : List Element}
    {index : Nat}
    (hKeyed :
      ∀ place element,
        elements[place]? = some element →
          element.value.keyBytes? =
            some (Index.digits (index + place)))
    (limits : Limits)
    (depth total : Nat) :
    measureValues limits depth index total elements =
      measureElements limits depth total elements := by
  induction elements generalizing index total with
  | nil => rfl
  | cons first rest ih =>
      rcases first with ⟨value⟩
      have hKey :
          value.keyBytes? = some (Index.digits index) :=
        hKeyed 0 ⟨value⟩ rfl
      have hRest (place : Nat) (element : Element)
          (hElement : rest[place]? = some element) :
          element.value.keyBytes? =
            some (Index.digits (index + 1 + place)) := by
        have hLater := hKeyed (place + 1) element hElement
        rw [Nat.add_assoc, Nat.add_comm 1 place]
        exact hLater
      rw [measureValues_cons_of_key hKey, measureElements,
        Element.measure_of_key hKey,
        Place.headerLength_eq hKey]
      cases value.measure limits depth with
      | error failure =>
          simp only [mapError_error, error_bind,
            Failure.after_after]
      | ok n =>
          simp only [mapError_ok, ok_bind]
          exact ih hRest _

/-
  An array that is read where it stands, with its indices
  for keys, is measured as it is validated there.
-/
theorem ArrayDoc.measure_of_readFrom
    {buffer : Bytes}
    {offset : Nat}
    {array : ArrayDoc}
    (hRead : readFrom buffer offset = .ok array)
    (hKeyed : array.IndexKeyed) :
    array.measure limits depth =
      Validation.Plain.document limits depth
        (buffer.drop offset) := by
  rcases bind_eq_ok.mp hRead with
    ⟨⟨elements⟩, hDoc, hArray⟩
  cases hArray
  have hFirst (place : Nat) (element : Element)
      (hElement : elements[place]? = some element) :
      element.value.keyBytes? =
        some (Index.digits (0 + place)) := by
    rw [Nat.zero_add]
    exact hKeyed place element hElement
  have hValues :=
    measureValues_of_keyed hFirst limits depth 4
  rw [← Document.measure_of_readFrom hDoc,
    ArrayDoc.measure, Document.measure, hValues]

end BsonView

------------------------------------------------------------
-- Whole Buffers
------------------------------------------------------------

namespace BsonView

open Grammar

/- A document is read out of bytes that are as many. -/
theorem Document.of_read_eq_ok
    {bytes : Bytes}
    {doc : Document}
    (hRead : read bytes = .ok doc) :
    readFrom bytes 0 = .ok doc ∧
      Word.readLength bytes = .ok bytes.length := by
  rcases bind_eq_ok.mp hRead with ⟨found, hFound, hWhole⟩
  rcases bind_eq_ok.mp hWhole with ⟨length, hLength, hDone⟩
  dsimp only at hDone
  split at hDone
  · cases hDone
  next hSame =>
    cases hDone
    rw [Decidable.not_not.mp hSame] at hLength
    exact ⟨hFound, hLength⟩

/-
  A document that is all of some bytes is as valid as they
  are.
-/
theorem Document.validateWith_of_read
    {bytes : Bytes}
    {doc : Document}
    (hRead : read bytes = .ok doc)
    (limits : Limits) :
    doc.validateWith limits =
      Validation.document limits bytes 0 0 := by
  rw [Validation.document_eq_plain]
  exact measure_of_readFrom (of_read_eq_ok hRead).1

/-
  Bytes that are read as a document, a valid one, are the
  encoding of one, and the views show its elements.
-/
theorem Document.show_of_read
    {bytes : Bytes}
    {doc : Document}
    {limits : Limits}
    {n : Nat}
    (hRead : read bytes = .ok doc)
    (hValid : doc.validateWith limits = .ok n) :
    ∃ fields, IsDocument fields ∧
      documentBytes fields = bytes ∧
      bodyHeight fields ≤ limits.maxDepth ∧
      elementsShow doc.elements fields := by
  rw [validateWith_of_read hRead,
    Validation.document_eq_plain, List.drop_zero] at hValid
  rcases Validation.Plain.document_eq_ok_iff.mp hValid with
    ⟨fields, hFields, hFront, _, hHeight⟩
  have hLength :=
    readLength_of_form hFields.2 hFront
  rw [(of_read_eq_ok hRead).2] at hLength
  have hWhole : documentBytes fields = bytes :=
    hFront.eq_of_length (Except.ok.inj hLength).symm
  rcases read_show_of_isDocument hFields with
    ⟨found, hFound, hShow⟩
  rw [hWhole, hRead] at hFound
  cases hFound
  exact ⟨fields, hFields, hWhole, by omega, hShow⟩

end BsonView
