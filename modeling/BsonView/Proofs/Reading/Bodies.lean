import BsonView.Proofs.Views.Content
import BsonView.Reading

/-
  Reading encodings back.

  Splitting the encoding of a document finds its elements
  where they stand. The views of them show the trees that
  they are the encodings of, and hold what those say.

  Main declarations:
    * `Grammar.bodySpans`
    * `Span.split_body`
    * `Place.of_header`
    * `Value.Shows`
    * `elementsShow`
    * `elementsHold_of_show`
    * `Document.readFrom_of_front`
    * `Document.read_of_isDocument`
    * `ArrayDoc.read_of_isDocument`
    * `Element.read_of_wellFormed`
-/

------------------------------------------------------------
-- Spans Of Elements
------------------------------------------------------------

namespace BsonView

open Grammar

/- Where the elements of a body at a position stand. -/
def Grammar.bodySpans : Nat → List ParseField → List Span
| _, [] => []
| pos, ⟨key, tree⟩ :: rest =>
    ⟨pos, pos + (key.length + 2)⟩ ::
      bodySpans
        (pos + (key.length + 2) + tree.bytes.length) rest

/- The type byte of an element is not a closing one. -/
theorem Span.split_cons
    {b : UInt8}
    (hNull : b ≠ 0)
    (rest : Bytes)
    (pos : Nat) :
    Span.split (b :: rest) pos =
      (do
        let tag ← Framing.tag b
        let key ←
          (Bytes.cstringLength rest).mapError
            fun _ => .invalidKey
        let header := 1 + key + 1
        let payload := rest.drop (key + 1)
        let length ← Framing.payloadLength tag payload
        let (spans, stop) ←
          Span.split (payload.drop length)
            (pos + header + length)
        return (⟨pos, pos + header⟩ :: spans, stop)) := by
  rw [Span.split.eq_def]
  split
  · rename_i hNil
    cases hNil
  · rename_i hCons
    cases hCons
    exact absurd rfl hNull
  · rename_i hCons
    cases hCons
    rfl

/- The elements of a body are found where they stand. -/
theorem Span.split_body
    {fields : List ParseField}
    (hWell : BodyWellFormed fields)
    (pos : Nat) :
    Span.split (bodyBytes fields ++ [0]) pos =
      .ok (bodySpans pos fields,
        pos + (bodyBytes fields).length) := by
  induction fields generalizing pos with
  | nil =>
      rw [bodyBytes, List.nil_append, Span.split.eq_def]
      rfl
  | cons field rest ih =>
      rcases field with ⟨key, tree⟩
      rcases hWell with ⟨hKey, hTree, hRest⟩
      have hPayload :=
        ParseTree.payloadLength hTree
          (List.prefix_append tree.bytes
            (bodyBytes rest ++ [0]))
      have hHeader :
          1 + key.length + 1 = key.length + 2 := by omega
      rw [bodyBytes_cons_null,
        Span.split_cons tree.tag.byte_ne_zero,
        Framing.tag_eq_ok.mpr rfl,
        Bytes.cstringLength_terminated hKey]
      simp only [mapError_ok, ok_bind]
      rw [Bytes.drop_terminated, hPayload]
      simp only [ok_bind]
      rw [List.drop_left, ih hRest, length_bodyBytes_cons,
        bodySpans, hHeader]
      simp only [ok_bind, Nat.add_assoc]
      rfl

end BsonView

------------------------------------------------------------
-- Views Of Elements
------------------------------------------------------------

namespace BsonView

open Grammar

/- A place is found where its header and payload stand. -/
theorem Place.of_header
    (place : Place)
    {tag : Tag}
    {key payload : Bytes}
    (hKey : 0 ∉ key)
    (hOffset :
      place.offset = place.start + (key.length + 2))
    (hFront :
      tag.byte :: (key ++ [0]) ++ payload <+:
        place.buffer.drop place.start) :
    place.tag = .ok tag ∧
      place.keyBytes? = some key ∧
      payload <+: place.rest := by
  have hWidth :
      (tag.byte :: (key ++ [0])).length =
        key.length + 2 := by
    simp
  rcases Bytes.append_prefix_iff.mp hFront with
    ⟨hHeader, hPayload⟩
  have hThere := hHeader.length_le
  rw [hWidth, List.length_drop] at hThere
  have hTake :
      (place.buffer.take place.offset).drop place.start =
        tag.byte :: (key ++ [0]) := by
    rw [List.drop_take, List.prefix_iff_eq_take.mp hHeader,
      hWidth]
    congr 1
    omega
  refine ⟨?_, ?_, ?_⟩
  · refine Place.tag_eq_ok.mpr ⟨by omega, by omega, ?_⟩
    rcases hHeader with ⟨rest, hBytes⟩
    have hFirst := congrArg (fun bytes => bytes[0]?) hBytes
    rw [List.getElem?_drop] at hFirst
    exact hFirst.symm
  · refine Place.keyBytes?_eq_some.mpr ⟨by omega, ?_, hKey⟩
    rw [← List.drop_drop, hTake, List.drop_succ_cons,
      List.drop_zero]
  · rw [hWidth, List.drop_drop, ← hOffset] at hPayload
    exact hPayload

/-
  A value shows a payload when it is not opened and the
  payload stands in its buffer.
-/
structure Value.Shows
    (value : Value)
    (tree : ParseTree) : Prop where
  raw : value.payload = .raw
  tag_eq : value.tag = .ok tree.tag
  wellFormed : tree.WellFormed
  front : tree.bytes <+: value.rest

/- Elements show payloads under the keys they have. -/
def elementsShow : List Element → List ParseField → Prop
| [], [] => True
| ⟨value⟩ :: rest, ⟨key, tree⟩ :: fields =>
    value.keyBytes? = some key ∧ value.Shows tree ∧
      elementsShow rest fields
| _, _ => False

/- A value that shows a payload says what that does. -/
theorem Value.Shows.holds
    {value : Value}
    {tree : ParseTree}
    (hShows : value.Shows tree) :
    value.Holds tree.content := by
  rcases value with ⟨place, payload⟩
  rcases hShows with ⟨rfl, hTag, hTree, hFront⟩
  refine ⟨?_, tree, hTree, hFront, rfl⟩
  rw [ParseTree.tag_content]
  exact hTag

/-
  A value that shows a payload is written as that, with an
  outer length that agrees.
-/
theorem Value.Shows.encodes_agreeing
    {value : Value}
    {tree : ParseTree}
    (hShows : value.Shows tree) :
    value.Encodes tree.agreeing := by
  rcases value with ⟨place, payload⟩
  rcases hShows with ⟨rfl, hTag, hTree, hFront⟩
  refine ⟨?_, tree, hTree, hFront, rfl⟩
  rw [ParseTree.tag_agreeing]
  exact hTag

/- The payload that a value shows is the one it has. -/
theorem Value.Shows.payloadBytes
    {value : Value}
    {tree : ParseTree}
    (hShows : value.Shows tree) :
    value.payloadBytes = .ok tree.bytes := by
  have hLength :=
    tree.payloadLength hShows.wellFormed hShows.front
  rw [Place.payloadBytes_eq hShows.tag_eq hLength,
    ← List.prefix_iff_eq_take.mp hShows.front]

/- Elements that show payloads say what those do. -/
theorem elementsHold_of_show :
    ∀ {elements : List Element} {fields : List ParseField},
      elementsShow elements fields →
      elementsHold elements (members fields)
| [], [], _ => trivial
| ⟨_⟩ :: _, ⟨_, _⟩ :: _, ⟨hKey, hTree, hFields⟩ =>
    ⟨hKey, hTree.holds, elementsHold_of_show hFields⟩
| [], ⟨_, _⟩ :: _, hShow => hShow.elim
| ⟨_⟩ :: _, [], hShow => hShow.elim

/- A view of an element shows what stands there. -/
theorem Element.shows_of_front
    {buffer key : Bytes}
    {tree : ParseTree}
    {pos : Nat}
    (hKey : 0 ∉ key)
    (hTree : tree.WellFormed)
    (hFront :
      tree.tag.byte :: (key ++ [0]) ++ tree.bytes <+:
        buffer.drop pos) :
    let element :=
      ofPositions buffer pos (pos + (key.length + 2))
    element.value.keyBytes? = some key ∧
      element.value.Shows tree := by
  rcases Place.of_header
      ⟨buffer, pos, pos + (key.length + 2)⟩
      hKey rfl hFront with
    ⟨hTag, hText, hPayload⟩
  exact ⟨hText, rfl, hTag, hTree, hPayload⟩

/- The views of elements show what stands there. -/
theorem elementsShow_of_spans
    {buffer : Bytes}
    {fields : List ParseField}
    {pos : Nat}
    (hWell : BodyWellFormed fields)
    (hFront : bodyBytes fields <+: buffer.drop pos) :
    elementsShow
      ((bodySpans pos fields).map (Element.ofSpan buffer))
      fields := by
  induction fields generalizing pos with
  | nil => trivial
  | cons field rest ih =>
      rcases field with ⟨key, tree⟩
      rcases hWell with ⟨hKey, hTree, hRest⟩
      rw [bodyBytes_cons, ← List.append_assoc] at hFront
      rcases Bytes.append_prefix_iff.mp hFront with
        ⟨hFirst, hMore⟩
      rcases Element.shows_of_front hKey hTree hFirst with
        ⟨hText, hShows⟩
      have hWidth :
          (tree.tag.byte :: (key ++ [0]) ++
              tree.bytes).length =
            key.length + 2 + tree.bytes.length := by
        simp
        omega
      rw [hWidth, List.drop_drop, ← Nat.add_assoc] at hMore
      exact ⟨hText, hShows, ih hRest hMore⟩

end BsonView

------------------------------------------------------------
-- Reading
------------------------------------------------------------

namespace BsonView

open Grammar

namespace Document

/- The elements of a document are found where it stands. -/
theorem spansFrom_of_front
    {buffer : Bytes}
    {offset : Nat}
    {fields : List ParseField}
    (hFields : IsDocument fields)
    (hFront : documentBytes fields <+: buffer.drop offset) :
    spansFrom buffer offset =
      .ok (bodySpans (offset + 4) fields) := by
  have hField : Word.readLength (buffer.drop offset) =
      .ok (documentBytes fields).length :=
    readLength_of_form hFields.2 hFront
  have hLength :
      (documentBytes fields).length =
        (bodyBytes fields).length + 5 :=
    length_documentForm _
  have hThere := hFront.length_le
  rw [List.length_drop] at hThere
  have hBody :
      (buffer.take
          (offset + (documentBytes fields).length)).drop
          (offset + 4) =
        bodyBytes fields ++ [0] := by
    rw [← List.drop_drop, ← List.take_drop,
      ← List.prefix_iff_eq_take.mp hFront]
    exact List.drop_left' (Word.length_ofLength _)
  have hSplit := Span.split_body hFields.1 (offset + 4)
  unfold spansFrom
  rw [hField, ok_bind]
  dsimp only
  rw [if_neg (by unfold Framing.emptyLength; omega),
    hBody, hSplit]
  simp only [ok_bind]
  rw [if_neg (by omega)]
  rfl

/- The document that stands at a position is read there. -/
theorem readFrom_of_front
    {buffer : Bytes}
    {offset : Nat}
    {fields : List ParseField}
    (hFields : IsDocument fields)
    (hFront : documentBytes fields <+: buffer.drop offset) :
    ∃ doc : Document,
      readFrom buffer offset = .ok doc ∧
        elementsShow doc.elements fields := by
  have hBody :
      bodyBytes fields <+: buffer.drop (offset + 4) := by
    rw [documentBytes, documentForm] at hFront
    have hMore := (Bytes.append_prefix_iff.mp hFront).2
    rw [Word.length_ofLength, List.drop_drop] at hMore
    exact (List.prefix_append _ _).trans hMore
  refine ⟨⟨_⟩, ?_, elementsShow_of_spans hFields.1 hBody⟩
  unfold readFrom
  rw [spansFrom_of_front hFields hFront]
  rfl

/- The encoding of a document shows its elements. -/
theorem read_show_of_isDocument
    {fields : List ParseField}
    (hFields : IsDocument fields) :
    ∃ doc : Document,
      read (documentBytes fields) = .ok doc ∧
        elementsShow doc.elements fields := by
  have hFront :
      documentBytes fields <+: (documentBytes fields).drop 0 :=
    List.prefix_refl _
  rcases readFrom_of_front hFields hFront with
    ⟨doc, hRead, hShow⟩
  refine ⟨doc, ?_, hShow⟩
  unfold read
  rw [hRead, hFields.readLength]
  simp only [ok_bind]
  rw [if_neg (by simp)]
  rfl

/- The encoding of a document reads as it. -/
theorem read_of_isDocument
    {fields : List ParseField}
    (hFields : IsDocument fields) :
    ∃ doc : Document,
      read (documentBytes fields) = .ok doc ∧
        doc.Holds (members fields) := by
  rcases read_show_of_isDocument hFields with
    ⟨⟨elements⟩, hRead, hShow⟩
  exact ⟨⟨elements⟩, hRead, elementsHold_of_show hShow⟩

end Document

/- The encoding of a document reads as an array, too. -/
theorem ArrayDoc.read_of_isDocument
    {fields : List ParseField}
    (hFields : IsDocument fields) :
    ∃ array : ArrayDoc,
      read (documentBytes fields) = .ok array ∧
        array.Holds (items fields) := by
  rcases Document.read_of_isDocument hFields with
    ⟨⟨elements⟩, hRead, hHolds⟩
  refine ⟨⟨elements⟩, ?_, ?_⟩
  · unfold read
    rw [hRead]
    rfl
  · rw [← content_members]
    exact valuesHold_of_elements hHolds

/- The encoding of an element reads as it. -/
theorem Element.read_of_wellFormed
    {key : Bytes}
    {tree : ParseTree}
    (hKey : 0 ∉ key)
    (hTree : tree.WellFormed) :
    ∃ element : Element,
      read (bodyBytes [⟨key, tree⟩]) = .ok element ∧
        element.Holds ⟨key, tree.content⟩ := by
  have hBody :
      bodyBytes [⟨key, tree⟩] =
        tree.tag.byte :: (key ++ 0 :: tree.bytes) := by
    rw [bodyBytes, bodyBytes, List.append_nil]
  have hFront :
      tree.tag.byte :: (key ++ [0]) ++ tree.bytes <+:
        (bodyBytes [⟨key, tree⟩]).drop 0 := by
    rw [hBody]
    simp
  have hPayload :=
    ParseTree.payloadLength hTree
      (List.prefix_refl tree.bytes)
  rcases Element.shows_of_front hKey hTree hFront with
    ⟨hText, hShows⟩
  refine ⟨_, ?_, hText, hShows.holds⟩
  rw [hBody, read, Framing.tag_eq_ok.mpr rfl,
    Bytes.cstringLength_terminated hKey]
  simp only [mapError_ok, ok_bind]
  rw [Bytes.drop_terminated, hPayload, ok_bind]
  congr 2
  omega

end BsonView
