import BsonView.Value

/-
  Splitting buffers into elements.

  Splitting a document finds where each element's type byte
  and payload are. Payloads are measured by their framing
  and not entered, so a nested document may be malformed
  and is found to be so only when it is opened or validated.

  Main declarations:
    * `Span`
    * `Span.split`
    * `Document.readFrom`
    * `Document.read`
    * `ArrayDoc.read`
    * `Element.read`
    * `Element.ofPositions`
-/

------------------------------------------------------------
-- Spans
------------------------------------------------------------

namespace BsonView

/- The positions of an element's type byte and payload. -/
structure Span where
  start : Nat
  offset : Nat
deriving DecidableEq, Repr

namespace Span

/-
  The spans of the elements at the front of the bytes, up to
  the null byte that closes their document, and the position
  of that null byte. The bytes stand at position `pos`.
-/
def split
    (bytes : Bytes)
    (pos : Nat) : Except Error (List Span × Nat) :=
  match bytes with
  | [] => throw .missingTerminator
  | 0 :: _ => return ([], pos)
  | b :: rest => do
      let tag ← Framing.tag b
      let key ←
        (Bytes.cstringLength rest).mapError
          fun _ => .invalidKey
      let header := 1 + key + 1
      let payload := rest.drop (key + 1)
      let length ← Framing.payloadLength tag payload
      let (spans, stop) ←
        split (payload.drop length)
          (pos + header + length)
      return (⟨pos, pos + header⟩ :: spans, stop)
termination_by bytes.length
decreasing_by
  simp only [List.length_drop, List.length_cons]
  omega

/- Every payload found comes after where the search began. -/
theorem offset_of_mem_split
    {bytes : Bytes}
    {pos stop : Nat}
    {spans : List Span}
    (hSplit : split bytes pos = .ok (spans, stop))
    {span : Span}
    (hMem : span ∈ spans) :
    pos < span.offset := by
  fun_induction split bytes pos generalizing spans stop with
  | case1 => cases hSplit
  | case2 =>
      cases hSplit
      cases hMem
  | case3 pos b rest hNull ih =>
      rcases bind_eq_ok.mp hSplit with ⟨tag, _, hTag⟩
      rcases bind_eq_ok.mp hTag with ⟨key, _, hKey⟩
      rcases bind_eq_ok.mp hKey with ⟨length, _, hLength⟩
      rcases bind_eq_ok.mp hLength with
        ⟨⟨more, last⟩, hMore, hDone⟩
      cases hDone
      rcases List.mem_cons.mp hMem with rfl | hLater
      · exact Nat.lt_add_of_pos_right (by omega)
      · have hPast := ih key length hMore hLater
        omega

end Span

end BsonView

------------------------------------------------------------
-- Documents In Buffers
------------------------------------------------------------

namespace BsonView

namespace Element

/-
  The element whose type byte is at `start` and whose
  payload begins at `offset`. Nothing is checked.
-/
def ofPositions
    (buffer : Bytes)
    (start offset : Nat) : Element :=
  ⟨⟨⟨buffer, start, offset⟩, .raw⟩⟩

/- The element found at a span of a buffer. -/
def ofSpan
    (buffer : Bytes)
    (span : Span) : Element :=
  ofPositions buffer span.start span.offset

/-
  The element at the front of the bytes. Its key must end
  and its payload must have a length; nested documents are
  not entered.
-/
def read (bytes : Bytes) : Except Error Element := do
  match bytes with
  | [] => throw .endOfFile
  | b :: rest =>
      let tag ← Framing.tag b
      let key ←
        (Bytes.cstringLength rest).mapError
          fun _ => .invalidKey
      let payload := rest.drop (key + 1)
      let _ ← Framing.payloadLength tag payload
      return ofPositions bytes 0 (1 + key + 1)

end Element

namespace Document

/- The spans of the document at a position of a buffer. -/
def spansFrom
    (buffer : Bytes)
    (offset : Nat) : Except Error (List Span) := do
  let length ← Word.readLength (buffer.drop offset)
  let stop := offset + length
  if length < Framing.emptyLength ∨
      buffer.length < stop then
    throw (.invalidLength length (buffer.length - offset))
  let (spans, last) ←
    Span.split ((buffer.take stop).drop (offset + 4))
      (offset + 4)
  if last + 1 ≠ stop then
    throw (.invalidLength length (last + 1 - offset))
  return spans

/- The document at a position of a buffer. -/
def readFrom
    (buffer : Bytes)
    (offset : Nat) : Except Error Document := do
  let spans ← spansFrom buffer offset
  return ⟨spans.map (Element.ofSpan buffer)⟩

/- The document that the bytes are, all of them. -/
def read (bytes : Bytes) : Except Error Document := do
  let doc ← readFrom bytes 0
  let length ← Word.readLength bytes
  if length ≠ bytes.length then
    throw (.invalidLength length bytes.length)
  return doc

end Document

namespace ArrayDoc

/- The array at a position of a buffer. -/
def readFrom
    (buffer : Bytes)
    (offset : Nat) : Except Error ArrayDoc := do
  let doc ← Document.readFrom buffer offset
  return ⟨doc.elements⟩

/- The array that the bytes are, all of them. -/
def read (bytes : Bytes) : Except Error ArrayDoc := do
  let doc ← Document.read bytes
  return ⟨doc.elements⟩

end ArrayDoc

end BsonView
