import BsonView.Validation.Sums

/-
  Encodings in buffers of their own.

  A view is encoded into a new buffer of the length that it
  is counted to have. No buffer has bytes at more than half
  of the positions: a view that is longer is valid, but has
  no encoding, not even a failed one.

  Main declarations:
    * `encodeWith?`
    * `Element.encode?`
    * `Document.encode?`
    * `ArrayDoc.encode?`
-/

------------------------------------------------------------
-- New Buffers
------------------------------------------------------------

namespace BsonView

/-
  Count the length of a view and write it into as many zero
  bytes.
-/
def encodeWith?
    (size : Reaching Failure Nat)
    (write : Nat → Bytes → Written) :
    Reaching Error Bytes := do
  let size ← size.mapError Failure.error
  let dest ← Bytes.zeros? size
  let written := write size dest
  let _ ← written.outcome.mapError Failure.error
  return written.dest

namespace Element

/- The encoding of the element. -/
def encode? (element : Element) : Reaching Error Bytes :=
  encodeWith? element.validate? (element.write true 0)

end Element

namespace Document

/- The encoding of the document. -/
def encode? (doc : Document) : Reaching Error Bytes :=
  encodeWith? doc.validate? (doc.write 0)

end Document

namespace ArrayDoc

/- The encoding of the array. -/
def encode? (array : ArrayDoc) : Reaching Error Bytes :=
  encodeWith? array.validate? (array.write 0)

end ArrayDoc

end BsonView
