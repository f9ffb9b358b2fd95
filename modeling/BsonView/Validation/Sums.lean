import BsonView.Reaching

/-
  Sums of lengths.

  Validating a view adds up the lengths of its parts, and a
  part may stand in many places of the view. A sum has to be
  a position, and it is a fault where it is not: here the
  same is counted with guarded sums, and the count of a view
  with more bytes than there are positions ends without an
  answer. Inside a buffer all lengths are positions.

  Main declarations:
    * `Element.measure?`
    * `Document.measure?`
    * `ArrayDoc.measure?`
    * `Element.validateWith?`
    * `Document.validateWith?`
    * `ArrayDoc.validateWith?`
-/

------------------------------------------------------------
-- At A Depth
------------------------------------------------------------

namespace BsonView

mutual

/- Validate a value with `depth` documents around it. -/
def Value.measure?
    (limits : Limits)
    (depth : Nat) :
    Value → Reaching Failure Nat
| ⟨place, payload⟩ => do
    let tag ← (place.tag : Except Failure Tag)
    payload.measure? limits depth place tag

/- Validate the payload of a place that has a type. -/
def Payload.measure?
    (limits : Limits)
    (depth : Nat)
    (place : Place)
    (tag : Tag) :
    Payload → Reaching Failure Nat
| .raw =>
    Validation.payload limits tag
      place.buffer place.offset depth
| .document doc =>
    match tag with
    | .embeddedDocument =>
        doc.measure? limits (depth + 1)
    | .codeWithScope => do
        let code ←
          (Framing.stringLength
            (place.rest.drop 4)).mapError
            (Error.after 4)
        let lead ← Position.sum? 4 code
        let scope ←
          (doc.measure? limits (depth + 1)).after lead
        Position.sum? lead scope
    | tag =>
        Reaching.fail
          ((Error.typeMismatch
            .embeddedDocument tag).after 0)
| .array array =>
    match tag with
    | .array => array.measure? limits (depth + 1)
    | tag =>
        Reaching.fail
          ((Error.typeMismatch .array tag).after 0)

/- Validate an element with `depth` documents around it. -/
def Element.measure?
    (limits : Limits)
    (depth : Nat) :
    Element → Reaching Failure Nat
| ⟨value⟩ =>
    if value.buffer.isEmpty then
      Reaching.fail (Error.uninitializedValue.after 0)
    else do
      let key ←
        (value.keyLength : Reaching Failure Nat).after 1
      let header ← Position.sum? 1 key
      let length ←
        (value.measure? limits depth).after header
      Position.sum? header length

/- Validate a document with `depth` others around it. -/
def Document.measure?
    (limits : Limits)
    (depth : Nat) :
    Document → Reaching Failure Nat
| ⟨elements⟩ => do
    limits.checkDepth depth
    let total ←
      measureElements? limits depth 4 elements
    Position.sum? total 1

/- Validate an array with `depth` documents around it. -/
def ArrayDoc.measure?
    (limits : Limits)
    (depth : Nat) :
    ArrayDoc → Reaching Failure Nat
| ⟨elements⟩ => do
    limits.checkDepth depth
    let total ←
      measureValues? limits depth 0 4 elements
    Position.sum? total 1

/- Add the lengths of elements to those before them. -/
def measureElements?
    (limits : Limits)
    (depth total : Nat) :
    List Element → Reaching Failure Nat
| [] => return total
| element :: rest => do
    let length ←
      (element.measure? limits depth).after total
    let total ← Position.sum? total length
    measureElements? limits depth total rest

/-
  Add the lengths of an array's elements, from position
  `index` on, to those before them.
-/
def measureValues?
    (limits : Limits)
    (depth index total : Nat) :
    List Element → Reaching Failure Nat
| [] => return total
| element :: rest => do
    let length ←
      (element.measure? limits depth).after total
    let payload ←
      Position.difference? length element.value.headerLength
    let added ←
      Position.sum? (1 + Index.length index + 1) payload
    let total ← Position.sum? total added
    measureValues? limits depth (index + 1) total rest

end

end BsonView

------------------------------------------------------------
-- At The Top
------------------------------------------------------------

namespace BsonView

namespace Element

/- Validate key and payload within limits. -/
def validateWith?
    (element : Element)
    (limits : Limits) : Reaching Failure Nat :=
  element.measure? limits 0

/- Validate key and payload within the standard limits. -/
def validate? (element : Element) : Reaching Failure Nat :=
  element.validateWith? .standard

end Element

namespace Document

/- Validate all elements within limits. -/
def validateWith?
    (doc : Document)
    (limits : Limits) : Reaching Failure Nat :=
  doc.measure? limits 0

/- Validate all elements within the standard limits. -/
def validate? (doc : Document) : Reaching Failure Nat :=
  doc.validateWith? .standard

end Document

namespace ArrayDoc

/- Validate all values within limits. -/
def validateWith?
    (array : ArrayDoc)
    (limits : Limits) : Reaching Failure Nat :=
  array.measure? limits 0

/- Validate all values within the standard limits. -/
def validate? (array : ArrayDoc) : Reaching Failure Nat :=
  array.validateWith? .standard

end ArrayDoc

end BsonView
