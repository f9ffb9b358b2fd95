import BsonView.Index
import BsonView.Validation
import BsonView.Value

/-
  Validation of views.

  Validating a view answers the number of bytes its encoding
  has. A payload in a buffer is walked there; an opened
  container is validated element by element, its lengths
  summed and not read. The elements of an opened array count
  with index keys instead of their own.

  Main declarations:
    * `Value.measure`
    * `Element.measure`
    * `Document.measure`
    * `ArrayDoc.measure`
    * `Value.validate`
    * `Element.validate`
    * `Document.validate`
    * `ArrayDoc.validate`
    * `Element.validateOption`
-/

------------------------------------------------------------
-- At A Depth
------------------------------------------------------------

namespace BsonView

mutual

/- Validate a value with `depth` documents around it. -/
def Value.measure
    (limits : Limits)
    (depth : Nat) :
    Value → Except Failure Nat
| ⟨place, payload⟩ => do
    let tag ← place.tag
    payload.measure limits depth place tag

/- Validate the payload of a place that has a type. -/
def Payload.measure
    (limits : Limits)
    (depth : Nat)
    (place : Place)
    (tag : Tag) :
    Payload → Except Failure Nat
| .raw =>
    Validation.payload limits tag
      place.buffer place.offset depth
| .document doc =>
    match tag with
    | .embeddedDocument =>
        doc.measure limits (depth + 1)
    | .codeWithScope => do
        let code ←
          (Framing.stringLength
            (place.rest.drop 4)).mapError
            (Error.after 4)
        let scope ←
          (doc.measure limits (depth + 1)).mapError
            (Failure.after (4 + code))
        return 4 + code + scope
    | tag =>
        throw
          ((Error.typeMismatch
            .embeddedDocument tag).after 0)
| .array array =>
    match tag with
    | .array => array.measure limits (depth + 1)
    | tag =>
        throw ((Error.typeMismatch .array tag).after 0)

/- Validate an element with `depth` documents around it. -/
def Element.measure
    (limits : Limits)
    (depth : Nat) :
    Element → Except Failure Nat
| ⟨value⟩ => do
    if value.buffer.isEmpty then
      throw (Error.uninitializedValue.after 0)
    let key ←
      value.keyLength.mapError (Failure.after 1)
    let header := 1 + key
    let length ←
      (value.measure limits depth).mapError
        (Failure.after header)
    return header + length

/- Validate a document with `depth` others around it. -/
def Document.measure
    (limits : Limits)
    (depth : Nat) :
    Document → Except Failure Nat
| ⟨elements⟩ => do
    limits.checkDepth depth
    let total ←
      measureElements limits depth 4 elements
    return total + 1

/- Validate an array with `depth` documents around it. -/
def ArrayDoc.measure
    (limits : Limits)
    (depth : Nat) :
    ArrayDoc → Except Failure Nat
| ⟨elements⟩ => do
    limits.checkDepth depth
    let total ←
      measureValues limits depth 0 4 elements
    return total + 1

/- Add the lengths of elements to those before them. -/
def measureElements
    (limits : Limits)
    (depth total : Nat) :
    List Element → Except Failure Nat
| [] => return total
| element :: rest => do
    let length ←
      (element.measure limits depth).mapError
        (Failure.after total)
    measureElements limits depth (total + length) rest

/-
  Add the lengths of an array's elements, from position
  `index` on, to those before them.
-/
def measureValues
    (limits : Limits)
    (depth index total : Nat) :
    List Element → Except Failure Nat
| [] => return total
| element :: rest => do
    let length ←
      (element.measure limits depth).mapError
        (Failure.after total)
    let header := 1 + Index.length index + 1
    let payload := length - element.value.headerLength
    measureValues limits depth (index + 1)
      (total + (header + payload)) rest

end

end BsonView

------------------------------------------------------------
-- At The Top
------------------------------------------------------------

namespace BsonView

namespace Value

/- Validate the payload within limits. -/
def validateWith
    (value : Value)
    (limits : Limits) : Except Failure Nat :=
  value.measure limits 0

/- Validate the payload within the standard limits. -/
def validate (value : Value) : Except Failure Nat :=
  value.validateWith .standard

end Value

namespace Element

/- Validate key and payload within limits. -/
def validateWith
    (element : Element)
    (limits : Limits) : Except Failure Nat :=
  element.measure limits 0

/- Validate key and payload within the standard limits. -/
def validate (element : Element) : Except Failure Nat :=
  element.validateWith .standard

/- Validate an element that may be missing. -/
def validateOption : Option Element → Except Failure Nat
| some element => element.validate
| none => throw (Error.nilElement.after 0)

end Element

namespace Document

/- Validate all elements within limits. -/
def validateWith
    (doc : Document)
    (limits : Limits) : Except Failure Nat :=
  doc.measure limits 0

/- Validate all elements within the standard limits. -/
def validate (doc : Document) : Except Failure Nat :=
  doc.validateWith .standard

end Document

namespace ArrayDoc

/- Validate all values within limits. -/
def validateWith
    (array : ArrayDoc)
    (limits : Limits) : Except Failure Nat :=
  array.measure limits 0

/- Validate all values within the standard limits. -/
def validate (array : ArrayDoc) : Except Failure Nat :=
  array.validateWith .standard

end ArrayDoc

end BsonView
