import BsonView.Scalar
import BsonView.Value

/-
  Values and elements made from their contents.

  A made value has a buffer of its own, which holds a type
  byte, an empty key and the payload. A container is made
  opened: its buffer holds an empty document, and the
  content is the decoded container.

  Main declarations:
    * `Value.ofScalar`
    * `Value.ofDocument`
    * `Value.ofArray`
    * `Value.ofCode`
    * `Element.make?`
    * `Element.of_make?_eq_some`
-/

------------------------------------------------------------
-- Values
------------------------------------------------------------

namespace BsonView

/- The encoding of the document without elements. -/
def emptyDocumentBytes : Bytes :=
  [5, 0, 0, 0, 0]

namespace Value

/- A value in a buffer of its own, with an empty key. -/
def make
    (tag : Tag)
    (bytes : Bytes)
    (payload : Payload) : Value :=
  ⟨⟨[tag.byte, 0] ++ bytes, 0, 2⟩, payload⟩

/- A scalar as a value. -/
def ofScalar (scalar : Scalar) : Value :=
  make scalar.tag scalar.bytes .raw

/- A document as a value. -/
def ofDocument (doc : Document) : Value :=
  make .embeddedDocument emptyDocumentBytes
    (.document doc)

/- An array as a value. -/
def ofArray (array : ArrayDoc) : Value :=
  make .array emptyDocumentBytes (.array array)

/-
  A piece of code with a scope as a value. Until it is
  written, its buffer says that the scope is empty.
-/
def ofCode
    (code : String)
    (scope : Document) : Value :=
  let framing :=
    Scalar.stringBytes code ++ emptyDocumentBytes
  make .codeWithScope
    (Word.ofLength (4 + framing.length) ++ framing)
    (.document scope)

/- A made value has the type that it is made with. -/
theorem tag_make
    (tag : Tag)
    (bytes : Bytes)
    (payload : Payload) :
    (make tag bytes payload).tag = .ok tag :=
  Place.tag_eq_ok.mpr
    ⟨Nat.two_pos, Nat.le_add_left 2 _, rfl⟩

theorem tag_ofCode
    (code : String)
    (scope : Document) :
    (ofCode code scope).tag = .ok .codeWithScope :=
  tag_make _ _ _

/- The outer length of a made code has four bytes. -/
theorem drop_rest_ofCode
    (code : String)
    (scope : Document) :
    (ofCode code scope).rest.drop 4 =
      Scalar.stringBytes code ++ emptyDocumentBytes :=
  List.drop_left' (Word.length_ofLength _)

end Value

end BsonView

------------------------------------------------------------
-- Elements
------------------------------------------------------------

namespace BsonView

namespace Element

/-
  A key with a value, in a buffer that holds the element and
  nothing else.

  The value must have a known type and a payload whose
  length its framing gives, and a key cannot hold a null
  byte.
-/
def make?
    (key : String)
    (value : Value) : Option Element :=
  let keyBytes := Bytes.ofText key
  match value.tag, value.payloadBytes with
  | .ok tag, .ok bytes =>
      if 0 ∈ keyBytes then
        none
      else
        some
          ⟨⟨⟨tag.byte :: keyBytes ++ 0 :: bytes, 0,
            keyBytes.length + 2⟩, value.payload⟩⟩
  | _, _ => none

/-
  An element is made with the type, the payload and the
  bytes of its value, which have to have a length.
-/
theorem of_make?_eq_some
    {key : String}
    {value : Value}
    {element : Element}
    (hMake : make? key value = some element) :
    ∃ tag bytes,
      value.tag = .ok tag ∧
        value.payloadBytes = .ok bytes ∧
        element.value.tag = .ok tag ∧
        element.value.rest = bytes ∧
        element.value.payload = value.payload := by
  unfold make? at hMake
  dsimp only at hMake
  split at hMake
  next tag bytes hTag hBytes =>
    split at hMake
    · cases hMake
    cases hMake
    refine ⟨tag, bytes, hTag, hBytes, ?_, ?_, rfl⟩
    · exact Place.tag_eq_ok.mpr ⟨by simp, by simp, rfl⟩
    · simp [Place.rest, List.drop_append]
  · cases hMake

end Element

end BsonView
