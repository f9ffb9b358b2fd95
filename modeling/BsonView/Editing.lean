import BsonView.Construction
import BsonView.Index

/-
  Editing documents and arrays.

  A document is edited as an ordered association list: a key
  finds the first element that has it, and an element whose
  key cannot be read is found by none.

  Main declarations:
    * `Document.position?`
    * `Document.find?`
    * `Document.get?`
    * `Document.push`
    * `Document.set`
    * `Document.erase?`
    * `Document.replaceAt`
    * `ArrayDoc.push`
    * `ArrayDoc.ofValues`
    * `ArrayDoc.get?`
    * `ArrayDoc.erase?`
    * `ArrayDoc.replaceAt`
-/

------------------------------------------------------------
-- Documents
------------------------------------------------------------

namespace BsonView

namespace Document

/- Position of the first element with a key. -/
def position?
    (doc : Document)
    (key : String) : Option Nat :=
  doc.elements.findIdx? (·.key? == some key)

/- The first element with a key. -/
def find?
    (doc : Document)
    (key : String) : Option Element := do
  doc.elements[← doc.position? key]?

/- The value of the first element with a key. -/
def get?
    (doc : Document)
    (key : String) : Option Value :=
  (doc.find? key).map Element.value

/- The document with one more element at its end. -/
def push
    (doc : Document)
    (element : Element) : Document :=
  ⟨doc.elements ++ [element]⟩

/- The document with the element at a position replaced. -/
def replaceAt
    (doc : Document)
    (index : Nat)
    (element : Element) : Document :=
  ⟨doc.elements.set index element⟩

/-
  Give a key a value: in place of the first element with
  that key, which is answered, or else at the end.
-/
def set
    (doc : Document)
    (key : String)
    (value : Value) :
    Except Error (Document × Option Element) :=
  match Element.make? key value with
  | none =>
      if 0 ∈ Bytes.ofText key then
        .error .invalidKey
      else
        .error .uninitializedValue
  | some element =>
      match doc.position? key with
      | some index =>
          .ok (doc.replaceAt index element,
            doc.elements[index]?)
      | none => .ok (doc.push element, none)

/-
  The document without the first element with a key, and
  that element.
-/
def erase?
    (doc : Document)
    (key : String) : Option (Document × Element) := do
  let index ← doc.position? key
  let element ← doc.elements[index]?
  return (⟨doc.elements.eraseIdx index⟩, element)

end Document

end BsonView

------------------------------------------------------------
-- Arrays
------------------------------------------------------------

namespace BsonView

namespace ArrayDoc

/- The array with one more value at its end. -/
def push
    (array : ArrayDoc)
    (value : Value) : Except Error ArrayDoc :=
  match Element.make? (Index.text array.length) value with
  | some element => .ok ⟨array.elements ++ [element]⟩
  | none => .error .uninitializedValue

/- The array of the given values in order. -/
def ofValues (values : List Value) :
    Except Error ArrayDoc :=
  values.foldlM push empty

/- The value at a position. -/
def get?
    (array : ArrayDoc)
    (index : Nat) : Option Value :=
  (array.elements[index]?).map Element.value

/-
  The array with the value at a position replaced. The
  element there takes the new value's buffer for its own.
-/
def replaceAt
    (array : ArrayDoc)
    (index : Nat)
    (value : Value) : ArrayDoc :=
  ⟨array.elements.set index ⟨value⟩⟩

/- The array without a value, and that value. -/
def erase?
    (array : ArrayDoc)
    (index : Nat) : Option (ArrayDoc × Value) := do
  let value ← array.get? index
  return (⟨array.elements.eraseIdx index⟩, value)

end ArrayDoc

end BsonView
