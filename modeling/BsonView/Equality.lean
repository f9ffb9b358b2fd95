import BsonView.Snapshot

/-
  Structural equality.

  Two values are equal when they are of one type and have
  the same payload. Documents are compared element by
  element in order, arrays without their keys, code by its
  text and its scope, and scalars byte by byte. What cannot
  be read equals nothing, except that all values that are
  not initialized are equal.

  Main declarations:
    * `Snapshot.same`
    * `Value.equal`
    * `Element.equal`
    * `Element.equalOption`
    * `Document.equal`
    * `ArrayDoc.equal`
-/

------------------------------------------------------------
-- Snapshots
------------------------------------------------------------

namespace BsonView

/- Whether both were read and are the same bytes. -/
def sameBytes :
    Except Error Bytes → Except Error Bytes → Bool
| .ok a, .ok b => a == b
| _, _ => false

mutual

/- Whether the same is seen in two values. -/
def Snapshot.same : Snapshot → Snapshot → Bool
| .blank, .blank => true
| .scalar tag _ payload, .scalar tag' _ payload' =>
    tag == tag' && sameBytes payload payload'
| .document entries, .document entries' =>
    sameEntries entries entries'
| .array values, .array values' =>
    sameSnapshots values values'
| .code text scope, .code text' scope' =>
    text == text' && sameEntries scope scope'
| _, _ => false

/- Whether the same is seen in two lists of elements. -/
def sameEntries : List Entry → List Entry → Bool
| [], [] => true
| ⟨key?, value⟩ :: rest, ⟨key?', value'⟩ :: rest' =>
    key? == key?' && value.same value' &&
      sameEntries rest rest'
| _, _ => false

/- Whether the same is seen in two lists of values. -/
def sameSnapshots :
    List Snapshot → List Snapshot → Bool
| [], [] => true
| value :: rest, value' :: rest' =>
    value.same value' && sameSnapshots rest rest'
| _, _ => false

end

end BsonView

------------------------------------------------------------
-- Views
------------------------------------------------------------

namespace BsonView

namespace Value

/- Whether two values are equal. -/
def equal (a b : Value) : Bool :=
  a.snapshot.same b.snapshot

end Value

namespace Element

/- Whether two elements have the same key and value. -/
def equal (a b : Element) : Bool :=
  a.key? == b.key? && a.value.equal b.value

/- Missing elements are equal to each other only. -/
def equalOption : Option Element → Option Element → Bool
| none, none => true
| some a, some b => a.equal b
| _, _ => false

end Element

namespace Document

/- Whether two documents have equal elements in order. -/
def equal (a b : Document) : Bool :=
  sameEntries a.entries b.entries

end Document

namespace ArrayDoc

/- Whether two arrays have equal values in order. -/
def equal (a b : ArrayDoc) : Bool :=
  sameSnapshots a.snapshots b.snapshots

end ArrayDoc

end BsonView
