import BsonView.Nesting

/-
  Snapshots: what a reader gets to see in a value.

  A snapshot is a value with everything in it decoded once,
  through the accessors that fit its types. Where decoding
  fails the snapshot records the failure and goes on beside
  it. Texts, comparisons and data trees are functions of
  snapshots, so they cannot tell an opened container from
  one that is still in its buffer.

  Main declarations:
    * `Snapshot`
    * `Entry`
    * `Value.snapshot`
    * `Element.entry`
    * `Document.entries`
    * `ArrayDoc.snapshots`
    * `Value.snapshot_of_scalar`
    * `Value.snapshot_of_asDocument`
    * `Value.snapshot_of_asArray`
    * `Value.snapshot_of_asCodeWithScope`
-/

------------------------------------------------------------
-- Snapshots
------------------------------------------------------------

namespace BsonView

mutual

/-
  What is seen in a value: nothing in one that is not
  initialized, a type byte that is not assigned, a container
  that cannot be read, or content. Of a scalar the payload's
  bytes are kept with what they were read as.
-/
inductive Snapshot where
| blank
| foreign (byte : UInt8)
| unreadable (tag : Tag) (error : Error)
| scalar
    (tag : Tag)
    (content : Except Error Scalar)
    (payload : Except Error Bytes)
| document (entries : List Entry)
| array (values : List Snapshot)
| code (text : String) (scope : List Entry)

/- What is seen in an element. -/
structure Entry where
  key? : Option String
  value : Snapshot

end

namespace Snapshot

/- The type that was announced, if it is known. -/
def tag : Snapshot → Except Error Tag
| .blank => .error .uninitializedValue
| .foreign b => .error (.invalidTag b)
| .unreadable tag _ => .ok tag
| .scalar tag _ _ => .ok tag
| .document _ => .ok .embeddedDocument
| .array _ => .ok .array
| .code _ _ => .ok .codeWithScope

end Snapshot

end BsonView

------------------------------------------------------------
-- Taking Snapshots
------------------------------------------------------------

namespace BsonView

namespace Value

/- What a reader sees in a value. -/
def snapshot (value : Value) : Snapshot :=
  match value.tag with
  | .error (.invalidTag b) => .foreign b
  | .error _ => .blank
  | .ok tag =>
      match tag.layout with
      | .scalar read =>
          .scalar tag (read value.rest) value.payloadBytes
      | .document =>
          match hDoc : value.asDocument with
          | .error error => .unreadable tag error
          | .ok doc =>
              .document (doc.elements.attach.map
                fun ⟨element, hMem⟩ =>
                  have :=
                    rank_lt_of_asDocument hDoc hMem
                  ⟨element.key?, element.value.snapshot⟩)
      | .array =>
          match hArray : value.asArray with
          | .error error => .unreadable tag error
          | .ok array =>
              .array (array.elements.attach.map
                fun ⟨element, hMem⟩ =>
                  have := rank_lt_of_asArray hArray hMem
                  element.value.snapshot)
      | .codeWithScope =>
          match hCode : value.asCodeWithScope with
          | .error error => .unreadable tag error
          | .ok (code, scope) =>
              .code code (scope.elements.attach.map
                fun ⟨element, hMem⟩ =>
                  have :=
                    rank_lt_of_asCodeWithScope hCode hMem
                  ⟨element.key?, element.value.snapshot⟩)
termination_by value.rank

end Value

namespace Element

/- What a reader sees in an element. -/
def entry (element : Element) : Entry :=
  ⟨element.key?, element.value.snapshot⟩

end Element

namespace Document

/- What a reader sees in the elements of a document. -/
def entries (doc : Document) : List Entry :=
  doc.elements.map Element.entry

end Document

namespace ArrayDoc

/- What a reader sees in the values of an array. -/
def snapshots (array : ArrayDoc) : List Snapshot :=
  array.values.map Value.snapshot

end ArrayDoc

end BsonView

------------------------------------------------------------
-- Snapshots By Type
------------------------------------------------------------

namespace BsonView

namespace Value

variable {value : Value}

/- Of a scalar its reader's answer and its bytes are seen. -/
theorem snapshot_of_scalar
    {tag : Tag}
    {read : Bytes → Except Error Scalar}
    (hTag : value.tag = .ok tag)
    (hLayout : tag.layout = .scalar read) :
    value.snapshot =
      .scalar tag (read value.rest) value.payloadBytes := by
  rw [snapshot, hTag]
  dsimp only
  split <;> rename_i hOther <;>
    cases hLayout.symm.trans hOther
  rfl

/- Of an embedded document its elements are seen. -/
theorem snapshot_of_asDocument
    {doc : Document}
    (hTag : value.tag = .ok .embeddedDocument)
    (hDoc : value.asDocument = .ok doc) :
    value.snapshot = .document doc.entries := by
  rw [snapshot, hTag]
  dsimp only [Tag.layout]
  split
  next hError => cases hDoc.symm.trans hError
  next hFound =>
    cases hDoc.symm.trans hFound
    congr 1
    exact List.attach_map_val (f := Element.entry)

/- Of an array its values are seen. -/
theorem snapshot_of_asArray
    {array : ArrayDoc}
    (hTag : value.tag = .ok .array)
    (hArray : value.asArray = .ok array) :
    value.snapshot = .array array.snapshots := by
  rw [snapshot, hTag]
  dsimp only [Tag.layout]
  split
  next hError => cases hArray.symm.trans hError
  next hFound =>
    cases hArray.symm.trans hFound
    rw [ArrayDoc.snapshots, ArrayDoc.values, List.map_map]
    congr 1
    exact List.attach_map_val (f := snapshot ∘ Element.value)

/- Of a code with scope its text and its scope are seen. -/
theorem snapshot_of_asCodeWithScope
    {code : String}
    {scope : Document}
    (hTag : value.tag = .ok .codeWithScope)
    (hCode : value.asCodeWithScope = .ok (code, scope)) :
    value.snapshot = .code code scope.entries := by
  rw [snapshot, hTag]
  dsimp only [Tag.layout]
  split
  next hError => cases hCode.symm.trans hError
  next hFound =>
    cases hCode.symm.trans hFound
    congr 1
    exact List.attach_map_val (f := Element.entry)

/- Nothing is seen of code that cannot be read. -/
theorem snapshot_of_asCodeWithScope_error
    {error : Error}
    (hTag : value.tag = .ok .codeWithScope)
    (hCode : value.asCodeWithScope = .error error) :
    value.snapshot =
      .unreadable .codeWithScope error := by
  rw [snapshot, hTag]
  dsimp only [Tag.layout]
  split
  next hError =>
    cases hCode.symm.trans hError
    rfl
  next hFound => cases hCode.symm.trans hFound

end Value

end BsonView
