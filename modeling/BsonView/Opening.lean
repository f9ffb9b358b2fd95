import BsonView.Nesting
import BsonView.Traversal

/-
  Opening containers for editing.

  Opening decodes the container of a value. The value that
  holds the decoded container, edited or not, reads and
  writes that container from then on.

  Main declarations:
    * `Value.holding`
    * `Value.openDocument`
    * `Value.openArray`
    * `Value.openScope`
    * `Value.openAll`
    * `Document.openAll`
    * `ArrayDoc.openAll`
    * `Value.openAll_of_openDocument`
    * `Value.openAll_of_openArray`
    * `Value.openAll_of_openScope`
-/

------------------------------------------------------------
-- One Container
------------------------------------------------------------

namespace BsonView

namespace Value

/- The value with another payload at the same place. -/
def holding
    (value : Value)
    (payload : Payload) : Value :=
  { value with payload := payload }

/- The document to edit in an embedded document. -/
def openDocument
    (value : Value) : Except Error Document := do
  value.checkTag .embeddedDocument
  match value.payload with
  | .raw => value.readDocument
  | .document doc => return doc
  | .array _ => throw .uninitializedValue

/- The array to edit in an array. -/
def openArray
    (value : Value) : Except Error ArrayDoc := do
  value.checkTag .array
  match value.payload with
  | .raw => value.readArray
  | .array array => return array
  | .document _ => throw .uninitializedValue

/- The scope to edit in a code with scope. -/
def openScope
    (value : Value) : Except Error Document := do
  value.checkTag .codeWithScope
  match value.payload with
  | .raw => value.readScope
  | .document scope => return scope
  | .array _ => throw .uninitializedValue

/- A document that is not opened is read. -/
theorem openDocument_of_raw
    {value : Value}
    (hRaw : value.payload = .raw)
    (hTag : value.tag = .ok .embeddedDocument) :
    value.openDocument = value.readDocument := by
  unfold openDocument
  rw [Place.checkTag_eq_ok.mpr hTag, hRaw]
  rfl

/- An array that is not opened is read. -/
theorem openArray_of_raw
    {value : Value}
    (hRaw : value.payload = .raw)
    (hTag : value.tag = .ok .array) :
    value.openArray = value.readArray := by
  unfold openArray
  rw [Place.checkTag_eq_ok.mpr hTag, hRaw]
  rfl

/- A scope that is not opened is read. -/
theorem openScope_of_raw
    {value : Value}
    (hRaw : value.payload = .raw)
    (hTag : value.tag = .ok .codeWithScope) :
    value.openScope = value.readScope := by
  unfold openScope
  rw [Place.checkTag_eq_ok.mpr hTag, hRaw]
  rfl

/- A document that is opened already is left as it is. -/
theorem openDocument_of_opened
    {value : Value}
    {doc : Document}
    (hOpened : value.payload = .document doc)
    (hTag : value.tag = .ok .embeddedDocument) :
    value.openDocument = .ok doc := by
  unfold openDocument
  rw [Place.checkTag_eq_ok.mpr hTag, hOpened]
  rfl

/- An array that is opened already is left as it is. -/
theorem openArray_of_opened
    {value : Value}
    {array : ArrayDoc}
    (hOpened : value.payload = .array array)
    (hTag : value.tag = .ok .array) :
    value.openArray = .ok array := by
  unfold openArray
  rw [Place.checkTag_eq_ok.mpr hTag, hOpened]
  rfl

/- A scope that is opened already is left as it is. -/
theorem openScope_of_opened
    {value : Value}
    {scope : Document}
    (hOpened : value.payload = .document scope)
    (hTag : value.tag = .ok .codeWithScope) :
    value.openScope = .ok scope := by
  unfold openScope
  rw [Place.checkTag_eq_ok.mpr hTag, hOpened]
  rfl

/- The document that is opened is the one to be read. -/
theorem asDocument_of_openDocument
    {value : Value}
    {doc : Document}
    (hOpen : value.openDocument = .ok doc) :
    value.asDocument = .ok doc := by
  rcases bind_eq_ok.mp hOpen with ⟨_, hCheck, hFound⟩
  unfold asDocument
  rw [hCheck, ok_bind]
  split at hFound
  next hPayload =>
    rw [hPayload]
    exact hFound
  next hPayload =>
    rw [hPayload]
    exact hFound
  · cases hFound

/- The array that is opened is the one to be read. -/
theorem asArray_of_openArray
    {value : Value}
    {array : ArrayDoc}
    (hOpen : value.openArray = .ok array) :
    value.asArray = .ok array := by
  rcases bind_eq_ok.mp hOpen with ⟨_, hCheck, hFound⟩
  unfold asArray
  rw [hCheck, ok_bind]
  split at hFound
  next hPayload =>
    rw [hPayload]
    exact hFound
  next hPayload =>
    rw [hPayload]
    exact hFound
  · cases hFound

/-
  The scope that is opened is the one to be read, after its
  code.
-/
theorem asCodeWithScope_of_openScope
    {value : Value}
    {scope : Document}
    (hOpen : value.openScope = .ok scope) :
    value.asCodeWithScope =
      value.code >>= fun code => .ok (code, scope) := by
  rcases bind_eq_ok.mp hOpen with ⟨_, hCheck, hFound⟩
  unfold asCodeWithScope
  rw [hCheck, ok_bind]
  split at hFound
  next hPayload =>
    rw [hPayload]
    dsimp only
    rw [hFound]
    rfl
  next hPayload =>
    cases hFound
    rw [hPayload]
    rfl
  · cases hFound

/- Editing an embedded document lowers the rank. -/
theorem rank_lt_of_openDocument
    {value : Value}
    {doc : Document}
    (hOpen : value.openDocument = .ok doc)
    {element : Element}
    (hMem : element ∈ doc.elements) :
    element.value.rank < value.rank := by
  rcases bind_eq_ok.mp hOpen with ⟨_, _, hFound⟩
  split at hFound
  · exact rank_lt_of_readDocument hFound hMem
  next hPayload =>
    cases hFound
    exact rank_lt_of_document hPayload hMem
  · cases hFound

/- Editing an array lowers the rank. -/
theorem rank_lt_of_openArray
    {value : Value}
    {array : ArrayDoc}
    (hOpen : value.openArray = .ok array)
    {element : Element}
    (hMem : element ∈ array.elements) :
    element.value.rank < value.rank := by
  rcases bind_eq_ok.mp hOpen with ⟨_, _, hFound⟩
  split at hFound
  · exact rank_lt_of_readArray hFound hMem
  next hPayload =>
    cases hFound
    exact rank_lt_of_array hPayload hMem
  · cases hFound

/- Editing a scope lowers the rank. -/
theorem rank_lt_of_openScope
    {value : Value}
    {scope : Document}
    (hOpen : value.openScope = .ok scope)
    {element : Element}
    (hMem : element ∈ scope.elements) :
    element.value.rank < value.rank := by
  rcases bind_eq_ok.mp hOpen with ⟨_, _, hFound⟩
  split at hFound
  · exact rank_lt_of_readScope hFound hMem
  next hPayload =>
    cases hFound
    exact rank_lt_of_document hPayload hMem
  · cases hFound

end Value

end BsonView

------------------------------------------------------------
-- All Containers
------------------------------------------------------------

namespace BsonView

namespace Value

/-
  Open the value's container and every container inside it,
  each before those in it, and count them. A value without a
  readable type cannot be passed over, since it might be a
  container. The first failure ends the opening; what was
  opened before it stays open.
-/
def openAll (value : Value) : Except Error Nat × Value :=
  match value.tag with
  | .error error => (.error error, value)
  | .ok .embeddedDocument =>
      match hOpen : value.openDocument with
      | .error error => (.error error, value)
      | .ok doc =>
          let (count, elements) :=
            visitAll
              (fun ⟨element, hMem⟩ =>
                have := rank_lt_of_openDocument hOpen hMem
                let (count, inner) := element.value.openAll
                (count, ⟨inner⟩))
              Subtype.val doc.elements.attach
          (count.map (· + 1),
            value.holding (.document ⟨elements⟩))
  | .ok .array =>
      match hOpen : value.openArray with
      | .error error => (.error error, value)
      | .ok array =>
          let (count, elements) :=
            visitAll
              (fun ⟨element, hMem⟩ =>
                have := rank_lt_of_openArray hOpen hMem
                let (count, inner) := element.value.openAll
                (count, ⟨inner⟩))
              Subtype.val array.elements.attach
          (count.map (· + 1),
            value.holding (.array ⟨elements⟩))
  | .ok .codeWithScope =>
      match hOpen : value.openScope with
      | .error error => (.error error, value)
      | .ok scope =>
          let (count, elements) :=
            visitAll
              (fun ⟨element, hMem⟩ =>
                have := rank_lt_of_openScope hOpen hMem
                let (count, inner) := element.value.openAll
                (count, ⟨inner⟩))
              Subtype.val scope.elements.attach
          (count.map (· + 1),
            value.holding (.document ⟨elements⟩))
  | .ok _ => (.ok 0, value)
termination_by value.rank

end Value

namespace Element

/- Open all containers in the element's value. -/
def openAll
    (element : Element) : Except Error Nat × Element :=
  let (count, value) := element.value.openAll
  (count, ⟨value⟩)

end Element

namespace Document

/- Open all containers in the document's values. -/
def openAll
    (doc : Document) : Except Error Nat × Document :=
  let (count, elements) :=
    visitAll Element.openAll id doc.elements
  (count, ⟨elements⟩)

end Document

namespace ArrayDoc

/- Open all containers in the array's values. -/
def openAll
    (array : ArrayDoc) : Except Error Nat × ArrayDoc :=
  let (count, elements) :=
    visitAll Element.openAll id array.elements
  (count, ⟨elements⟩)

end ArrayDoc

end BsonView

------------------------------------------------------------
-- Openings By Type
------------------------------------------------------------

namespace BsonView

namespace Value

variable {value : Value}

/- There is nothing to open in a scalar. -/
theorem openAll_of_isScalar
    {tag : Tag}
    (hTag : value.tag = .ok tag)
    (hScalar : tag.isScalar = true) :
    value.openAll = (.ok 0, value) := by
  rw [openAll, hTag]
  cases tag <;> simp [Tag.isScalar] at hScalar <;> rfl

/- An embedded document is opened with all in it. -/
theorem openAll_of_openDocument
    {doc : Document}
    (hTag : value.tag = .ok .embeddedDocument)
    (hOpen : value.openDocument = .ok doc) :
    value.openAll =
      (doc.openAll.1.map (· + 1),
        value.holding (.document doc.openAll.2)) := by
  have hAll :=
    visitAll_attach Element.openAll doc.elements
  rw [openAll, hTag]
  dsimp only
  split
  next hError => cases hOpen.symm.trans hError
  next hFound =>
    cases hOpen.symm.trans hFound
    rw [Document.openAll, ← hAll]
    rfl

/- So is an array. -/
theorem openAll_of_openArray
    {array : ArrayDoc}
    (hTag : value.tag = .ok .array)
    (hOpen : value.openArray = .ok array) :
    value.openAll =
      (array.openAll.1.map (· + 1),
        value.holding (.array array.openAll.2)) := by
  have hAll :=
    visitAll_attach Element.openAll array.elements
  rw [openAll, hTag]
  dsimp only
  split
  next hError => cases hOpen.symm.trans hError
  next hFound =>
    cases hOpen.symm.trans hFound
    rw [ArrayDoc.openAll, ← hAll]
    rfl

/- So is a scope. -/
theorem openAll_of_openScope
    {scope : Document}
    (hTag : value.tag = .ok .codeWithScope)
    (hOpen : value.openScope = .ok scope) :
    value.openAll =
      (scope.openAll.1.map (· + 1),
        value.holding (.document scope.openAll.2)) := by
  have hAll :=
    visitAll_attach Element.openAll scope.elements
  rw [openAll, hTag]
  dsimp only
  split
  next hError => cases hOpen.symm.trans hError
  next hFound =>
    cases hOpen.symm.trans hFound
    rw [Document.openAll, ← hAll]
    rfl

end Value

end BsonView
