import BsonView.Proofs.Sessions.Operations

/-
  Where opened containers are held.

  An opened container is held at a place, the place of its
  value, which still has the type byte and the bytes before
  the container. An anchor says what has to be true of such
  places. If it is true where containers are made and where
  they are opened, and where a place is remade or has its
  outer length corrected, it is true of all opened
  containers in all views that a caller ever holds. Here it
  is followed along paths.

  Main declarations:
    * `Anchor`
    * `Anchor.Stable`
    * `Value.Anchored`
    * `View.Anchored`
    * `View.anchored_of_leads`
    * `View.anchored_putBack`
    * `View.anchored_of_lookAlong`
-/

------------------------------------------------------------
-- Anchors
------------------------------------------------------------

namespace BsonView

/-
  What has to be true of the places that hold documents and
  arrays, and which codes are made.
-/
structure Anchor where
  document : Place → Prop
  array : Place → Prop
  code : String → Prop := fun _ => True

/- What is true of one place is true of the other. -/
structure Anchor.Moves
    (anchor : Anchor)
    (place other : Place) : Prop where
  document : anchor.document place → anchor.document other
  array : anchor.array place → anchor.array other

/-
  An anchor is stable when it is true of the places where
  containers come to be held.
-/
structure Anchor.Stable (anchor : Anchor) : Prop where
  made_document :
    ∀ doc, anchor.document (Value.ofDocument doc).toPlace
  made_array :
    ∀ array, anchor.array (Value.ofArray array).toPlace
  made_code :
    ∀ {text} scope, anchor.code text →
      anchor.document (Value.ofCode text scope).toPlace
  read_document :
    ∀ {place : Place} {doc},
      place.tag = .ok .embeddedDocument →
        place.readDocument = .ok doc →
        anchor.document place
  read_array :
    ∀ {place : Place} {array},
      place.tag = .ok .array →
        place.readArray = .ok array → anchor.array place
  read_scope :
    ∀ {place : Place} {scope},
      place.tag = .ok .codeWithScope →
        place.readScope = .ok scope →
        anchor.document place
  remade :
    ∀ {key value element},
      Element.make? key value = some element →
        anchor.Moves value.toPlace element.value.toPlace
  normalized :
    ∀ value : Value,
      anchor.Moves value.toPlace
        value.normalizeLength.2.toPlace

mutual

/- All containers opened in a value are anchored. -/
def Value.Anchored
    (anchor : Anchor) : Value → Prop
| ⟨place, payload⟩ => payload.Anchored anchor place

/- A container is anchored, and all opened in it are. -/
def Payload.Anchored
    (anchor : Anchor)
    (place : Place) : Payload → Prop
| .raw => True
| .document doc =>
    anchor.document place ∧ doc.Anchored anchor
| .array array =>
    anchor.array place ∧ array.Anchored anchor

/- All containers opened in a document are anchored. -/
def Document.Anchored
    (anchor : Anchor) : Document → Prop
| ⟨elements⟩ => elementsAnchored anchor elements

/- All containers opened in an array are anchored. -/
def ArrayDoc.Anchored
    (anchor : Anchor) : ArrayDoc → Prop
| ⟨elements⟩ => elementsAnchored anchor elements

/- All containers opened in the elements are anchored. -/
def elementsAnchored
    (anchor : Anchor) : List Element → Prop
| [] => True
| ⟨value⟩ :: rest =>
    value.Anchored anchor ∧ elementsAnchored anchor rest

end

/- All containers opened in a view are anchored. -/
def View.Anchored (anchor : Anchor) : View → Prop
| .document d => d.Anchored anchor
| .array a => a.Anchored anchor
| .element e => e.value.Anchored anchor
| .value v => v.Anchored anchor

theorem elementsAnchored_iff
    {anchor : Anchor}
    {elements : List Element} :
    elementsAnchored anchor elements ↔
      ∀ element ∈ elements,
        element.value.Anchored anchor := by
  induction elements with
  | nil => simp [elementsAnchored]
  | cons first rest ih =>
      rcases first with ⟨value⟩
      rw [elementsAnchored, List.forall_mem_cons, ih]

section

variable {anchor : Anchor}

/- Nothing is opened in what stays in the buffer. -/
theorem Value.anchored_of_raw
    {value : Value}
    (hRaw : value.payload = .raw) :
    value.Anchored anchor := by
  rcases value with ⟨place, payload⟩
  cases hRaw
  trivial

/- A payload can be held where its place may be moved. -/
theorem Value.anchored_of_moves
    {value other : Value}
    (hMoves : anchor.Moves value.toPlace other.toPlace)
    (hPayload : other.payload = value.payload)
    (hValue : value.Anchored anchor) :
    other.Anchored anchor := by
  rcases value with ⟨place, payload⟩
  rcases other with ⟨moved, held⟩
  cases hPayload
  cases payload with
  | raw => trivial
  | document doc =>
      exact ⟨hMoves.document hValue.1, hValue.2⟩
  | array array =>
      exact ⟨hMoves.array hValue.1, hValue.2⟩

/- A document holds what its elements hold. -/
theorem Document.anchored_iff
    {doc : Document} :
    doc.Anchored anchor ↔
      ∀ element ∈ doc.elements,
        element.value.Anchored anchor := by
  rcases doc with ⟨elements⟩
  exact elementsAnchored_iff

/- An array holds what its elements hold. -/
theorem ArrayDoc.anchored_iff
    {array : ArrayDoc} :
    array.Anchored anchor ↔
      ∀ element ∈ array.elements,
        element.value.Anchored anchor := by
  rcases array with ⟨elements⟩
  exact elementsAnchored_iff

/- The value of a view holds what the view does. -/
theorem View.anchored_of_value?
    {view : View}
    {value : Value}
    (hValue : view.value? = some value)
    (hView : view.Anchored anchor) :
    value.Anchored anchor := by
  rcases View.value?_eq_some.mp hValue with rfl | rfl
  · exact hView
  · exact hView

/- A view with a single value holds what that does. -/
theorem View.anchored_withValue
    {view : View}
    {old value : Value}
    (hOld : view.value? = some old)
    (hValue : value.Anchored anchor) :
    (view.withValue value).Anchored anchor := by
  rcases View.value?_eq_some.mp hOld with rfl | rfl
  · exact hValue
  · exact hValue

/- In place of an element goes one that is anchored. -/
theorem forall_mem_set
    {elements : List Element}
    {element : Element}
    (hElements :
      ∀ other ∈ elements, other.value.Anchored anchor)
    (hElement : element.value.Anchored anchor)
    (index : Nat) :
    ∀ other ∈ elements.set index element,
      other.value.Anchored anchor := by
  intro other hMem
  rcases List.mem_or_eq_of_mem_set hMem with hOld | rfl
  · exact hElements other hOld
  · exact hElement

theorem Document.anchored_replaceAt
    {doc : Document}
    {element : Element}
    (hDoc : doc.Anchored anchor)
    (hElement : element.value.Anchored anchor)
    (index : Nat) :
    (doc.replaceAt index element).Anchored anchor :=
  Document.anchored_iff.mpr
    (forall_mem_set (Document.anchored_iff.mp hDoc)
      hElement index)

/- At the end goes an element that is anchored. -/
theorem Document.anchored_push
    {doc : Document}
    {element : Element}
    (hDoc : doc.Anchored anchor)
    (hElement : element.value.Anchored anchor) :
    (doc.push element).Anchored anchor :=
  Document.anchored_iff.mpr
    (List.forall_mem_append.mpr
      ⟨Document.anchored_iff.mp hDoc,
        List.forall_mem_singleton.mpr hElement⟩)

theorem ArrayDoc.anchored_replaceAt
    {array : ArrayDoc}
    {value : Value}
    (hArray : array.Anchored anchor)
    (hValue : value.Anchored anchor)
    (index : Nat) :
    (array.replaceAt index value).Anchored anchor :=
  ArrayDoc.anchored_iff.mpr
    (forall_mem_set (ArrayDoc.anchored_iff.mp hArray)
      (show (Element.mk value).value.Anchored anchor
        from hValue) index)

end

end BsonView

------------------------------------------------------------
-- Containers In Buffers
------------------------------------------------------------

namespace BsonView

variable {anchor : Anchor}

/- Nothing is opened in a document that is read. -/
theorem Document.anchored_of_readFrom
    {buffer : Bytes}
    {offset : Nat}
    {doc : Document}
    (hRead : readFrom buffer offset = .ok doc) :
    doc.Anchored anchor := by
  rcases bind_eq_ok.mp hRead with ⟨spans, _, hDoc⟩
  cases hDoc
  refine Document.anchored_iff.mpr ?_
  intro element hMem
  rcases List.mem_map.mp hMem with ⟨span, _, rfl⟩
  exact Value.anchored_of_raw rfl

/- Nor in an array that is read. -/
theorem ArrayDoc.anchored_of_readFrom
    {buffer : Bytes}
    {offset : Nat}
    {array : ArrayDoc}
    (hRead : readFrom buffer offset = .ok array) :
    array.Anchored anchor := by
  rcases bind_eq_ok.mp hRead with
    ⟨⟨elements⟩, hDoc, hArray⟩
  cases hArray
  have hElements : Document.Anchored anchor ⟨elements⟩ :=
    Document.anchored_of_readFrom hDoc
  exact hElements

/- Nor in a scope that is read. -/
theorem Place.anchored_of_readScope
    {place : Place}
    {scope : Document}
    (hRead : place.readScope = .ok scope) :
    scope.Anchored anchor := by
  rcases bind_eq_ok.mp hRead with ⟨lead, _, hScope⟩
  exact Document.anchored_of_readFrom hScope

end BsonView

------------------------------------------------------------
-- Opening
------------------------------------------------------------

namespace BsonView

namespace Value

variable
  {anchor : Anchor}
  (hStable : anchor.Stable)
  {value : Value}

include hStable

/-
  A document that is opened is anchored with all in it, and
  any other can be held in its place.
-/
theorem anchored_of_openDocument
    {doc : Document}
    (hValue : value.Anchored anchor)
    (hOpen : value.openDocument = .ok doc) :
    doc.Anchored anchor ∧
      ∀ changed : Document, changed.Anchored anchor →
        (value.holding (.document changed)).Anchored
          anchor := by
  rcases value with ⟨place, payload⟩
  rcases bind_eq_ok.mp hOpen with ⟨⟨⟩, hCheck, hFound⟩
  cases payload with
  | raw =>
      have hPlace :=
        hStable.read_document
          (Place.checkTag_eq_ok.mp hCheck) hFound
      exact
        ⟨Document.anchored_of_readFrom hFound,
          fun _ hChanged => ⟨hPlace, hChanged⟩⟩
  | document opened =>
      cases hFound
      exact
        ⟨hValue.2, fun _ hChanged => ⟨hValue.1, hChanged⟩⟩
  | array opened => cases hFound

/- So it is with an array. -/
theorem anchored_of_openArray
    {array : ArrayDoc}
    (hValue : value.Anchored anchor)
    (hOpen : value.openArray = .ok array) :
    array.Anchored anchor ∧
      ∀ changed : ArrayDoc, changed.Anchored anchor →
        (value.holding (.array changed)).Anchored
          anchor := by
  rcases value with ⟨place, payload⟩
  rcases bind_eq_ok.mp hOpen with ⟨⟨⟩, hCheck, hFound⟩
  cases payload with
  | raw =>
      have hPlace :=
        hStable.read_array
          (Place.checkTag_eq_ok.mp hCheck) hFound
      exact
        ⟨ArrayDoc.anchored_of_readFrom hFound,
          fun _ hChanged => ⟨hPlace, hChanged⟩⟩
  | array opened =>
      cases hFound
      exact
        ⟨hValue.2, fun _ hChanged => ⟨hValue.1, hChanged⟩⟩
  | document opened => cases hFound

/- So it is with a scope. -/
theorem anchored_of_openScope
    {scope : Document}
    (hValue : value.Anchored anchor)
    (hOpen : value.openScope = .ok scope) :
    scope.Anchored anchor ∧
      ∀ changed : Document, changed.Anchored anchor →
        (value.holding (.document changed)).Anchored
          anchor := by
  rcases value with ⟨place, payload⟩
  rcases bind_eq_ok.mp hOpen with ⟨⟨⟩, hCheck, hFound⟩
  cases payload with
  | raw =>
      have hPlace :=
        hStable.read_scope
          (Place.checkTag_eq_ok.mp hCheck) hFound
      exact
        ⟨Place.anchored_of_readScope hFound,
          fun _ hChanged => ⟨hPlace, hChanged⟩⟩
  | document opened =>
      cases hFound
      exact
        ⟨hValue.2, fun _ hChanged => ⟨hValue.1, hChanged⟩⟩
  | array opened => cases hFound

end Value

namespace View

variable
  {anchor : Anchor}
  (hStable : anchor.Stable)
  {step : PathStep}
  {view inner changed : View}
  {putBack : View → View}

include hStable

/- A step leads to a view that is anchored, too. -/
theorem anchored_of_leads
    (hLeads : Leads step view inner putBack)
    (hView : view.Anchored anchor) :
    inner.Anchored anchor := by
  cases hLeads with
  | member hElement =>
      exact
        Document.anchored_iff.mp hView _
          (List.mem_of_getElem? hElement)
  | item hValue =>
      rcases Option.map_eq_some_iff.mp hValue with
        ⟨element, hElement, rfl⟩
      exact
        ArrayDoc.anchored_iff.mp hView _
          (List.mem_of_getElem? hElement)
  | value hValue => exact anchored_of_value? hValue hView
  | document hValue hOpen =>
      exact
        (Value.anchored_of_openDocument hStable
          (anchored_of_value? hValue hView) hOpen).1
  | array hValue hOpen =>
      exact
        (Value.anchored_of_openArray hStable
          (anchored_of_value? hValue hView) hOpen).1
  | scope hValue hOpen =>
      exact
        (Value.anchored_of_openScope hStable
          (anchored_of_value? hValue hView) hOpen).1

/- What is put back is anchored if it is of its kind. -/
theorem anchored_putBack
    (hLeads : Leads step view inner putBack)
    (hView : view.Anchored anchor)
    (hKind : changed.sameKind inner = true)
    (hChanged : changed.Anchored anchor) :
    (putBack changed).Anchored anchor := by
  cases hLeads with
  | member hElement =>
      cases changed with
      | element found =>
          exact
            Document.anchored_replaceAt hView hChanged _
      | _ => cases hKind
  | item hValue =>
      cases changed with
      | value found =>
          exact
            ArrayDoc.anchored_replaceAt hView hChanged _
      | _ => cases hKind
  | value hValue =>
      cases changed with
      | value found =>
          exact anchored_withValue hValue hChanged
      | _ => cases hKind
  | document hValue hOpen =>
      cases changed with
      | document found =>
          have hHolding :=
            (Value.anchored_of_openDocument hStable
              (anchored_of_value? hValue hView) hOpen).2
          exact
            anchored_withValue hValue
              (hHolding found hChanged)
      | _ => cases hKind
  | array hValue hOpen =>
      cases changed with
      | array found =>
          have hHolding :=
            (Value.anchored_of_openArray hStable
              (anchored_of_value? hValue hView) hOpen).2
          exact
            anchored_withValue hValue
              (hHolding found hChanged)
      | _ => cases hKind
  | scope hValue hOpen =>
      cases changed with
      | document found =>
          have hHolding :=
            (Value.anchored_of_openScope hStable
              (anchored_of_value? hValue hView) hOpen).2
          exact
            anchored_withValue hValue
              (hHolding found hChanged)
      | _ => cases hKind

/- All views along paths are anchored with the first. -/
theorem anchored_of_lookAlong
    {path : List PathStep}
    (hView : view.Anchored anchor)
    (hLook : view.lookAlong path = .ok inner) :
    inner.Anchored anchor :=
  of_lookAlong (anchored_of_leads hStable) hView hLook

end View

end BsonView
