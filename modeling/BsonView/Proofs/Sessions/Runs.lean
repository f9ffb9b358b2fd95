import BsonView.Proofs.Sessions.Anchors

/-
  What all operations keep.

  A stable anchor is true of all opened containers that a
  caller ever comes to hold: of those that are made, of
  those that an edit leaves, and so of all that are held
  after any sequence of operations.

  Main declarations:
    * `Operation.MakesCodes`
    * `Making.anchored`
    * `Edit.anchored`
    * `Operation.anchored_step`
    * `anchored_of_mem_heldAfter`
-/

------------------------------------------------------------
-- Making
------------------------------------------------------------

namespace BsonView

variable
  {anchor : Anchor}
  (hStable : anchor.Stable)

/- What is split off by reading is not opened. -/
theorem Element.anchored_of_read
    {bytes : Bytes}
    {element : Element}
    (hRead : read bytes = .ok element) :
    element.value.Anchored anchor := by
  cases bytes with
  | nil => cases hRead
  | cons b rest =>
      rcases bind_eq_ok.mp hRead with ⟨tag, _, hRead⟩
      rcases bind_eq_ok.mp hRead with ⟨key, _, hRead⟩
      rcases bind_eq_ok.mp hRead with ⟨length, _, hDone⟩
      cases hDone
      exact Value.anchored_of_raw rfl

theorem Document.anchored_of_read
    {bytes : Bytes}
    {doc : Document}
    (hRead : read bytes = .ok doc) :
    doc.Anchored anchor := by
  rcases bind_eq_ok.mp hRead with ⟨found, hFound, hRead⟩
  rcases bind_eq_ok.mp hRead with ⟨length, _, hDone⟩
  dsimp only at hDone
  split at hDone
  · cases hDone
  · cases hDone
    exact Document.anchored_of_readFrom hFound

theorem ArrayDoc.anchored_of_read
    {bytes : Bytes}
    {array : ArrayDoc}
    (hRead : read bytes = .ok array) :
    array.Anchored anchor := by
  rcases bind_eq_ok.mp hRead with
    ⟨⟨elements⟩, hDoc, hArray⟩
  cases hArray
  have hElements : Document.Anchored anchor ⟨elements⟩ :=
    Document.anchored_of_read hDoc
  exact hElements

include hStable

/- An element is made with the payload of its value. -/
theorem Element.anchored_of_make?
    {key : String}
    {value : Value}
    {element : Element}
    (hValue : value.Anchored anchor)
    (hMake : make? key value = some element) :
    element.value.Anchored anchor := by
  have hMoves := hStable.remade hMake
  rcases of_make?_eq_some hMake with
    ⟨_, _, _, _, _, _, hPayload⟩
  exact Value.anchored_of_moves hMoves hPayload hValue

/- A value is pushed onto an array as an element. -/
theorem ArrayDoc.anchored_of_push
    {array changed : ArrayDoc}
    {value : Value}
    (hArray : array.Anchored anchor)
    (hValue : value.Anchored anchor)
    (hPush : array.push value = .ok changed) :
    changed.Anchored anchor := by
  unfold push at hPush
  split at hPush
  next element hMake =>
    cases hPush
    have hElement :=
      Element.anchored_of_make? hStable hValue hMake
    exact
      ArrayDoc.anchored_iff.mpr
        (List.forall_mem_append.mpr
          ⟨ArrayDoc.anchored_iff.mp hArray,
            List.forall_mem_singleton.mpr hElement⟩)
  · cases hPush

/- So are all values of an array that is made of them. -/
theorem ArrayDoc.anchored_of_ofValues
    {values : List Value}
    {array : ArrayDoc}
    (hValues : ∀ value ∈ values, value.Anchored anchor)
    (hArray : ofValues values = .ok array) :
    array.Anchored anchor := by
  have hFold (start : ArrayDoc)
      (hStart : start.Anchored anchor)
      (hDone : values.foldlM push start = .ok array) :
      array.Anchored anchor := by
    clear hArray
    induction values generalizing start with
    | nil =>
        cases hDone
        exact hStart
    | cons value rest ih =>
        rcases List.forall_mem_cons.mp hValues with
          ⟨hFirst, hRest⟩
        rcases bind_eq_ok.mp hDone with
          ⟨next, hPush, hNext⟩
        exact
          ih hRest next
            (anchored_of_push hStable hStart hFirst hPush)
            hNext
  exact hFold empty trivial hArray

/- Setting a key leaves an anchored document. -/
theorem Document.anchored_of_set
    {doc changed : Document}
    {key : String}
    {value : Value}
    {old : Option Element}
    (hDoc : doc.Anchored anchor)
    (hValue : value.Anchored anchor)
    (hSet : doc.set key value = .ok (changed, old)) :
    changed.Anchored anchor := by
  unfold set at hSet
  split at hSet
  · split at hSet <;> cases hSet
  next element hMake =>
    have hElement :=
      Element.anchored_of_make? hStable hValue hMake
    split at hSet
    · cases hSet
      exact Document.anchored_replaceAt hDoc hElement _
    · cases hSet
      exact Document.anchored_push hDoc hElement

end BsonView

------------------------------------------------------------
-- Outer Lengths
------------------------------------------------------------

namespace BsonView

variable
  {anchor : Anchor}
  (hStable : anchor.Stable)

include hStable

/- A value keeps its container when its length is set. -/
theorem Value.anchored_normalizeLength
    {value : Value}
    (hValue : value.Anchored anchor) :
    value.normalizeLength.2.Anchored anchor := by
  have hMoves := hStable.normalized value
  have hPayload :
      value.normalizeLength.2.payload = value.payload := by
    rcases value.cases_of_normalizeLength with
      hSelf | ⟨_, _, hSame, _⟩
    · exact congrArg (·.payload) hSelf
    · exact hSame
  exact Value.anchored_of_moves hMoves hPayload hValue

/- So do the elements of a document, as far as they get. -/
theorem Document.anchored_normalizeLengths
    {doc : Document}
    (hDoc : doc.Anchored anchor) :
    doc.normalizeLengths.2.Anchored anchor := by
  refine Document.anchored_iff.mpr ?_
  refine visitAll_keeps ?_ (Document.anchored_iff.mp hDoc)
  intro element hElement
  exact Value.anchored_normalizeLength hStable hElement

end BsonView

------------------------------------------------------------
-- Reading What Is Held
------------------------------------------------------------

namespace BsonView

namespace Value

variable
  {anchor : Anchor}
  {value : Value}

/- The container that a value answers is anchored, too. -/
theorem anchored_of_asDocument
    {doc : Document}
    (hValue : value.Anchored anchor)
    (hDoc : value.asDocument = .ok doc) :
    doc.Anchored anchor := by
  rcases value with ⟨place, payload⟩
  rcases bind_eq_ok.mp hDoc with ⟨⟨⟩, _, hFound⟩
  cases payload with
  | document opened =>
      cases hFound
      exact hValue.2
  | raw => exact Document.anchored_of_readFrom hFound
  | array opened =>
      exact Document.anchored_of_readFrom hFound

theorem anchored_of_asArray
    {array : ArrayDoc}
    (hValue : value.Anchored anchor)
    (hArray : value.asArray = .ok array) :
    array.Anchored anchor := by
  rcases value with ⟨place, payload⟩
  rcases bind_eq_ok.mp hArray with ⟨⟨⟩, _, hFound⟩
  cases payload with
  | array opened =>
      cases hFound
      exact hValue.2
  | raw => exact ArrayDoc.anchored_of_readFrom hFound
  | document opened =>
      exact ArrayDoc.anchored_of_readFrom hFound

theorem anchored_of_asCodeWithScope
    {code : String}
    {scope : Document}
    (hValue : value.Anchored anchor)
    (hCode : value.asCodeWithScope = .ok (code, scope)) :
    scope.Anchored anchor := by
  rcases value with ⟨place, payload⟩
  rcases bind_eq_ok.mp hCode with ⟨⟨⟩, _, hFound⟩
  rcases bind_eq_ok.mp hFound with ⟨text, _, hFound⟩
  cases payload with
  | document opened =>
      cases hFound
      exact hValue.2
  | raw =>
      rcases bind_eq_ok.mp hFound with ⟨read, hRead, hDone⟩
      cases hDone
      exact Place.anchored_of_readScope hRead
  | array opened =>
      rcases bind_eq_ok.mp hFound with ⟨read, hRead, hDone⟩
      cases hDone
      exact Place.anchored_of_readScope hRead

end Value

end BsonView

------------------------------------------------------------
-- Operations
------------------------------------------------------------

namespace BsonView

/- Codes are made of texts that are as `Allowed` says. -/
def Operation.MakesCodes
    (Allowed : String → Prop) : Operation → Prop
| .make (.code text _) => Allowed text
| _ => True

namespace View

variable {anchor : Anchor} {view : View}

/- A view that is a document, an array or an element. -/
theorem anchored_of_document?
    {doc : Document}
    (hDoc : view.document? = some doc)
    (hView : view.Anchored anchor) :
    doc.Anchored anchor := by
  cases view with
  | document own =>
      cases hDoc
      exact hView
  | _ => cases hDoc

theorem anchored_of_array?
    {array : ArrayDoc}
    (hArray : view.array? = some array)
    (hView : view.Anchored anchor) :
    array.Anchored anchor := by
  cases view with
  | array own =>
      cases hArray
      exact hView
  | _ => cases hArray

theorem anchored_of_element?
    {element : Element}
    (hElement : view.element? = some element)
    (hView : view.Anchored anchor) :
    element.value.Anchored anchor := by
  cases view with
  | element own =>
      cases hElement
      exact hView
  | _ => cases hElement

end View

section

variable
  {anchor : Anchor}
  {held : List View}
  (hHeld : ∀ view ∈ held, view.Anchored anchor)
  {slot : Nat}

include hHeld

/- What is in a slot is anchored, also as what it is. -/
theorem anchored_of_slot
    {α : Type}
    {pick : View → Option α}
    {Kept : α → Prop}
    (hPick :
      ∀ {view : View} {a : α}, pick view = some a →
        view.Anchored anchor → Kept a)
    {a : α}
    (hSlot : held[slot]?.bind pick = some a) :
    Kept a := by
  rcases Option.bind_eq_some_iff.mp hSlot with
    ⟨view, hView, hFound⟩
  exact
    hPick hFound (hHeld view (List.mem_of_getElem? hView))

end

variable
  {anchor : Anchor}
  (hStable : anchor.Stable)
  {held : List View}
  (hHeld : ∀ view ∈ held, view.Anchored anchor)

include hStable hHeld

/- What is made of anchored views is anchored. -/
theorem Making.anchored
    {making : Making}
    {view : View}
    (hCodes :
      (Operation.make making).MakesCodes anchor.code)
    (hResult : making.result held = some view) :
    view.Anchored anchor := by
  cases making with
  | blankValue =>
      cases hResult
      exact Value.anchored_of_raw rfl
  | blankElement =>
      cases hResult
      exact Value.anchored_of_raw rfl
  | emptyDocument =>
      cases hResult
      exact
        Document.anchored_iff.mpr (by simp [Document.empty])
  | emptyArray =>
      cases hResult
      exact
        ArrayDoc.anchored_iff.mpr (by simp [ArrayDoc.empty])
  | scalar content =>
      cases hResult
      exact Value.anchored_of_raw rfl
  | positions buffer start offset =>
      cases hResult
      exact Value.anchored_of_raw rfl
  | readElement bytes =>
      rcases Option.bind_eq_some_iff.mp hResult with
        ⟨element, hRead, hDone⟩
      cases hDone
      exact
        Element.anchored_of_read (toOption_eq_some.mp hRead)
  | readDocument bytes =>
      rcases Option.bind_eq_some_iff.mp hResult with
        ⟨doc, hRead, hDone⟩
      cases hDone
      exact
        Document.anchored_of_read (toOption_eq_some.mp hRead)
  | readArray bytes =>
      rcases Option.bind_eq_some_iff.mp hResult with
        ⟨array, hRead, hDone⟩
      cases hDone
      exact
        ArrayDoc.anchored_of_read (toOption_eq_some.mp hRead)
  | document slot =>
      rcases Option.bind_eq_some_iff.mp hResult with
        ⟨doc, hSlot, hDone⟩
      cases hDone
      exact
        ⟨hStable.made_document doc,
          anchored_of_slot hHeld View.anchored_of_document?
            hSlot⟩
  | array slot =>
      rcases Option.bind_eq_some_iff.mp hResult with
        ⟨array, hSlot, hDone⟩
      cases hDone
      exact
        ⟨hStable.made_array array,
          anchored_of_slot hHeld View.anchored_of_array?
            hSlot⟩
  | code text slot =>
      rcases Option.bind_eq_some_iff.mp hResult with
        ⟨scope, hSlot, hDone⟩
      cases hDone
      exact
        ⟨hStable.made_code scope hCodes,
          anchored_of_slot hHeld View.anchored_of_document?
            hSlot⟩
  | element key slot =>
      rcases Option.bind_eq_some_iff.mp hResult with
        ⟨value, hSlot, hResult⟩
      rcases Option.bind_eq_some_iff.mp hResult with
        ⟨element, hMake, hDone⟩
      cases hDone
      exact
        Element.anchored_of_make? hStable
          (anchored_of_slot hHeld View.anchored_of_value?
            hSlot)
          hMake
  | collect slots =>
      cases hResult
      refine Document.anchored_iff.mpr ?_
      intro element hMem
      rcases List.mem_filterMap.mp hMem with
        ⟨slot, _, hSlot⟩
      exact
        anchored_of_slot hHeld View.anchored_of_element?
          hSlot
  | values slots =>
      rcases Option.bind_eq_some_iff.mp hResult with
        ⟨array, hArray, hDone⟩
      cases hDone
      refine
        ArrayDoc.anchored_of_ofValues hStable ?_
          (toOption_eq_some.mp hArray)
      intro value hMem
      rcases List.mem_filterMap.mp hMem with
        ⟨slot, _, hSlot⟩
      exact
        anchored_of_slot hHeld View.anchored_of_value? hSlot
  | copy slot path =>
      rcases Option.bind_eq_some_iff.mp hResult with
        ⟨outer, hSlot, hLook⟩
      exact
        View.anchored_of_lookAlong hStable
          (hHeld outer (List.mem_of_getElem? hSlot))
          (toOption_eq_some.mp hLook)
  | asDocument slot =>
      rcases Option.bind_eq_some_iff.mp hResult with
        ⟨value, hSlot, hResult⟩
      rcases Option.bind_eq_some_iff.mp hResult with
        ⟨doc, hDoc, hDone⟩
      cases hDone
      exact
        Value.anchored_of_asDocument
          (anchored_of_slot hHeld View.anchored_of_value?
            hSlot)
          (toOption_eq_some.mp hDoc)
  | asArray slot =>
      rcases Option.bind_eq_some_iff.mp hResult with
        ⟨value, hSlot, hResult⟩
      rcases Option.bind_eq_some_iff.mp hResult with
        ⟨array, hArray, hDone⟩
      cases hDone
      exact
        Value.anchored_of_asArray
          (anchored_of_slot hHeld View.anchored_of_value?
            hSlot)
          (toOption_eq_some.mp hArray)
  | asScope slot =>
      rcases Option.bind_eq_some_iff.mp hResult with
        ⟨value, hSlot, hResult⟩
      rcases Option.bind_eq_some_iff.mp hResult with
        ⟨⟨code, scope⟩, hCode, hDone⟩
      cases hDone
      exact
        Value.anchored_of_asCodeWithScope
          (anchored_of_slot hHeld View.anchored_of_value?
            hSlot)
          (toOption_eq_some.mp hCode)

/- What an edit leaves is anchored, and of the same kind. -/
theorem Edit.anchored_of_attempt
    {edit : Edit}
    {view changed : View}
    (hView : view.Anchored anchor)
    (hAttempt : edit.attempt held view = some changed) :
    changed.sameKind view = true ∧
      changed.Anchored anchor := by
  unfold attempt at hAttempt
  split at hAttempt
  · rcases Option.bind_eq_some_iff.mp hAttempt with
      ⟨value, hSlot, hAttempt⟩
    rcases Option.bind_eq_some_iff.mp hAttempt with
      ⟨⟨doc, old⟩, hSet, hDone⟩
    cases hDone
    have hValue :=
      anchored_of_slot hHeld View.anchored_of_value? hSlot
    exact
      ⟨rfl,
        Document.anchored_of_set hStable hView hValue
          (toOption_eq_some.mp hSet)⟩
  · rcases Option.bind_eq_some_iff.mp hAttempt with
      ⟨element, hSlot, hDone⟩
    cases hDone
    have hElement :=
      anchored_of_slot hHeld View.anchored_of_element? hSlot
    exact ⟨rfl, Document.anchored_push hView hElement⟩
  · rcases Option.bind_eq_some_iff.mp hAttempt with
      ⟨⟨doc, old⟩, hErase, hDone⟩
    cases hDone
    rcases Option.bind_eq_some_iff.mp hErase with
      ⟨index, _, hErase⟩
    rcases Option.bind_eq_some_iff.mp hErase with
      ⟨element, _, hDone⟩
    cases hDone
    refine ⟨rfl, Document.anchored_iff.mpr ?_⟩
    intro other hMem
    exact
      Document.anchored_iff.mp hView other
        (List.mem_of_mem_eraseIdx hMem)
  · rcases Option.bind_eq_some_iff.mp hAttempt with
      ⟨value, hSlot, hAttempt⟩
    rcases Option.bind_eq_some_iff.mp hAttempt with
      ⟨array, hPush, hDone⟩
    cases hDone
    have hValue :=
      anchored_of_slot hHeld View.anchored_of_value? hSlot
    exact
      ⟨rfl,
        ArrayDoc.anchored_of_push hStable hView hValue
          (toOption_eq_some.mp hPush)⟩
  · rcases Option.bind_eq_some_iff.mp hAttempt with
      ⟨⟨array, old⟩, hErase, hDone⟩
    cases hDone
    rcases Option.bind_eq_some_iff.mp hErase with
      ⟨value, _, hDone⟩
    cases hDone
    refine ⟨rfl, ArrayDoc.anchored_iff.mpr ?_⟩
    intro other hMem
    exact
      ArrayDoc.anchored_iff.mp hView other
        (List.mem_of_mem_eraseIdx hMem)
  · rcases Option.bind_eq_some_iff.mp hAttempt with
      ⟨other, hSlot, hAttempt⟩
    split at hAttempt
    next hKind =>
      cases hAttempt
      exact ⟨hKind, hHeld _ (List.mem_of_getElem? hSlot)⟩
    · cases hAttempt
  · cases hAttempt
    exact
      ⟨rfl, Document.anchored_normalizeLengths hStable hView⟩
  · cases hAttempt
    exact
      ⟨rfl, Value.anchored_normalizeLength hStable hView⟩
  · cases hAttempt
    exact
      ⟨rfl, Value.anchored_normalizeLength hStable hView⟩
  · cases hAttempt

/- So is what an edit leaves that cannot be made. -/
theorem Edit.anchored
    (edit : Edit)
    {view : View}
    (hView : view.Anchored anchor) :
    (edit.apply held view).sameKind view = true ∧
      (edit.apply held view).Anchored anchor := by
  unfold apply
  cases hAttempt : edit.attempt held view with
  | none => exact ⟨view.sameKind_self, hView⟩
  | some changed =>
      exact
        Edit.anchored_of_attempt hStable hHeld hView hAttempt

/- After an operation all that is held is anchored. -/
theorem Operation.anchored_step
    {operation : Operation}
    (hCodes : operation.MakesCodes anchor.code) :
    ∀ view ∈ operation.step held, view.Anchored anchor := by
  cases operation with
  | make making =>
      refine List.forall_mem_append.mpr ⟨hHeld, ?_⟩
      intro view hMem
      exact
        Making.anchored hStable hHeld hCodes
          (Option.mem_toList.mp hMem)
  | edit slot path change =>
      intro view hMem
      rcases List.mem_iff_getElem?.mp hMem with
        ⟨index, hIndex⟩
      rw [step, List.getElem?_modify] at hIndex
      rcases Option.map_eq_some_iff.mp hIndex with
        ⟨old, hOld, hChanged⟩
      have hBefore := hHeld old (List.mem_of_getElem? hOld)
      split at hChanged
      · rw [← hChanged]
        exact
          (View.actAt_keeps (View.anchored_of_leads hStable)
            (View.anchored_putBack hStable)
            (Edit.anchored hStable hHeld change) path
            hBefore).2
      · rw [← hChanged]
        exact hBefore

omit hHeld

/-
  Whatever a caller does, all views that are held are
  anchored, if all codes are made of texts that may be.
-/
theorem anchored_of_mem_heldAfter
    {operations : List Operation}
    (hCodes :
      ∀ operation ∈ operations,
        operation.MakesCodes anchor.code)
    {view : View}
    (hMem : view ∈ heldAfter operations) :
    view.Anchored anchor :=
  heldAfter_keeps
    (fun hAllowed hBefore =>
      Operation.anchored_step hStable hBefore hAllowed)
    hCodes view hMem

end BsonView
