import BsonView.Proofs.Sessions.Runs
import BsonView.Proofs.Writing.Causes

/-
  Payloads that go with their types.

  The type byte of a value stays in a buffer, its opened
  container beside it. Whatever a caller does, a document is
  held only where the type byte announces an embedded
  document or a code with scope, and an array only where it
  announces an array. So no view is ever refused because its
  payload does not go with its type.

  Main declarations:
    * `Anchor.ofType`
    * `Anchor.ofType_stable`
    * `View.Has`
    * `Value.FitsType`
    * `Value.measure_failsOnly`
    * `Value.emit_failsOnly`
    * `payloads_fit_types`
-/

------------------------------------------------------------
-- The Anchor
------------------------------------------------------------

namespace BsonView

namespace Anchor

/- A container is held where its type is announced. -/
def ofType : Anchor where
  document := fun place =>
    place.tag = .ok .embeddedDocument ∨
      place.tag = .ok .codeWithScope
  array := fun place => place.tag = .ok .array

/- Where the type stays, what is held may stay. -/
theorem moves_of_tag
    {place other : Place}
    (hTag : other.tag = place.tag) :
    ofType.Moves place other := by
  constructor
  · rintro (hDocument | hCode)
    · exact .inl (hTag.trans hDocument)
    · exact .inr (hTag.trans hCode)
  · exact fun hArray => hTag.trans hArray

theorem ofType_stable : ofType.Stable where
  made_document := fun _ => .inl rfl
  made_array := fun _ => rfl
  made_code := fun _ _ =>
    .inr (Place.tag_eq_ok.mpr
      ⟨Nat.two_pos, Nat.le_add_left 2 _, rfl⟩)
  read_document := fun hTag _ => .inl hTag
  read_array := fun hTag _ => hTag
  read_scope := fun hTag _ => .inr hTag
  remade := by
    intro key value element hMake
    rcases Element.of_make?_eq_some hMake with
      ⟨_, _, hTag, _, hSame, _, _⟩
    exact moves_of_tag (hSame.trans hTag.symm)
  normalized := by
    intro value
    rcases value.cases_of_normalizeLength with
      hSelf | ⟨hTag, hSame, _, _⟩
    · exact moves_of_tag (congrArg (·.tag) hSelf)
    · exact moves_of_tag (hSame.trans hTag.symm)

end Anchor

end BsonView

------------------------------------------------------------
-- Values Inside Views
------------------------------------------------------------

namespace BsonView

/-
  A view has a value when that is its own, or is one of an
  element of the view, or is in a container that the value
  of the view holds opened, at any depth.
-/
inductive View.Has : View → Value → Prop
| own
    {view : View}
    {value : Value}
    (hValue : view.value? = some value) :
    Has view value
| member
    {doc : Document}
    {element : Element}
    {value : Value}
    (hMem : element ∈ doc.elements)
    (hHas : Has (.value element.value) value) :
    Has (.document doc) value
| item
    {array : ArrayDoc}
    {element : Element}
    {value : Value}
    (hMem : element ∈ array.elements)
    (hHas : Has (.value element.value) value) :
    Has (.array array) value
| inDocument
    {view : View}
    {outer value : Value}
    {doc : Document}
    (hOuter : view.value? = some outer)
    (hOpened : outer.payload = .document doc)
    (hHas : Has (.document doc) value) :
    Has view value
| inArray
    {view : View}
    {outer value : Value}
    {array : ArrayDoc}
    (hOuter : view.value? = some outer)
    (hOpened : outer.payload = .array array)
    (hHas : Has (.array array) value) :
    Has view value

/- All values that a view has are anchored with it. -/
theorem View.Has.anchored
    {anchor : Anchor}
    {view : View}
    {value : Value}
    (hHas : view.Has value)
    (hView : view.Anchored anchor) :
    value.Anchored anchor := by
  induction hHas with
  | own hValue =>
      exact View.anchored_of_value? hValue hView
  | member hMem _ ih =>
      exact ih (Document.anchored_iff.mp hView _ hMem)
  | item hMem _ ih =>
      exact ih (ArrayDoc.anchored_iff.mp hView _ hMem)
  | @inDocument _ outer _ _ hOuter hOpened _ ih =>
      have hAnchored := View.anchored_of_value? hOuter hView
      rcases outer with ⟨place, payload⟩
      cases hOpened
      exact ih hAnchored.2
  | @inArray _ outer _ _ hOuter hOpened _ ih =>
      have hAnchored := View.anchored_of_value? hOuter hView
      rcases outer with ⟨place, payload⟩
      cases hOpened
      exact ih hAnchored.2

/-
  A value that holds a document is initialized and has the
  type byte of an embedded document or a code with scope;
  one that holds an array has that of an array.
-/
def Value.FitsType (value : Value) : Prop :=
  match value.payload with
  | .raw => True
  | .document _ =>
      value.isInitialized = true ∧
        (value.buffer[value.start]? = some 0x03 ∨
          value.buffer[value.start]? = some 0x0F)
  | .array _ =>
      value.isInitialized = true ∧
        value.buffer[value.start]? = some 0x04

/- A place that has a type is initialized. -/
theorem Place.isInitialized_of_tag
    {place : Place}
    {tag : Tag}
    (hTag : place.tag = .ok tag) :
    place.isInitialized = true := by
  rcases Place.tag_eq_ok.mp hTag with ⟨hStart, hOffset, _⟩
  simp [isInitialized, hStart, hOffset]

/- Values anchored by type have payloads that fit. -/
theorem Value.fitsType_of_anchored
    {value : Value}
    (hValue : value.Anchored .ofType) :
    value.FitsType := by
  rcases value with ⟨place, payload⟩
  cases payload with
  | raw => trivial
  | document doc =>
      rcases hValue.1 with hTag | hTag
      · exact
          ⟨Place.isInitialized_of_tag hTag,
            .inl (Place.tag_eq_ok.mp hTag).2.2⟩
      · exact
          ⟨Place.isInitialized_of_tag hTag,
            .inr (Place.tag_eq_ok.mp hTag).2.2⟩
  | array array =>
      exact
        ⟨Place.isInitialized_of_tag hValue.1,
          (Place.tag_eq_ok.mp hValue.1).2.2⟩

end BsonView

------------------------------------------------------------
-- Validation
------------------------------------------------------------

namespace BsonView

/- The failure is not that a type is another. -/
def Failure.NoMismatch (failure : Failure) : Prop :=
  failure.error.NoMismatch

section

variable {α : Type}

/- Counting more progress does not change the error. -/
theorem failsOnly_after
    {outcome : Except Failure α}
    (hOutcome : FailsOnly Failure.NoMismatch outcome)
    (n : Nat) :
    FailsOnly Failure.NoMismatch
      (outcome.mapError (Failure.after n)) :=
  FailsOnly.mapError hOutcome

theorem failsOnly_withProgress
    {outcome : Except Error α}
    (hOutcome : FailsOnly Error.NoMismatch outcome)
    (n : Nat) :
    FailsOnly Failure.NoMismatch
      (outcome.mapError (Error.after n)) :=
  FailsOnly.mapError hOutcome

end

theorem Limits.checkDepth_failsOnly
    (limits : Limits)
    (depth : Nat) :
    FailsOnly Failure.NoMismatch
      (limits.checkDepth depth) := by
  unfold checkDepth
  split
  · exact failsOnly_error trivial
  · exact failsOnly_ok _

theorem Place.keyLength_failsOnly
    (place : Place) :
    FailsOnly Failure.NoMismatch place.keyLength := by
  unfold keyLength
  dsimp only
  split
  · exact failsOnly_error trivial
  split
  · split
    · exact failsOnly_ok _
    · exact failsOnly_error trivial
  · exact failsOnly_error trivial

/- An element is refused over a type as its value is. -/
theorem Element.measure_failsOnly
    {limits : Limits}
    {depth : Nat}
    {element : Element}
    (hValue :
      FailsOnly Failure.NoMismatch
        (element.value.measure limits depth)) :
    FailsOnly Failure.NoMismatch
      (element.measure limits depth) := by
  rcases element with ⟨value⟩
  rw [Element.measure]
  split
  · exact failsOnly_error trivial
  refine FailsOnly.bind
    (failsOnly_after value.keyLength_failsOnly 1) ?_
  intro key _
  refine FailsOnly.bind (failsOnly_after hValue _) ?_
  exact fun _ _ => failsOnly_ok _

mutual

/- A value anchored by type is not refused over its type. -/
theorem Value.measure_failsOnly
    (limits : Limits)
    (depth : Nat) :
    ∀ {value : Value}, value.Anchored .ofType →
      FailsOnly Failure.NoMismatch
        (value.measure limits depth)
| ⟨place, payload⟩, hValue => by
    rw [Value.measure]
    refine FailsOnly.bind
      (failsOnly_withProgress place.tag_failsOnly 0) ?_
    intro tag hTag
    exact
      Payload.measure_failsOnly limits depth
        (mapError_eq_ok.mp hTag) hValue

theorem Payload.measure_failsOnly
    (limits : Limits)
    (depth : Nat)
    {place : Place}
    {tag : Tag}
    (hTag : place.tag = .ok tag) :
    ∀ {payload : Payload},
      payload.Anchored .ofType place →
      FailsOnly Failure.NoMismatch
        (payload.measure limits depth place tag)
| .raw, _ => by
    have hOffset := (Place.tag_eq_ok.mp hTag).2.1
    rw [Payload.measure,
      Validation.payload_eq_plain _ _ _ _ _ hOffset]
    exact
      (Validation.Plain.payload_failsOnly limits depth tag
        _).weaken fun _ hFound => hFound.noMismatch
| .document doc, ⟨hPlace, hDoc⟩ => by
    have hScope :=
      Document.measure_failsOnly limits (depth + 1) hDoc
    rcases hPlace with hDocument | hCode
    · cases hTag.symm.trans hDocument
      rw [Payload.measure]
      exact hScope
    · cases hTag.symm.trans hCode
      rw [Payload.measure]
      refine FailsOnly.bind
        (failsOnly_withProgress
          (Framing.stringLength_failsOnly _).noMismatch 4)
        ?_
      intro code _
      refine (failsOnly_after hScope _).bind ?_
      exact fun _ _ => failsOnly_ok _
| .array array, ⟨hPlace, hArray⟩ => by
    cases hTag.symm.trans hPlace
    rw [Payload.measure]
    exact
      ArrayDoc.measure_failsOnly limits (depth + 1) hArray

theorem Document.measure_failsOnly
    (limits : Limits)
    (depth : Nat) :
    ∀ {doc : Document}, doc.Anchored .ofType →
      FailsOnly Failure.NoMismatch
        (doc.measure limits depth)
| ⟨elements⟩, hDoc => by
    rw [Document.measure]
    refine (limits.checkDepth_failsOnly depth).bind ?_
    intro _ _
    refine FailsOnly.bind
      (measureElements_failsOnly limits depth 4 hDoc) ?_
    exact fun _ _ => failsOnly_ok _

theorem ArrayDoc.measure_failsOnly
    (limits : Limits)
    (depth : Nat) :
    ∀ {array : ArrayDoc}, array.Anchored .ofType →
      FailsOnly Failure.NoMismatch
        (array.measure limits depth)
| ⟨elements⟩, hArray => by
    rw [ArrayDoc.measure]
    refine (limits.checkDepth_failsOnly depth).bind ?_
    intro _ _
    refine FailsOnly.bind
      (measureValues_failsOnly limits depth 0 4 hArray) ?_
    exact fun _ _ => failsOnly_ok _

theorem measureElements_failsOnly
    (limits : Limits)
    (depth total : Nat) :
    ∀ {elements : List Element},
      elementsAnchored .ofType elements →
      FailsOnly Failure.NoMismatch
        (measureElements limits depth total elements)
| [], _ => failsOnly_ok _
| ⟨value⟩ :: rest, ⟨hValue, hRest⟩ => by
    rw [measureElements]
    refine FailsOnly.bind
      (failsOnly_after
        (Element.measure_failsOnly
          (Value.measure_failsOnly limits depth hValue))
        total) ?_
    intro length _
    exact
      measureElements_failsOnly limits depth
        (total + length) hRest

theorem measureValues_failsOnly
    (limits : Limits)
    (depth index total : Nat) :
    ∀ {elements : List Element},
      elementsAnchored .ofType elements →
      FailsOnly Failure.NoMismatch
        (measureValues limits depth index total elements)
| [], _ => failsOnly_ok _
| ⟨value⟩ :: rest, ⟨hValue, hRest⟩ => by
    rw [measureValues]
    refine FailsOnly.bind
      (failsOnly_after
        (Element.measure_failsOnly
          (Value.measure_failsOnly limits depth hValue))
        total) ?_
    intro length _
    exact
      measureValues_failsOnly limits depth (index + 1) _
        hRest

end

end BsonView

------------------------------------------------------------
-- Writing
------------------------------------------------------------

namespace BsonView

open Write

mutual

/- A value anchored by type is written whatever its type. -/
theorem Value.emit_failsOnly
    (keyed : Bool)
    (size? : Option Nat)
    (start : Nat) :
    ∀ {value : Value}, value.Anchored .ofType →
      Write.FailsOnly Error.NoMismatch
        (value.emit keyed size? start)
| ⟨place, payload⟩, hValue => by
    rw [Value.emit]
    refine failsOnly_lift_bind place.tag_failsOnly ?_
    intro tag hTag
    exact
      Payload.emit_failsOnly _ size? start hTag hValue

theorem Payload.emit_failsOnly
    (first : Nat)
    (size? : Option Nat)
    (start : Nat)
    {place : Place}
    {tag : Tag}
    (hTag : place.tag = .ok tag) :
    ∀ {payload : Payload},
      payload.Anchored .ofType place →
      Write.FailsOnly Error.NoMismatch
        (payload.emit place tag first size? start)
| .raw, _ => by
    have hCopy (size : Nat) :
        Write.FailsOnly Error.NoMismatch
          (match tag with
          | .codeWithScope =>
              place.copyRawCode first size start
          | _ => place.copyRaw first size start) := by
      split
      · exact place.copyRawCode_failsOnly first size start
      · exact place.copyRaw_failsOnly first size start
    rw [Payload.emit.eq_def]
    cases size? with
    | some size => exact hCopy size
    | none =>
        exact
          (failsOnly_lift place.rawSize_failsOnly).bind
            hCopy
| .document doc, ⟨hPlace, hDoc⟩ => by
    rcases hPlace with hDocument | hCode
    · cases hTag.symm.trans hDocument
      rw [Payload.emit]
      refine
        (failsOnly_lift (place.slice_failsOnly _ _)).bind ?_
      intro header
      refine (copy_failsOnly start header).bind ?_
      intro n
      refine
        ((Document.emit_failsOnly (start + n) hDoc).after
          n).bind ?_
      exact fun _ => failsOnly_pure _
    · cases hTag.symm.trans hCode
      rw [Payload.emit]
      refine
        (failsOnly_lift
          place.scopeOffset_failsOnly.noMismatch).bind ?_
      intro lead
      refine
        (failsOnly_lift (place.slice_failsOnly _ _)).bind ?_
      intro framing
      refine (copy_failsOnly start framing).bind ?_
      intro n
      refine
        ((Document.emit_failsOnly (start + n) hDoc).after
          n).bind ?_
      intro body
      refine
        ((putLength_failsOnly _ (lead + body)).after _).bind
          ?_
      exact fun _ => failsOnly_pure _
| .array array, ⟨hPlace, hArray⟩ => by
    cases hTag.symm.trans hPlace
    rw [Payload.emit]
    refine
      (failsOnly_lift (place.slice_failsOnly _ _)).bind ?_
    intro header
    refine (copy_failsOnly start header).bind ?_
    intro n
    refine
      ((ArrayDoc.emit_failsOnly (start + n) hArray).after
        n).bind ?_
    exact fun _ => failsOnly_pure _

theorem Document.emit_failsOnly
    (start : Nat) :
    ∀ {doc : Document}, doc.Anchored .ofType →
      Write.FailsOnly Error.NoMismatch (doc.emit start)
| ⟨elements⟩, hDoc => by
    rw [Document.emit]
    refine (reserve_failsOnly start).bind ?_
    intro pos
    refine (emitElements_failsOnly start pos hDoc).bind ?_
    exact fun stop => close_failsOnly start stop

theorem ArrayDoc.emit_failsOnly
    (start : Nat) :
    ∀ {array : ArrayDoc}, array.Anchored .ofType →
      Write.FailsOnly Error.NoMismatch (array.emit start)
| ⟨elements⟩, hArray => by
    rw [ArrayDoc.emit]
    refine (reserve_failsOnly start).bind ?_
    intro pos
    refine (emitValues_failsOnly start 0 pos hArray).bind ?_
    exact fun stop => close_failsOnly start stop

theorem emitElements_failsOnly
    (start pos : Nat) :
    ∀ {elements : List Element},
      elementsAnchored .ofType elements →
      Write.FailsOnly Error.NoMismatch
        (emitElements start pos elements)
| [], _ => by
    rw [emitElements]
    exact failsOnly_pure pos
| ⟨value⟩ :: rest, ⟨hValue, hRest⟩ => by
    rw [emitElements]
    refine
      ((Value.emit_failsOnly true none pos hValue).after
        _).bind ?_
    exact fun n =>
      emitElements_failsOnly start (pos + n) hRest

theorem emitValues_failsOnly
    (start index pos : Nat) :
    ∀ {elements : List Element},
      elementsAnchored .ofType elements →
      Write.FailsOnly Error.NoMismatch
        (emitValues start index pos elements)
| [], _ => by
    rw [emitValues]
    exact failsOnly_pure pos
| ⟨value⟩ :: rest, ⟨hValue, hRest⟩ => by
    rw [emitValues]
    refine
      ((failsOnly_lift value.tag_failsOnly).after _).bind ?_
    intro tag
    refine ((copy_failsOnly pos _).after _).bind ?_
    intro n
    refine
      ((Value.emit_failsOnly false none (pos + n)
        hValue).after _).bind ?_
    exact fun m =>
      emitValues_failsOnly start (index + 1) (pos + n + m)
        hRest

end

end BsonView

------------------------------------------------------------
-- Sessions
------------------------------------------------------------

namespace BsonView

namespace Value

variable
  {value : Value}
  (hValue : value.Anchored .ofType)

include hValue

/- A document is not opened for what is in its bytes. -/
theorem openDocument_failsOnly
    (hTag : value.tag = .ok .embeddedDocument) :
    FailsOnly Error.Found value.openDocument := by
  rcases value with ⟨place, payload⟩
  cases payload with
  | raw =>
      rw [openDocument_of_raw rfl hTag]
      exact Document.readFrom_failsOnly _ _
  | document doc =>
      rw [openDocument_of_opened rfl hTag]
      exact failsOnly_ok doc
  | array array => cases hTag.symm.trans hValue.1

/- So it is with an array. -/
theorem openArray_failsOnly
    (hTag : value.tag = .ok .array) :
    FailsOnly Error.Found value.openArray := by
  rcases value with ⟨place, payload⟩
  cases payload with
  | raw =>
      rw [openArray_of_raw rfl hTag]
      exact ArrayDoc.readFrom_failsOnly _ _
  | array array =>
      rw [openArray_of_opened rfl hTag]
      exact failsOnly_ok array
  | document doc =>
      rcases hValue.1 with hOther | hOther
      · cases hTag.symm.trans hOther
      · cases hTag.symm.trans hOther

/- So it is with a scope. -/
theorem openScope_failsOnly
    (hTag : value.tag = .ok .codeWithScope) :
    FailsOnly Error.Found value.openScope := by
  rcases value with ⟨place, payload⟩
  cases payload with
  | raw =>
      rw [openScope_of_raw rfl hTag]
      exact place.readScope_failsOnly
  | document scope =>
      rw [openScope_of_opened rfl hTag]
      exact failsOnly_ok scope
  | array array => cases hTag.symm.trans hValue.1

end Value

/-
  Whatever a caller has done, each value in what is held, at
  every depth and along every path, holds a document or an
  array only where its type byte says so. Validation and
  writing then never find that its payload does not go with
  its type, and where its type fits it is never refused to
  be opened for what it holds.
-/
theorem payloads_fit_types
    {operations : List Operation}
    {view inner : View}
    {path : List PathStep}
    {value : Value}
    (hMem : view ∈ heldAfter operations)
    (hLook : view.lookAlong path = .ok inner)
    (hHas : inner.Has value) :
    value.FitsType ∧
      (∀ limits depth progress expected actual,
        value.measure limits depth ≠
          .error
            ⟨progress, .typeMismatch expected actual⟩) ∧
      (∀ keyed size? start dest progress expected actual,
        (value.emit keyed size? start dest).1 ≠
          .error
            ⟨progress, .typeMismatch expected actual⟩) ∧
      (value.tag = .ok .embeddedDocument →
        value.openDocument ≠ .error .uninitializedValue) ∧
      (value.tag = .ok .array →
        value.openArray ≠ .error .uninitializedValue) ∧
      (value.tag = .ok .codeWithScope →
        value.openScope ≠ .error .uninitializedValue) := by
  have hCodes (operation : Operation)
      (_ : operation ∈ operations) :
      operation.MakesCodes Anchor.ofType.code := by
    cases operation with
    | make making => cases making <;> trivial
    | edit => trivial
  have hView : view.Anchored .ofType :=
    anchored_of_mem_heldAfter Anchor.ofType_stable hCodes
      hMem
  have hInner :=
    View.anchored_of_lookAlong Anchor.ofType_stable hView
      hLook
  have hValue := hHas.anchored hInner
  refine
    ⟨Value.fitsType_of_anchored hValue, ?_, ?_, ?_, ?_, ?_⟩
  · intro limits depth progress expected actual hError
    exact
      Value.measure_failsOnly limits depth hValue _ hError
  · intro keyed size? start dest progress expected actual
      hError
    exact
      Value.emit_failsOnly keyed size? start hValue dest _
        hError
  · intro hTag hError
    exact Value.openDocument_failsOnly hValue hTag _ hError
  · intro hTag hError
    exact Value.openArray_failsOnly hValue hTag _ hError
  · intro hTag hError
    exact Value.openScope_failsOnly hValue hTag _ hError

/- A code with scope in the scope of another. -/
theorem code_in_scope_fits_type :
    let operations : List Operation :=
      [.make .emptyDocument, .make (.code "f" 0),
        .edit 0 [] (.set "c" 1),
        .edit 0 [.index 0, .scope] (.set "n" 1)]
    let value : Value :=
      ⟨⟨[15, 110, 0, 15, 0, 0, 0, 2, 0, 0, 0, 102, 0,
        5, 0, 0, 0, 0], 0, 3⟩, .document .empty⟩
    let outer : Value :=
      ⟨⟨[15, 99, 0, 15, 0, 0, 0, 2, 0, 0, 0, 102, 0,
        5, 0, 0, 0, 0], 0, 3⟩, .document ⟨[⟨value⟩]⟩⟩
    .document ⟨[⟨outer⟩]⟩ ∈ heldAfter operations ∧
      value.FitsType ∧
      value.openScope ≠ .error .uninitializedValue := by
  intro operations value outer
  have hHeld :
      heldAfter operations =
        [.document ⟨[⟨outer⟩]⟩,
          .value (.ofCode "f" .empty)] := rfl
  have hMem :
      .document ⟨[⟨outer⟩]⟩ ∈ heldAfter operations := by
    rw [hHeld]
    exact List.mem_cons_self
  have hLook :
      (View.document ⟨[⟨outer⟩]⟩).lookAlong
          [.index 0, .scope] =
        .ok (.document ⟨[⟨value⟩]⟩) := rfl
  have hHas : (View.document ⟨[⟨value⟩]⟩).Has value :=
    .member List.mem_cons_self (.own rfl)
  rcases payloads_fit_types hMem hLook hHas with
    ⟨hFits, _, _, _, _, hScope⟩
  exact ⟨hMem, hFits, hScope rfl⟩

end BsonView
