import BsonView.Proofs.Opening.Paths
import BsonView.Proofs.Reading.Containers
import BsonView.Proofs.Reading.Measures

/-
  Opening and validity.

  Opening a container leaves what validation says as it was:
  the size, or the failure with its progress, at every depth
  and within all limits. An array is measured with indices
  for keys once it is open, so its keys have to be those.

  Main declarations:
    * `View.measure`
    * `View.MeasuredAs`
    * `Value.measure_openDocument`
    * `Value.measure_openArray`
    * `Value.measure_openScope`
    * `View.measuredAs_of_opens`
    * `opening_keeps_validity`
-/

------------------------------------------------------------
-- One Container
------------------------------------------------------------

namespace BsonView

namespace Value

variable
  {value : Value}
  (limits : Limits)
  (depth : Nat)

/- An embedded document is measured the same when opened. -/
theorem measure_openDocument
    {doc : Document}
    (hOpen : value.openDocument = .ok doc) :
    (value.holding (.document doc)).measure limits depth =
      value.measure limits depth := by
  rcases value with ⟨place, payload⟩
  rcases bind_eq_ok.mp hOpen with ⟨⟨⟩, hCheck, hFound⟩
  have hTag := Place.checkTag_eq_ok.mp hCheck
  cases payload with
  | raw =>
      have hRead :
          Document.readFrom place.buffer place.offset =
            .ok doc := hFound
      rw [Value.measure_raw hTag, holding,
        Value.measure_of_tag hTag, Payload.measure,
        Document.measure_of_readFrom hRead,
        Validation.Plain.payload_of_isContainer rfl]
      rfl
  | document opened =>
      cases hFound
      rfl
  | array opened => cases hFound

/- So is an array if its indices are its keys. -/
theorem measure_openArray
    {array : ArrayDoc}
    (hOpen : value.openArray = .ok array)
    (hKeyed : value.payload = .raw → array.IndexKeyed) :
    (value.holding (.array array)).measure limits depth =
      value.measure limits depth := by
  rcases value with ⟨place, payload⟩
  rcases bind_eq_ok.mp hOpen with ⟨⟨⟩, hCheck, hFound⟩
  have hTag := Place.checkTag_eq_ok.mp hCheck
  cases payload with
  | raw =>
      have hRead :
          ArrayDoc.readFrom place.buffer place.offset =
            .ok array := hFound
      rw [Value.measure_raw hTag, holding,
        Value.measure_of_tag hTag, Payload.measure,
        ArrayDoc.measure_of_readFrom hRead (hKeyed rfl),
        Validation.Plain.payload_of_isContainer rfl]
      rfl
  | array opened =>
      cases hFound
      rfl
  | document opened => cases hFound

/-
  So is a code with scope, also when its string is not
  closed, which opening does not ask for.
-/
theorem measure_openScope
    {scope : Document}
    (hOpen : value.openScope = .ok scope) :
    (value.holding (.document scope)).measure limits depth =
      value.measure limits depth := by
  rcases value with ⟨place, payload⟩
  rcases bind_eq_ok.mp hOpen with ⟨⟨⟩, hCheck, hFound⟩
  have hTag := Place.checkTag_eq_ok.mp hCheck
  cases payload with
  | raw =>
      have hRead : place.readScope = .ok scope := hFound
      rcases Place.of_readScope_eq_ok hRead with
        ⟨hThere, hScope⟩
      have hOuter := Word.readInt32_eq_ok.mpr ⟨hThere, rfl⟩
      rw [Value.measure_raw hTag, holding,
        Value.measure_of_tag hTag, Payload.measure,
        Validation.Plain.payload, lift_eq_mapError, hOuter,
        mapError_ok, ok_bind]
      cases hCode :
          Framing.stringLength (place.rest.drop 4) with
      | error error => rfl
      | ok code =>
          simp only [mapError_ok, ok_bind]
          rw [Document.measure_of_readFrom
              (hScope code hCode),
            Place.rest, List.drop_drop]
  | document opened =>
      cases hFound
      rfl
  | array opened => cases hFound

end Value

end BsonView

------------------------------------------------------------
-- Views Around It
------------------------------------------------------------

namespace BsonView

variable {limits : Limits} {depth : Nat}

/-
  An element is measured by its place and the measure of its
  value.
-/
theorem Element.measure_congr
    {value changed : Value}
    (hPlace : changed.toPlace = value.toPlace)
    (hMeasure :
      changed.measure limits depth =
        value.measure limits depth) :
    (⟨changed⟩ : Element).measure limits depth =
      (⟨value⟩ : Element).measure limits depth := by
  rw [Element.measure, Element.measure, hMeasure, hPlace]

/- In place of an element goes one of the same measure. -/
theorem measureElements_set
    {elements : List Element}
    {index : Nat}
    {element changed : Element}
    (hElement : elements[index]? = some element)
    (hMeasure :
      changed.measure limits depth =
        element.measure limits depth)
    (total : Nat) :
    measureElements limits depth total
        (elements.set index changed) =
      measureElements limits depth total elements := by
  induction elements generalizing index total with
  | nil => rfl
  | cons first rest ih =>
      cases index with
      | zero =>
          cases hElement
          rw [List.set_cons_zero, measureElements,
            measureElements, hMeasure]
      | succ index =>
          rw [List.set_cons_succ, measureElements,
            measureElements]
          simp only [ih hElement]

/- So it is among the values of an array. -/
theorem measureValues_set
    {elements : List Element}
    {place : Nat}
    {element changed : Element}
    (hElement : elements[place]? = some element)
    (hMeasure :
      changed.measure limits depth =
        element.measure limits depth)
    (hHeader :
      changed.value.headerLength =
        element.value.headerLength)
    (index total : Nat) :
    measureValues limits depth index total
        (elements.set place changed) =
      measureValues limits depth index total elements := by
  induction elements generalizing place index total with
  | nil => rfl
  | cons first rest ih =>
      cases place with
      | zero =>
          cases hElement
          rw [List.set_cons_zero, measureValues,
            measureValues, hMeasure, hHeader]
      | succ place =>
          rw [List.set_cons_succ, measureValues,
            measureValues]
          simp only [ih hElement]

/- A document is measured by what its elements measure. -/
theorem Document.measure_replaceAt
    {doc : Document}
    {index : Nat}
    {element changed : Element}
    (hElement : doc.elements[index]? = some element)
    (hMeasure :
      changed.measure limits depth =
        element.measure limits depth) :
    (doc.replaceAt index changed).measure limits depth =
      doc.measure limits depth := by
  rcases doc with ⟨elements⟩
  rw [replaceAt, Document.measure, Document.measure,
    measureElements_set hElement hMeasure]

/-
  An array is measured by what its values measure and where
  they are.
-/
theorem ArrayDoc.measure_replaceAt
    {array : ArrayDoc}
    {index : Nat}
    {value changed : Value}
    (hValue : array.get? index = some value)
    (hPlace : changed.toPlace = value.toPlace)
    (hMeasure :
      changed.measure limits depth =
        value.measure limits depth) :
    (array.replaceAt index changed).measure limits depth =
      array.measure limits depth := by
  rcases array with ⟨elements⟩
  rcases Option.map_eq_some_iff.mp hValue with
    ⟨⟨own⟩, hElement, rfl⟩
  have hHeader :
      changed.headerLength = own.headerLength := by
    rw [hPlace]
  rw [replaceAt, ArrayDoc.measure, ArrayDoc.measure,
    measureValues_set hElement
      (Element.measure_congr hPlace hMeasure) hHeader]

namespace Value

/- A value is measured by what its document measures. -/
theorem measure_holding_document
    {doc changed : Document}
    (hMeasure :
      ∀ limits depth,
        changed.measure limits depth =
          doc.measure limits depth)
    (value : Value) :
    (value.holding (.document changed)).measure limits
        depth =
      (value.holding (.document doc)).measure limits
        depth := by
  rw [holding, holding, Value.measure, Value.measure]
  congr
  funext tag
  cases tag <;> simp only [Payload.measure, hMeasure]

/- A value is measured by what its array measures. -/
theorem measure_holding_array
    {array changed : ArrayDoc}
    (hMeasure :
      ∀ limits depth,
        changed.measure limits depth =
          array.measure limits depth)
    (value : Value) :
    (value.holding (.array changed)).measure limits depth =
      (value.holding (.array array)).measure limits
        depth := by
  rw [holding, holding, Value.measure, Value.measure]
  congr
  funext tag
  cases tag <;> simp only [Payload.measure, hMeasure]

end Value

end BsonView

------------------------------------------------------------
-- Openings Inside Views
------------------------------------------------------------

namespace BsonView

open Grammar

namespace View

/- The measure of a view. -/
def measure
    (limits : Limits)
    (depth : Nat) :
    View → Except Failure Nat
| .document d => d.measure limits depth
| .array a => a.measure limits depth
| .element e => e.measure limits depth
| .value v => v.measure limits depth

/-
  Two views are at the same place, if at any, and measure
  the same, sizes and failures, within all limits and at
  every depth.
-/
structure MeasuredAs (view changed : View) : Prop where
  place_eq : changed.place? = view.place?
  measure_eq :
    ∀ limits depth,
      changed.measure limits depth =
        view.measure limits depth

/- Opening containers inside a view keeps its measure. -/
theorem measuredAs_of_opens
    {view changed : View}
    (hOpens :
      Opens ArrayDoc.IndexKeyed view changed) :
    view.MeasuredAs changed := by
  induction hOpens with
  | unchanged view => exact ⟨rfl, fun _ _ => rfl⟩
  | member hElement _ ih =>
      refine ⟨rfl, ?_⟩
      intro limits depth
      exact Document.measure_replaceAt hElement
        (ih.measure_eq limits depth)
  | item hValue _ ih =>
      refine ⟨rfl, ?_⟩
      intro limits depth
      exact ArrayDoc.measure_replaceAt hValue
        (Option.some.inj ih.place_eq)
        (ih.measure_eq limits depth)
  | element _ ih =>
      refine ⟨ih.place_eq, ?_⟩
      intro limits depth
      exact Element.measure_congr
        (Option.some.inj ih.place_eq)
        (ih.measure_eq limits depth)
  | document hOpen _ ih =>
      refine ⟨rfl, ?_⟩
      intro limits depth
      exact
        (Value.measure_holding_document ih.measure_eq _).trans
          (Value.measure_openDocument limits depth hOpen)
  | array hOpen hKeyed _ ih =>
      refine ⟨rfl, ?_⟩
      intro limits depth
      exact
        (Value.measure_holding_array ih.measure_eq _).trans
          (Value.measure_openArray limits depth hOpen
            hKeyed)
  | scope hOpen _ ih =>
      refine ⟨rfl, ?_⟩
      intro limits depth
      exact
        (Value.measure_holding_document ih.measure_eq _).trans
          (Value.measure_openScope limits depth hOpen)

end View

/-
  Opening a container changes nothing about what validation
  says of its value, at any depth and within any limits, be
  it a size or a failure with its progress. An array has to
  have its indices for keys. So nothing changes for a
  document in which containers are opened along any paths,
  and a document that is read out of some bytes is as valid
  as they are.
-/
theorem opening_keeps_validity :
    (∀ (value : Value) (doc : Document),
      value.openDocument = .ok doc →
        ∀ limits depth,
          (value.holding (.document doc)).measure limits
              depth =
            value.measure limits depth) ∧
      (∀ (value : Value) (scope : Document),
        value.openScope = .ok scope →
          ∀ limits depth,
            (value.holding (.document scope)).measure limits
                depth =
              value.measure limits depth) ∧
      (∀ (value : Value) (array : ArrayDoc),
        value.openArray = .ok array →
          (value.payload = .raw → array.IndexKeyed) →
            ∀ limits depth,
              (value.holding (.array array)).measure limits
                  depth =
                value.measure limits depth) ∧
      (∀ (doc : Document) (paths : List (List PathStep)),
        View.DecodesOnlyEach ArrayDoc.IndexKeyed paths
            (.document doc) →
          ∃ opened,
            (View.document doc).openEach paths =
                .document opened ∧
              ∀ limits depth,
                opened.measure limits depth =
                  doc.measure limits depth) ∧
      ∀ (data : Bytes) (doc : Document),
        Document.read data = .ok doc →
          ∀ limits,
            doc.validateWith limits =
              Validation.document limits data 0 0 := by
  refine ⟨?_, ?_, ?_, ?_, ?_⟩
  · intro value doc hOpen limits depth
    exact Value.measure_openDocument limits depth hOpen
  · intro value scope hOpen limits depth
    exact Value.measure_openScope limits depth hOpen
  · intro value array hOpen hKeyed limits depth
    exact Value.measure_openArray limits depth hOpen hKeyed
  · intro doc paths hPaths
    have hStep {found changed : Document}
        (hOpens :
          View.Opens ArrayDoc.IndexKeyed (.document found)
            (.document changed))
        (hFound :
          ∀ limits depth,
            found.measure limits depth =
              doc.measure limits depth)
        (limits : Limits)
        (depth : Nat) :
        changed.measure limits depth =
          doc.measure limits depth :=
      ((View.measuredAs_of_opens hOpens).measure_eq limits
        depth).trans (hFound limits depth)
    exact View.openEach_document hStep hPaths
      (fun _ _ => rfl)
  · intro data doc hRead limits
    exact Document.validateWith_of_read hRead limits

/- An array with its index for a key, opened in a document. -/
theorem keyed_array_keeps_validity :
    let data : Bytes :=
      [16, 0, 0, 0, 4, 97, 0, 8, 0, 0, 0, 10, 48, 0, 0, 0]
    let found := Element.ofPositions data 4 7
    let array : ArrayDoc :=
      ⟨[Element.ofPositions data 11 14]⟩
    let opened : Document :=
      ⟨[⟨found.value.holding (.array array)⟩]⟩
    Document.read data = .ok ⟨[found]⟩ ∧
      (View.document ⟨[found]⟩).openEach
          [[.index 0, .array]] = .document opened ∧
      opened.validate = .ok 16 := by
  intro data found array opened
  have hNull : ScalarForm .null [] := .fixed (by decide) rfl
  have hItems : IsDocument [⟨[48], .scalar .null []⟩] :=
    ⟨⟨by decide, hNull, trivial⟩, by decide⟩
  have hFields :
      IsDocument
        [⟨[97], .array [⟨[48], .scalar .null []⟩]⟩] :=
    ⟨⟨by decide, hItems, trivial⟩, by decide⟩
  have hSpans : Document.spansFrom data 0 = .ok [⟨4, 7⟩] :=
    Document.spansFrom_of_front hFields
      (List.prefix_refl _)
  have hInner :
      Document.spansFrom data 7 = .ok [⟨11, 14⟩] :=
    Document.spansFrom_of_front hItems (by decide)
  have hRead : Document.read data = .ok ⟨[found]⟩ := by
    unfold Document.read Document.readFrom
    rw [hSpans]
    rfl
  have hArray : found.value.openArray = .ok array := by
    change ArrayDoc.readFrom data 7 = _
    unfold ArrayDoc.readFrom Document.readFrom
    rw [hInner]
    rfl
  have hKeyed : array.IndexKeyed := by
    intro index element hElement
    match index with
    | 0 =>
        cases hElement
        rw [Index.digits_of_lt (by decide)]
        rfl
  have hPaths :
      View.DecodesOnlyEach ArrayDoc.IndexKeyed
        [[.index 0, .array]] (.document ⟨[found]⟩) := by
    refine ⟨⟨fun _ _ hStep => (by cases hStep), ?_⟩, trivial⟩
    intro inner putBack hFollow
    cases hFollow
    refine ⟨?_, fun _ _ _ => trivial⟩
    intro value other _ hValue _ hOpen
    cases hValue
    cases hArray.symm.trans hOpen
    exact hKeyed
  have hInside :
      (View.element found).follow .array =
        .ok (.array array,
          View.putContainer (.element found)
            found.value) := by
    change
      (View.enter .array found.value >>= fun inner =>
          .ok (inner, View.putContainer (.element found)
            found.value)) = _
    unfold View.enter
    dsimp only
    rw [hArray]
    rfl
  have hOpened :
      (View.document ⟨[found]⟩).openEach
          [[.index 0, .array]] = .document opened := by
    change
      View.putElement ⟨[found]⟩ 0
          ((View.element found).openAlong [.array]) = _
    rw [View.openAlong_cons, hInside]
    rfl
  rcases opening_keeps_validity with
    ⟨_, _, _, hEach, hWhole⟩
  rcases hEach _ _ hPaths with ⟨changed, hSame, hMeasure⟩
  cases hOpened.symm.trans hSame
  refine ⟨hRead, hOpened, ?_⟩
  have hValid :
      opened.validate =
        Document.validateWith ⟨[found]⟩ .standard :=
    hMeasure .standard 0
  rw [hValid, hWhole data _ hRead]
  decide

end BsonView
