import BsonView.Validation.Sums
import BsonView.Proofs.Views.Keys

/-
  Guarded sums of lengths.

  Where counting with guarded sums answers, it answers what
  is counted without the guards. Where that is a length that
  a buffer can have, no guard is met.

  Main declarations:
    * `Element.measure?_refines`
    * `Document.measure?_refines`
    * `ArrayDoc.measure?_refines`
-/

------------------------------------------------------------
-- Without The Guards
------------------------------------------------------------

namespace BsonView

open Reaching

variable (limits : Limits)

mutual

/- A length that is counted is the value's length. -/
theorem Value.measure?_refines
    (depth : Nat) :
    ∀ value : Value,
      (value.measure? limits depth).Refines
        (value.measure limits depth)
| ⟨place, payload⟩ => by
    unfold Value.measure? Value.measure
    apply (keeps_lift _).refines.bind
    intro tag
    exact payload.measure?_refines depth place tag

theorem Payload.measure?_refines
    (depth : Nat)
    (place : Place)
    (tag : Tag) :
    ∀ payload : Payload,
      (payload.measure? limits depth place tag).Refines
        (payload.measure limits depth place tag)
| .raw => by
    unfold Payload.measure? Payload.measure
    exact (keeps_lift _).refines
| .document doc => by
    have hDoc := doc.measure?_refines (depth + 1)
    unfold Payload.measure? Payload.measure
    cases tag with
    | embeddedDocument => exact hDoc
    | codeWithScope =>
        apply (keeps_lift _).refines.bind
        intro code
        apply refines_sum_bind
        apply (hDoc.after (4 + code)).bind
        intro scope
        exact refines_sum _ _
    | _ => exact (keeps_lift _).refines
| .array array => by
    have hArray := array.measure?_refines (depth + 1)
    unfold Payload.measure? Payload.measure
    cases tag with
    | array => exact hArray
    | _ => exact (keeps_lift _).refines

/- A length that is counted is the element's length. -/
theorem Element.measure?_refines
    (depth : Nat) :
    ∀ element : Element,
      (element.measure? limits depth).Refines
        (element.measure limits depth)
| ⟨value⟩ => by
    have hValue := value.measure?_refines depth
    unfold Element.measure? Element.measure
    split
    · exact (keeps_lift _).refines
    · apply ((keeps_lift _).refines.after 1).bind
      intro key
      apply refines_sum_bind
      apply (hValue.after (1 + key)).bind
      intro length
      exact refines_sum _ _

/- A length that is counted is the document's length. -/
theorem Document.measure?_refines
    (depth : Nat) :
    ∀ doc : Document,
      (doc.measure? limits depth).Refines
        (doc.measure limits depth)
| ⟨elements⟩ => by
    unfold Document.measure? Document.measure
    apply (keeps_lift _).refines.bind
    intro _
    apply (measureElements?_refines depth 4 elements).bind
    intro total
    exact refines_sum _ _

/- A length that is counted is the array's length. -/
theorem ArrayDoc.measure?_refines
    (depth : Nat) :
    ∀ array : ArrayDoc,
      (array.measure? limits depth).Refines
        (array.measure limits depth)
| ⟨elements⟩ => by
    unfold ArrayDoc.measure? ArrayDoc.measure
    apply (keeps_lift _).refines.bind
    intro _
    apply (measureValues?_refines depth 0 4 elements).bind
    intro total
    exact refines_sum _ _

theorem measureElements?_refines
    (depth total : Nat) :
    ∀ elements : List Element,
      (measureElements? limits depth total
          elements).Refines
        (measureElements limits depth total elements)
| [] => (keeps_lift _).refines
| element :: rest => by
    have hFirst := element.measure?_refines depth
    unfold measureElements? measureElements
    apply (hFirst.after total).bind
    intro length
    apply refines_sum_bind
    exact measureElements?_refines depth (total + length) rest

theorem measureValues?_refines
    (depth index total : Nat) :
    ∀ elements : List Element,
      (measureValues? limits depth index total
          elements).Refines
        (measureValues limits depth index total elements)
| [] => (keeps_lift _).refines
| element :: rest => by
    have hFirst := element.measure?_refines depth
    unfold measureValues? measureValues
    apply (hFirst.after total).bind
    intro length
    apply refines_difference_bind
    apply refines_sum_bind
    apply refines_sum_bind
    exact measureValues?_refines depth (index + 1) _ rest

end

end BsonView

------------------------------------------------------------
-- No Guard Met
------------------------------------------------------------

namespace BsonView

open Reaching

mutual

/- The buffers of a value and of all in it can be had. -/
def Value.Addressable : Value → Prop
| ⟨place, payload⟩ =>
    place.buffer.Addressable ∧ payload.Addressable

/- So can those of the container that is opened. -/
def Payload.Addressable : Payload → Prop
| .raw => True
| .document doc => doc.Addressable
| .array array => array.Addressable

/- The buffers of an element and of all in it can be had. -/
def Element.Addressable : Element → Prop
| ⟨value⟩ => value.Addressable

/- The buffers of all elements of a document can be had. -/
def Document.Addressable : Document → Prop
| ⟨elements⟩ => elementsAddressable elements

/- The buffers of all values of an array can be had. -/
def ArrayDoc.Addressable : ArrayDoc → Prop
| ⟨elements⟩ => elementsAddressable elements

/- The buffers of all of some elements can be had. -/
def elementsAddressable : List Element → Prop
| [] => True
| element :: rest =>
    element.Addressable ∧ elementsAddressable rest

end

variable {limits : Limits} {depth n : Nat}

/- The header of a measured element is in its buffer. -/
theorem Element.of_measure_eq_ok
    {value : Value}
    (hMeasure :
      (⟨value⟩ : Element).measure limits depth = .ok n) :
    ∃ key m,
      value.buffer.isEmpty = false ∧
        value.keyLength = .ok key ∧
        value.measure limits depth = .ok m ∧
        1 + key = value.headerLength ∧
        value.headerLength ≤ value.buffer.length ∧
        n = value.headerLength + m := by
  unfold Element.measure at hMeasure
  cases hEmpty : value.buffer.isEmpty with
  | true =>
      rw [hEmpty, if_pos rfl] at hMeasure
      cases hMeasure
  | false =>
      rw [hEmpty, if_neg (by simp)] at hMeasure
      rcases bind_eq_ok.mp hMeasure with
        ⟨key, hKey, hMeasure⟩
      rcases bind_eq_ok.mp hMeasure with ⟨m, hValue, hSum⟩
      have hKey := mapError_eq_ok.mp hKey
      rcases Place.keyLength_eq_ok_iff.mp hKey with
        ⟨_, hOffset, _, hHeader⟩
      cases hSum
      have hLength : 1 + key = value.headerLength := hHeader
      have hInside :
          value.headerLength ≤ value.buffer.length :=
        (Nat.sub_le _ _).trans hOffset
      exact
        ⟨key, m, rfl, hKey, mapError_eq_ok.mp hValue,
          hLength, hInside, by rw [hLength]⟩

/- Lengths are added to those before. -/
theorem le_of_measureElements
    {elements : List Element}
    {total : Nat}
    (hMeasure :
      measureElements limits depth total elements = .ok n) :
    total ≤ n := by
  induction elements generalizing total with
  | nil =>
      cases hMeasure
      exact Nat.le_refl _
  | cons element rest ih =>
      unfold measureElements at hMeasure
      rcases bind_eq_ok.mp hMeasure with ⟨length, _, hRest⟩
      exact (Nat.le_add_right _ _).trans (ih hRest)

theorem le_of_measureValues
    {elements : List Element}
    {index total : Nat}
    (hMeasure :
      measureValues limits depth index total elements =
        .ok n) :
    total ≤ n := by
  induction elements generalizing index total with
  | nil =>
      cases hMeasure
      exact Nat.le_refl _
  | cons element rest ih =>
      unfold measureValues at hMeasure
      rcases bind_eq_ok.mp hMeasure with ⟨length, _, hRest⟩
      exact (Nat.le_add_right _ _).trans (ih hRest)

mutual

/- A length that a buffer can have is counted. -/
theorem Value.measure?_keeps
    {depth n : Nat} :
    ∀ {value : Value},
      value.Addressable →
        value.measure limits depth = .ok n →
          2 * n < positionLimit →
            (value.measure? limits depth).Keeps (.ok n)
| ⟨place, payload⟩, ⟨_, hPayload⟩, hMeasure, hSmall => by
    rcases bind_eq_ok.mp hMeasure with ⟨tag, hTag, hRest⟩
    have hKeeps :=
      payload.measure?_keeps hPayload hRest hSmall
    unfold Value.measure?
    rw [hTag]
    exact hKeeps

theorem Payload.measure?_keeps
    {depth n : Nat}
    {place : Place}
    {tag : Tag} :
    ∀ payload : Payload,
      payload.Addressable →
        payload.measure limits depth place tag = .ok n →
          2 * n < positionLimit →
            (payload.measure? limits depth place tag).Keeps
              (.ok n)
| .raw, _, hMeasure, _ => congrArg some hMeasure
| .document doc, hDoc, hMeasure, hSmall => by
    unfold Payload.measure at hMeasure
    unfold Payload.measure?
    cases tag with
    | embeddedDocument =>
        exact doc.measure?_keeps hDoc hMeasure hSmall
    | codeWithScope =>
        rcases bind_eq_ok.mp hMeasure with
          ⟨code, hCode, hMeasure⟩
        rcases bind_eq_ok.mp hMeasure with
          ⟨scope, hScope, hSum⟩
        cases hSum
        have hKeeps :=
          doc.measure?_keeps hDoc (mapError_eq_ok.mp hScope)
            (by omega)
        dsimp only
        rw [hCode]
        apply (keeps_lift _).bind_ok
        apply keeps_access (Position.sum?_of_lt (by omega))
        apply (hKeeps.after _).bind_ok
        exact keeps_sum (by omega)
    | _ => cases hMeasure
| .array array, hArray, hMeasure, hSmall => by
    unfold Payload.measure at hMeasure
    unfold Payload.measure?
    cases tag with
    | array =>
        exact array.measure?_keeps hArray hMeasure hSmall
    | _ => cases hMeasure

/-
  An element's length is counted if a buffer can have that
  of its payload. A header is never longer than a buffer.
-/
theorem Element.measure?_keeps
    {depth n : Nat} :
    ∀ element : Element,
      element.Addressable →
        element.measure limits depth = .ok n →
          2 * (n - element.value.headerLength) <
            positionLimit →
            (element.measure? limits depth).Keeps (.ok n)
| ⟨value⟩, hValue, hMeasure, hSmall => by
    rcases Element.of_measure_eq_ok hMeasure with
      ⟨key, m, hSome, hKey, hPayload, hHeader, hInside,
        rfl⟩
    have hBuffer : value.buffer.Addressable := by
      rcases value with ⟨place, payload⟩
      exact hValue.1
    unfold Bytes.Addressable at hBuffer
    dsimp only at hSmall
    have hKeeps :=
      value.measure?_keeps hValue hPayload (by omega)
    unfold Element.measure?
    rw [hSome, if_neg (by simp), hKey]
    apply ((keeps_lift _).after 1).bind_ok
    apply keeps_access (Position.sum?_of_lt (by omega))
    apply (hKeeps.after _).bind_ok
    rw [← hHeader]
    exact keeps_sum (by omega)

theorem Document.measure?_keeps
    {depth n : Nat} :
    ∀ doc : Document,
      doc.Addressable →
        doc.measure limits depth = .ok n →
          2 * n < positionLimit →
            (doc.measure? limits depth).Keeps (.ok n)
| ⟨elements⟩, hDoc, hMeasure, hSmall => by
    unfold Document.measure at hMeasure
    rcases bind_eq_ok.mp hMeasure with
      ⟨_, hDepth, hMeasure⟩
    rcases bind_eq_ok.mp hMeasure with
      ⟨total, hTotal, hSum⟩
    cases hSum
    have hKeeps :=
      measureElements?_keeps elements hDoc hTotal (by omega)
    unfold Document.measure?
    rw [hDepth]
    apply hKeeps.bind_ok
    exact keeps_sum (by omega)

theorem ArrayDoc.measure?_keeps
    {depth n : Nat} :
    ∀ array : ArrayDoc,
      array.Addressable →
        array.measure limits depth = .ok n →
          2 * n < positionLimit →
            (array.measure? limits depth).Keeps (.ok n)
| ⟨elements⟩, hArray, hMeasure, hSmall => by
    unfold ArrayDoc.measure at hMeasure
    rcases bind_eq_ok.mp hMeasure with
      ⟨_, hDepth, hMeasure⟩
    rcases bind_eq_ok.mp hMeasure with
      ⟨total, hTotal, hSum⟩
    cases hSum
    have hKeeps :=
      measureValues?_keeps elements hArray hTotal (by omega)
    unfold ArrayDoc.measure?
    rw [hDepth]
    apply hKeeps.bind_ok
    exact keeps_sum (by omega)

theorem measureElements?_keeps
    {depth total n : Nat} :
    ∀ elements : List Element,
      elementsAddressable elements →
        measureElements limits depth total elements =
            .ok n →
          2 * n < positionLimit →
            (measureElements? limits depth total
              elements).Keeps (.ok n)
| [], _, hMeasure, _ => congrArg some hMeasure
| element :: rest, ⟨hFirst, hOthers⟩, hMeasure, hSmall => by
    unfold measureElements at hMeasure
    rcases bind_eq_ok.mp hMeasure with
      ⟨length, hLength, hRest⟩
    have hLess := le_of_measureElements hRest
    have hKeeps :=
      element.measure?_keeps hFirst
        (mapError_eq_ok.mp hLength) (by omega)
    unfold measureElements?
    apply (hKeeps.after _).bind_ok
    apply keeps_access (Position.sum?_of_lt (by omega))
    exact measureElements?_keeps rest hOthers hRest hSmall

theorem measureValues?_keeps
    {depth index total n : Nat} :
    ∀ elements : List Element,
      elementsAddressable elements →
        measureValues limits depth index total elements =
            .ok n →
          2 * n < positionLimit →
            (measureValues? limits depth index total
              elements).Keeps (.ok n)
| [], _, hMeasure, _ => congrArg some hMeasure
| ⟨value⟩ :: rest, ⟨hFirst, hOthers⟩, hMeasure, hSmall => by
    unfold measureValues at hMeasure
    rcases bind_eq_ok.mp hMeasure with
      ⟨length, hLength, hRest⟩
    have hLess := le_of_measureValues hRest
    have hElement := mapError_eq_ok.mp hLength
    dsimp only at hLess
    have hKeeps :=
      Element.measure?_keeps ⟨value⟩ hFirst hElement
        (by dsimp only; omega)
    rcases Element.of_measure_eq_ok hElement with
      ⟨_, m, _, _, _, _, _, rfl⟩
    unfold measureValues?
    apply (hKeeps.after _).bind_ok
    apply keeps_access
      (Position.difference?_of_le (Nat.le_add_right _ _))
    apply keeps_access (Position.sum?_of_lt (by omega))
    apply keeps_access (Position.sum?_of_lt (by omega))
    exact measureValues?_keeps rest hOthers hRest hSmall

end

end BsonView

------------------------------------------------------------
-- At The Top
------------------------------------------------------------

namespace BsonView

variable {limits : Limits} {n : Nat}

/- A counted outcome is the outcome of validation. -/
theorem Element.validateWith_of_counted
    {element : Element}
    {outcome : Except Failure Nat}
    (hCounted :
      element.validateWith? limits = some outcome) :
    element.validateWith limits = outcome :=
  (element.measure?_refines limits 0 outcome hCounted).symm

theorem Document.validateWith_of_counted
    {doc : Document}
    {outcome : Except Failure Nat}
    (hCounted : doc.validateWith? limits = some outcome) :
    doc.validateWith limits = outcome :=
  (doc.measure?_refines limits 0 outcome hCounted).symm

theorem ArrayDoc.validateWith_of_counted
    {array : ArrayDoc}
    {outcome : Except Failure Nat}
    (hCounted : array.validateWith? limits = some outcome) :
    array.validateWith limits = outcome :=
  (array.measure?_refines limits 0 outcome hCounted).symm

/- A length that a buffer can have is counted. -/
theorem Element.counted_of_validateWith
    {element : Element}
    (hBuffers : element.Addressable)
    (hValid : element.validateWith limits = .ok n)
    (hSmall : 2 * n < positionLimit) :
    element.validateWith? limits = some (.ok n) :=
  element.measure?_keeps hBuffers hValid (by omega)

theorem Document.counted_of_validateWith
    {doc : Document}
    (hBuffers : doc.Addressable)
    (hValid : doc.validateWith limits = .ok n)
    (hSmall : 2 * n < positionLimit) :
    doc.validateWith? limits = some (.ok n) :=
  doc.measure?_keeps hBuffers hValid hSmall

theorem ArrayDoc.counted_of_validateWith
    {array : ArrayDoc}
    (hBuffers : array.Addressable)
    (hValid : array.validateWith limits = .ok n)
    (hSmall : 2 * n < positionLimit) :
    array.validateWith? limits = some (.ok n) :=
  array.measure?_keeps hBuffers hValid hSmall

end BsonView
