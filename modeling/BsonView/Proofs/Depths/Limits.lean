import BsonView.Proofs.Reading.Measures

/-
  Depth limits.

  A tighter limit changes nothing about a validation but
  where it ends: what it answers within the limit is what a
  wider limit answers, and what it does not answer ends with
  the limit as its cause. This holds of bytes and of views,
  whether they are valid or not.

  Main declarations:
    * `Limits.Cuts`
    * `Validation.Plain.payload_cuts`
    * `Element.measure_cuts`
    * `Value.measure_cuts`
    * `Document.measure_cuts`
    * `ArrayDoc.measure_cuts`
-/

------------------------------------------------------------
-- Outcomes That Are Cut
------------------------------------------------------------

namespace BsonView

namespace Limits

section

variable {α β : Type} {limits : Limits}

/-
  An outcome is another one, unless the limit has ended it
  before.
-/
def Cuts
    (limits : Limits)
    (cut whole : Except Failure α) : Prop :=
  cut = whole ∨
    ∃ progress,
      cut =
        .error
          ((Error.maxDepthExceeded limits.maxDepth).after
            progress)

/- An outcome need not be cut. -/
theorem Cuts.refl
    (outcome : Except Failure α) :
    limits.Cuts outcome outcome :=
  .inl rfl

/- What is cut is cut wherever it begins. -/
theorem Cuts.after
    {cut whole : Except Failure α}
    (hCuts : limits.Cuts cut whole)
    (n : Nat) :
    limits.Cuts (cut.mapError (Failure.after n))
      (whole.mapError (Failure.after n)) := by
  rcases hCuts with rfl | ⟨progress, rfl⟩
  · exact .refl _
  · exact .inr ⟨n + progress, rfl⟩

/- A sequence is cut in one of its parts. -/
theorem Cuts.bind
    {cut whole : Except Failure α}
    {next rest : α → Except Failure β}
    (hFirst : limits.Cuts cut whole)
    (hNext : ∀ a, limits.Cuts (next a) (rest a)) :
    limits.Cuts (cut >>= next) (whole >>= rest) := by
  rcases hFirst with rfl | ⟨progress, rfl⟩
  · cases cut with
    | error failure => exact .refl _
    | ok a => exact hNext a
  · exact .inr ⟨progress, rfl⟩

end

section

variable {limits wide : Limits}

/- The tighter limit is the first to be exceeded. -/
theorem checkDepth_cuts
    (hWide : limits.maxDepth ≤ wide.maxDepth)
    (depth : Nat) :
    limits.Cuts (limits.checkDepth depth)
      (wide.checkDepth depth) := by
  unfold checkDepth
  by_cases hDepth : limits.maxDepth < depth
  · rw [if_pos hDepth]
    exact .inr ⟨0, rfl⟩
  · rw [if_neg hDepth, if_neg (by omega)]
    exact .refl _

end

end Limits

end BsonView

------------------------------------------------------------
-- Bytes
------------------------------------------------------------

namespace BsonView

namespace Validation

namespace Plain

open Limits

variable {limits wide : Limits}

mutual

/- A document is cut where it is too deep or inside. -/
theorem document_cuts
    (hWide : limits.maxDepth ≤ wide.maxDepth)
    (depth : Nat)
    (bytes : Bytes) :
    limits.Cuts (document limits depth bytes)
      (document wide depth bytes) := by
  rw [document, document]
  refine (checkDepth_cuts hWide depth).bind fun _ => ?_
  refine (Cuts.refl _).bind fun length => ?_
  exact elements_cuts hWide depth length 4 _
termination_by 3 * bytes.length + 1
decreasing_by
  simp only [List.length_drop, List.length_take]
  omega

/- Elements are cut in the payload of one of them. -/
theorem elements_cuts
    (hWide : limits.maxDepth ≤ wide.maxDepth)
    (depth length total : Nat)
    (bytes : Bytes) :
    limits.Cuts (elements limits depth length total bytes)
      (elements wide depth length total bytes) := by
  match bytes with
  | [] =>
      rw [elements, elements]
      exact .refl _
  | b :: rest =>
      rw [elements.eq_2 limits, elements.eq_2 wide]
      split
      · exact .refl _
      refine (Cuts.refl _).bind fun tag => ?_
      refine (Cuts.refl _).bind fun key => ?_
      refine
        ((payload_cuts hWide depth tag _).after _).bind ?_
      exact fun size => elements_cuts hWide depth length _ _
termination_by 3 * bytes.length
decreasing_by
  all_goals
    simp only [List.length_drop, List.length_cons]
    omega

/- A payload is cut in the document that it holds. -/
theorem payload_cuts
    (hWide : limits.maxDepth ≤ wide.maxDepth)
    (depth : Nat)
    (tag : Tag)
    (bytes : Bytes) :
    limits.Cuts (payload limits depth tag bytes)
      (payload wide depth tag bytes) := by
  rcases tag.kinds with hContainer | rfl | hScalar
  · rw [payload_of_isContainer hContainer,
      payload_of_isContainer hContainer]
    exact document_cuts hWide (depth + 1) bytes
  · rw [payload, payload]
    refine (Cuts.refl _).bind fun _ => ?_
    refine (Cuts.refl _).bind fun code => ?_
    refine
      ((document_cuts hWide (depth + 1) _).after _).bind ?_
    exact fun scope => .refl _
  · rw [payload_of_isScalar hScalar,
      payload_of_isScalar hScalar]
    exact .refl _
termination_by 3 * bytes.length + 2
decreasing_by
  all_goals
    try simp only [List.length_drop]
    omega

end

end Plain

end Validation

end BsonView

------------------------------------------------------------
-- Views
------------------------------------------------------------

namespace BsonView

open Limits

variable {limits wide : Limits}

mutual

/- A value is cut in its payload. -/
theorem Value.measure_cuts
    (hWide : limits.maxDepth ≤ wide.maxDepth)
    (depth : Nat) :
    ∀ value : Value,
      limits.Cuts (value.measure limits depth)
        (value.measure wide depth)
| ⟨place, payload⟩ => by
    rw [Value.measure, Value.measure]
    cases hTag : place.tag with
    | error error => exact .refl _
    | ok tag =>
        exact Payload.measure_cuts hWide depth hTag payload

theorem Payload.measure_cuts
    (hWide : limits.maxDepth ≤ wide.maxDepth)
    (depth : Nat)
    {place : Place}
    {tag : Tag}
    (hTag : place.tag = .ok tag) :
    ∀ payload : Payload,
      limits.Cuts (payload.measure limits depth place tag)
        (payload.measure wide depth place tag)
| .raw => by
    have hOffset := (Place.tag_eq_ok.mp hTag).2.1
    rw [Payload.measure, Payload.measure,
      Validation.payload_eq_plain _ _ _ _ _ hOffset,
      Validation.payload_eq_plain _ _ _ _ _ hOffset]
    exact Validation.Plain.payload_cuts hWide depth tag _
| .document doc => by
    by_cases hCode : tag = .codeWithScope
    · rw [hCode, Payload.measure, Payload.measure]
      refine (Cuts.refl _).bind fun code => ?_
      refine
        ((Document.measure_cuts hWide (depth + 1) doc).after
          _).bind ?_
      exact fun scope => .refl _
    by_cases hDoc : tag = .embeddedDocument
    · rw [hDoc, Payload.measure, Payload.measure]
      exact Document.measure_cuts hWide (depth + 1) doc
    · rw [Payload.measure.eq_def limits,
        Payload.measure.eq_def wide]
      cases tag with
      | codeWithScope => exact absurd rfl hCode
      | embeddedDocument => exact absurd rfl hDoc
      | _ => exact .refl _
| .array array => by
    by_cases hArray : tag = .array
    · rw [hArray, Payload.measure, Payload.measure]
      exact ArrayDoc.measure_cuts hWide (depth + 1) array
    · rw [Payload.measure.eq_def limits,
        Payload.measure.eq_def wide]
      cases tag with
      | array => exact absurd rfl hArray
      | _ => exact .refl _

/- An element is cut in its value. -/
theorem Element.measure_cuts
    (hWide : limits.maxDepth ≤ wide.maxDepth)
    (depth : Nat) :
    ∀ element : Element,
      limits.Cuts (element.measure limits depth)
        (element.measure wide depth)
| ⟨value⟩ => by
    rw [Element.measure, Element.measure]
    split
    · exact .refl _
    refine (Cuts.refl _).bind fun key => ?_
    refine
      ((Value.measure_cuts hWide depth value).after
        _).bind ?_
    exact fun length => .refl _

/- A document is cut where it is too deep or inside. -/
theorem Document.measure_cuts
    (hWide : limits.maxDepth ≤ wide.maxDepth)
    (depth : Nat) :
    ∀ doc : Document,
      limits.Cuts (doc.measure limits depth)
        (doc.measure wide depth)
| ⟨elements⟩ => by
    rw [Document.measure, Document.measure]
    refine (checkDepth_cuts hWide depth).bind fun _ => ?_
    refine
      (measureElements_cuts hWide depth 4 elements).bind ?_
    exact fun total => .refl _

theorem ArrayDoc.measure_cuts
    (hWide : limits.maxDepth ≤ wide.maxDepth)
    (depth : Nat) :
    ∀ array : ArrayDoc,
      limits.Cuts (array.measure limits depth)
        (array.measure wide depth)
| ⟨elements⟩ => by
    rw [ArrayDoc.measure, ArrayDoc.measure]
    refine (checkDepth_cuts hWide depth).bind fun _ => ?_
    refine
      (measureValues_cuts hWide depth 0 4 elements).bind ?_
    exact fun total => .refl _

theorem measureElements_cuts
    (hWide : limits.maxDepth ≤ wide.maxDepth)
    (depth total : Nat) :
    ∀ elements : List Element,
      limits.Cuts
        (measureElements limits depth total elements)
        (measureElements wide depth total elements)
| [] => by
    rw [measureElements, measureElements]
    exact .refl _
| element :: rest => by
    rw [measureElements.eq_2 limits,
      measureElements.eq_2 wide]
    refine
      ((Element.measure_cuts hWide depth element).after
        _).bind ?_
    exact
      fun length => measureElements_cuts hWide depth _ rest

theorem measureValues_cuts
    (hWide : limits.maxDepth ≤ wide.maxDepth)
    (depth index total : Nat) :
    ∀ elements : List Element,
      limits.Cuts
        (measureValues limits depth index total elements)
        (measureValues wide depth index total elements)
| [] => by
    rw [measureValues, measureValues]
    exact .refl _
| element :: rest => by
    rw [measureValues.eq_2 limits, measureValues.eq_2 wide]
    refine
      ((Element.measure_cuts hWide depth element).after
        _).bind ?_
    exact
      fun length => measureValues_cuts hWide depth _ _ rest

end

end BsonView
