import BsonView.Traversal
import BsonView.Validation.Views
import BsonView.Access

/-
  The outer length of a code with scope.

  The outer length says what the string and the scope say
  already, and readers go by those. Normalizing a view puts
  the agreeing length into its own buffer. This is the only
  operation that changes a buffer, and only its view sees
  the change.

  Main declarations:
    * `Value.scopedLength`
    * `Value.outerCorrection`
    * `Value.normalizeLength`
    * `Value.normalizeLength_of_error`
    * `Value.cases_of_normalizeLength`
    * `Element.normalizeLength`
    * `Document.normalizeLengths`
-/

------------------------------------------------------------
-- Outer Lengths
------------------------------------------------------------

namespace BsonView

namespace Value

/-
  The outer length that agrees with the string and the scope
  of a code with scope.
-/
def scopedLength (value : Value) : Except Error Nat := do
  let lead ← value.scopeOffset
  let scope ←
    match value.payload with
    | .document scope =>
        scope.validate.mapError Failure.error
    | _ => Word.readLength (value.rest.drop lead)
  return lead + scope

/-
  The outer length to put into the buffer of a code with
  scope, if another one is there. Values of other types have
  none.
-/
def outerCorrection
    (value : Value) : Except Error (Option Int32) := do
  let tag ← value.tag
  if tag ≠ .codeWithScope then
    return none
  let total ← Word.lengthField (← value.scopedLength)
  let declared ← Word.readInt32 value.rest
  if declared = total then
    return none
  return some total

/-
  Make the outer length agree, and answer whether it did not
  before. A buffer that it cannot be put into is put back.
-/
def normalizeLength
    (value : Value) : Except Error Bool × Value :=
  match value.outerCorrection with
  | .error error => (.error error, value)
  | .ok none => (.ok false, value)
  | .ok (some total) =>
      match Word.putInt32 value.buffer value.offset total with
      | .error error => (.error error, value)
      | .ok buffer =>
          (.ok true, { value with buffer := buffer })

/- A value whose outer length cannot be made to agree stays. -/
theorem normalizeLength_of_error
    {value : Value}
    {error : Error}
    (hFail : value.normalizeLength.1 = .error error) :
    value.normalizeLength.2 = value := by
  unfold normalizeLength at hFail ⊢
  split
  · rfl
  · rfl
  next hCorrection =>
    simp only [hCorrection] at hFail
    split
    · rfl
    next hPut =>
      simp [hPut] at hFail

/- Only a code with scope has its outer length corrected. -/
theorem tag_of_outerCorrection
    {value : Value}
    {total : Int32}
    (hCorrection : value.outerCorrection = .ok (some total)) :
    value.tag = .ok .codeWithScope := by
  rcases bind_eq_ok.mp hCorrection with ⟨tag, hTag, hRest⟩
  by_cases hCode : tag = .codeWithScope
  · rw [hTag, hCode]
  · simp [hCode, pure, Except.pure] at hRest

/-
  A value stays as it is; or it is a code with scope, and is
  one with the same payload and the same bytes after its
  outer length.
-/
theorem cases_of_normalizeLength
    (value : Value) :
    value.normalizeLength.2 = value ∨
      value.tag = .ok .codeWithScope ∧
        value.normalizeLength.2.tag = .ok .codeWithScope ∧
        value.normalizeLength.2.payload = value.payload ∧
        value.normalizeLength.2.rest.drop 4 =
          value.rest.drop 4 := by
  unfold normalizeLength
  split
  · exact .inl rfl
  · exact .inl rfl
  next total hCorrection =>
    have hTag := tag_of_outerCorrection hCorrection
    split
    · exact .inl rfl
    next buffer hBuffer =>
      rcases Word.of_putInt32_eq_ok hBuffer with
        ⟨hLength, hBefore, hAfter⟩
      rcases Place.tag_eq_ok.mp hTag with
        ⟨hStart, hOffset, hByte⟩
      refine .inr ⟨hTag, ?_, rfl, ?_⟩
      · refine Place.tag_eq_ok.mpr ⟨hStart, ?_, ?_⟩
        · change value.offset ≤ buffer.length
          rw [hLength]
          exact hOffset
        · change buffer[value.start]? = _
          rw [← List.getElem?_take_of_lt hStart, hBefore,
            List.getElem?_take_of_lt hStart, hByte]
      · change
          (buffer.drop value.offset).drop 4 =
            (value.buffer.drop value.offset).drop 4
        rw [List.drop_drop, List.drop_drop, hAfter]

end Value

namespace Element

/- Normalize the value of the element. -/
def normalizeLength
    (element : Element) : Except Error Bool × Element :=
  let (corrected, value) := element.value.normalizeLength
  (corrected, ⟨value⟩)

/- Normalize an element, which counts if it was changed. -/
def normalizeCounted
    (element : Element) : Except Error Nat × Element :=
  let (corrected, element) := element.normalizeLength
  (corrected.map Bool.toNat, element)

end Element

namespace Document

/-
  Normalize each element in turn, up to the first that
  fails, and answer how many were changed.
-/
def normalizeLengths
    (doc : Document) : Except Error Nat × Document :=
  let (count, elements) :=
    visitAll Element.normalizeCounted id doc.elements
  (count, ⟨elements⟩)

end Document

end BsonView
