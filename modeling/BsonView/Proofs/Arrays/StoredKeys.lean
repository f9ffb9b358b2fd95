import BsonView.Proofs.Reading.Measures

/-
  What the stored keys of an array's elements count for.

  Two arrays whose elements carry the same contents under
  different keys are both valid with one size, or else both
  fail at the same position for the same cause. What comes
  before that position is sized with index keys. The header
  of the element that fails is not: it counts as it stands
  in the buffer, so that keys of different lengths give
  different progress.

  Main declarations:
    * `Value.SameContent`
    * `Value.SameContent.measure_eq`
    * `Element.SameUnderKey`
    * `StopsAt`
    * `measureValues_of_same`
    * `ArrayDoc.FailsAt`
    * `stored_keys_count_where_sizing_fails`
    * `stored_key_moves_progress`
-/

------------------------------------------------------------
-- The Same Content
------------------------------------------------------------

namespace BsonView

/-
  The code of a code with scope as the buffer has it, with
  its length field and its terminator.
-/
def Place.codeBytes
    (place : Place) : Except Error Bytes := do
  let n ← Framing.stringLength (place.rest.drop 4)
  return (place.rest.drop 4).take n

namespace Value

/-
  The values have one type and one payload: the same bytes
  if nothing is opened, or else the same container and, in
  front of a scope, the same code.
-/
structure SameContent (a b : Value) : Prop where
  tag_eq : a.tag = b.tag
  payload_eq : a.payload = b.payload
  bytes_of_raw :
    a.payload = .raw →
      ∃ bytes, a.payloadBytes = .ok bytes ∧
        b.payloadBytes = .ok bytes
  code_of_opened :
    a.payload ≠ .raw → a.tag = .ok .codeWithScope →
      a.codeBytes = b.codeBytes

variable {limits : Limits} {depth : Nat}

/- A payload is validated as its own bytes are. -/
theorem measure_of_payloadBytes
    {place : Place}
    {tag : Tag}
    {bytes : Bytes}
    (hTag : place.tag = .ok tag)
    (hBytes : place.payloadBytes = .ok bytes) :
    (⟨place, .raw⟩ : Value).measure limits depth =
      Validation.Plain.payload limits depth tag bytes := by
  rcases (Place.payloadBytes_eq_ok hTag).mp hBytes with
    ⟨n, hLength, rfl⟩
  rw [measure_raw hTag]
  exact
    Validation.Plain.payload_of_front (List.take_prefix _ _)
      (Framing.payloadLength_take hLength)

/- The same code has the same length. -/
theorem stringLength_of_codeBytes
    {place other : Place}
    (hCode : place.codeBytes = other.codeBytes) :
    Framing.stringLength (place.rest.drop 4) =
      Framing.stringLength (other.rest.drop 4) := by
  unfold Place.codeBytes at hCode
  cases hOwn :
      Framing.stringLength (place.rest.drop 4) with
  | error error =>
      rw [hOwn] at hCode
      cases hOther :
          Framing.stringLength (other.rest.drop 4) with
      | error found =>
          rw [hOther] at hCode
          cases hCode
          rfl
      | ok m =>
          rw [hOther] at hCode
          cases hCode
  | ok n =>
      rw [hOwn] at hCode
      rcases bind_eq_ok.mp hCode.symm with
        ⟨m, hOther, hTake⟩
      rcases Framing.stringLength_eq_ok.mp hOwn with
        ⟨_, _, _, _, hThere, _⟩
      rcases Framing.stringLength_eq_ok.mp hOther with
        ⟨_, _, _, _, hRoom, _⟩
      have hLength :=
        congrArg List.length (Except.ok.inj hTake)
      rw [List.length_take, List.length_take,
        Nat.min_eq_left hThere,
        Nat.min_eq_left hRoom] at hLength
      rw [hOther, hLength]

/- The same content has the same measure. -/
theorem SameContent.measure_eq
    {a b : Value}
    (hSame : a.SameContent b) :
    a.measure limits depth = b.measure limits depth := by
  rcases a with ⟨place, payload⟩
  rcases b with ⟨other, own⟩
  have hTags : place.tag = other.tag := hSame.tag_eq
  obtain rfl : payload = own := hSame.payload_eq
  cases hTag : place.tag with
  | error error =>
      rw [Value.measure, Value.measure, ← hTags, hTag]
      rfl
  | ok tag =>
      have hOther : other.tag = .ok tag :=
        hTags.symm.trans hTag
      cases payload with
      | raw =>
          rcases hSame.bytes_of_raw rfl with
            ⟨bytes, hBytes, hSameBytes⟩
          rw [measure_of_payloadBytes hTag hBytes,
            measure_of_payloadBytes hOther hSameBytes]
      | array array =>
          rw [measure_of_tag hTag, measure_of_tag hOther]
          rfl
      | document doc =>
          rw [measure_of_tag hTag, measure_of_tag hOther]
          by_cases hCode : tag = .codeWithScope
          · cases hCode
            have hBytes :=
              hSame.code_of_opened nofun hTag
            simp only [Payload.measure,
              stringLength_of_codeBytes hBytes]
          · cases tag <;> first
              | rfl
              | exact absurd rfl hCode

end Value

/-
  The elements have well-formed keys and the same content
  under them.
-/
structure Element.SameUnderKey (a b : Element) : Prop where
  keyed : ∃ key, a.value.keyBytes? = some key
  other_keyed : ∃ key, b.value.keyBytes? = some key
  content : a.value.SameContent b.value

end BsonView

------------------------------------------------------------
-- Where Sizing Stops
------------------------------------------------------------

namespace BsonView

variable {limits : Limits} {depth : Nat}

/-
  Sizing the values from position `index` on stops `place`
  values later. The values before it have been sized with
  index keys; the header of the one that fails counts as it
  is stored.
-/
structure StopsAt
    (limits : Limits)
    (depth index total : Nat)
    (elements : List Element)
    (place sized : Nat)
    (element : Element)
    (failure : Failure) : Prop where
  there : elements[place]? = some element
  before :
    measureValues limits depth index total
      (elements.take place) = .ok sized
  value_eq :
    element.value.measure limits depth = .error failure
  measure_eq :
    measureValues limits depth index total elements =
      .error
        (failure.after
          (sized + element.value.headerLength))

/- The first value may be the one that fails. -/
theorem stopsAt_zero
    {value : Value}
    {key : Bytes}
    {failure : Failure}
    (hKey : value.keyBytes? = some key)
    (hValue : value.measure limits depth = .error failure)
    (index total : Nat)
    (rest : List Element) :
    StopsAt limits depth index total (⟨value⟩ :: rest) 0
      total ⟨value⟩ failure := by
  refine ⟨rfl, rfl, hValue, ?_⟩
  rw [measureValues_cons_of_key hKey, hValue]
  rfl

/- Or else sizing goes on behind it. -/
theorem StopsAt.cons
    {value : Value}
    {key : Bytes}
    {length index total place sized : Nat}
    {rest : List Element}
    {element : Element}
    {failure : Failure}
    (hKey : value.keyBytes? = some key)
    (hValue : value.measure limits depth = .ok length)
    (hStops :
      StopsAt limits depth (index + 1)
        (total +
          ((Index.digits index).length + 2 + length))
        rest place sized element failure) :
    StopsAt limits depth index total (⟨value⟩ :: rest)
      (place + 1) sized element failure := by
  refine ⟨hStops.there, ?_, hStops.value_eq, ?_⟩
  · rw [List.take_succ_cons, measureValues_cons_of_key hKey,
      hValue]
    exact hStops.before
  · rw [measureValues_cons_of_key hKey, hValue]
    exact hStops.measure_eq

/-
  Values with the same contents have the same size with
  index keys, or stop at the same place for the same cause.
-/
theorem measureValues_of_same
    {elements others : List Element}
    (hSame :
      List.Forall₂ Element.SameUnderKey elements others)
    (index total : Nat) :
    (∃ n,
      measureValues limits depth index total elements =
          .ok n ∧
        measureValues limits depth index total others =
          .ok n) ∨
      ∃ place sized failure element other,
        StopsAt limits depth index total elements place
            sized element failure ∧
          StopsAt limits depth index total others place
            sized other failure := by
  induction hSame generalizing index total with
  | nil => exact .inl ⟨total, rfl, rfl⟩
  | @cons first second rest more hFirst hRest ih =>
      rcases first with ⟨value⟩
      rcases second with ⟨copy⟩
      rcases hFirst.keyed with ⟨key, hKey⟩
      rcases hFirst.other_keyed with ⟨own, hOwn⟩
      -- Both lists go on or stop here, whatever their keys.
      have hMeasure :
          value.measure limits depth =
            copy.measure limits depth :=
        hFirst.content.measure_eq
      cases hValue : value.measure limits depth with
      | error failure =>
          have hCopy := hMeasure.symm.trans hValue
          exact
            .inr
              ⟨0, total, failure, ⟨value⟩, ⟨copy⟩,
                stopsAt_zero hKey hValue index total rest,
                stopsAt_zero hOwn hCopy index total more⟩
      | ok length =>
          have hCopy := hMeasure.symm.trans hValue
          rcases ih (index + 1)
              (total +
                ((Index.digits index).length + 2 +
                  length)) with
            ⟨n, hElements, hOthers⟩ |
              ⟨place, sized, failure, element, other,
                hStops, hOther⟩
          · left
            refine ⟨n, ?_, ?_⟩
            · rw [measureValues_cons_of_key hKey, hValue]
              exact hElements
            · rw [measureValues_cons_of_key hOwn, hCopy]
              exact hOthers
          · exact
              .inr
                ⟨place + 1, sized, failure, element, other,
                  hStops.cons hKey hValue,
                  hOther.cons hOwn hCopy⟩

end BsonView

------------------------------------------------------------
-- Arrays With Other Keys
------------------------------------------------------------

namespace BsonView

namespace ArrayDoc

variable {limits : Limits}

/-
  Validating the array fails at a position. The values
  before it count with index keys, the header of the value
  there as it is stored.
-/
structure FailsAt
    (array : ArrayDoc)
    (limits : Limits)
    (index sized : Nat)
    (element : Element)
    (failure : Failure) : Prop where
  there : array.elements[index]? = some element
  before :
    (⟨array.elements.take index⟩ : ArrayDoc).validateWith
      limits = .ok (sized + 1)
  value_eq :
    element.value.validateWith limits = .error failure
  validate_eq :
    array.validateWith limits =
      .error
        (failure.after
          (sized + element.value.headerLength))

/- No limit is passed by an array that is in no other. -/
theorem validateWith_eq
    (elements : List Element) :
    (⟨elements⟩ : ArrayDoc).validateWith limits =
      measureValues limits 0 0 4 elements >>=
        fun total => .ok (total + 1) := by
  rw [validateWith, ArrayDoc.measure, Limits.checkDepth,
    if_neg (Nat.not_lt_zero _)]
  rfl

/- Where sizing stops validating fails. -/
theorem failsAt_of_stopsAt
    {elements : List Element}
    {index sized : Nat}
    {element : Element}
    {failure : Failure}
    (hStops :
      StopsAt limits 0 0 4 elements index sized element
        failure) :
    (⟨elements⟩ : ArrayDoc).FailsAt limits index sized
      element failure := by
  refine ⟨hStops.there, ?_, hStops.value_eq, ?_⟩
  · rw [validateWith_eq, hStops.before]
    rfl
  · rw [validateWith_eq, hStops.measure_eq]
    rfl

end ArrayDoc

/-
  Stored keys have no part in the size of an array. Arrays
  of the same contents under any well-formed keys have one
  size, or fail at the same position for the same cause,
  after values that count with index keys. Only the header
  of the value that fails counts as it is stored, so that
  keys of equal lengths give equal results.
-/
theorem stored_keys_count_where_sizing_fails
    {a b : ArrayDoc}
    (hSame :
      List.Forall₂ Element.SameUnderKey a.elements
        b.elements)
    (limits : Limits) :
    ((∃ n, a.validateWith limits = .ok n ∧
          b.validateWith limits = .ok n) ∨
        ∃ index sized failure element other,
          a.FailsAt limits index sized element failure ∧
            b.FailsAt limits index sized other failure) ∧
      ((∀ (index : Nat) (element other : Element),
          a.elements[index]? = some element →
            b.elements[index]? = some other →
              element.value.headerLength =
                other.value.headerLength) →
        a.validateWith limits = b.validateWith limits) := by
  rcases a with ⟨elements⟩
  rcases b with ⟨others⟩
  rcases measureValues_of_same hSame 0 4 with
    ⟨n, hElements, hOthers⟩ |
      ⟨index, sized, failure, element, other, hStops,
        hOther⟩
  · have hValid :
        (⟨elements⟩ : ArrayDoc).validateWith limits =
          .ok (n + 1) := by
      rw [ArrayDoc.validateWith_eq, hElements]
      rfl
    have hOtherValid :
        (⟨others⟩ : ArrayDoc).validateWith limits =
          .ok (n + 1) := by
      rw [ArrayDoc.validateWith_eq, hOthers]
      rfl
    exact
      ⟨.inl ⟨n + 1, hValid, hOtherValid⟩,
        fun _ => hValid.trans hOtherValid.symm⟩
  · have hFails := ArrayDoc.failsAt_of_stopsAt hStops
    have hOtherFails := ArrayDoc.failsAt_of_stopsAt hOther
    refine
      ⟨.inr
        ⟨index, sized, failure, element, other, hFails,
          hOtherFails⟩, ?_⟩
    intro hHeaders
    rw [hFails.validate_eq, hOtherFails.validate_eq,
      hHeaders index element other hFails.there
        hOtherFails.there]

/-
  A boolean that is none, under two keys of one byte each:
  both arrays fail after seven bytes.
-/
theorem keys_of_equal_length_fail_alike :
    let a : ArrayDoc :=
      ⟨[Element.ofPositions [8, 120, 0, 2] 0 3]⟩
    let b : ArrayDoc :=
      ⟨[Element.ofPositions [8, 48, 0, 2] 0 3]⟩
    a.validate = b.validate ∧
      b.validate =
        .error ((Error.invalidBoolean 2).after 7) := by
  intro a b
  have hSame :
      List.Forall₂ Element.SameUnderKey a.elements
        b.elements := by
    refine .cons ⟨⟨[120], rfl⟩, ⟨[48], rfl⟩, ?_⟩ .nil
    exact
      ⟨rfl, rfl, fun _ => ⟨[2], rfl, rfl⟩,
        fun hOpened => absurd rfl hOpened⟩
  have hHeaders :
      ∀ (index : Nat) (element other : Element),
        a.elements[index]? = some element →
          b.elements[index]? = some other →
            element.value.headerLength =
              other.value.headerLength := by
    intro index element other hElement hOther
    cases index with
    | zero =>
        cases hElement
        cases hOther
        rfl
    | succ index => cases hElement
  refine ⟨?_, rfl⟩
  exact
    (stored_keys_count_where_sizing_fails hSame
      Limits.standard).2 hHeaders

/-
  The same boolean under the empty key and under its index:
  the progress is that of the stored keys.
-/
theorem stored_key_moves_progress :
    ∃ stored indexed,
      ArrayDoc.read [8, 0, 0, 0, 8, 0, 2, 0] = .ok stored ∧
        ArrayDoc.read [9, 0, 0, 0, 8, 48, 0, 2, 0] =
          .ok indexed ∧
        List.Forall₂ Element.SameUnderKey stored.elements
          indexed.elements ∧
        stored.validate =
          .error ((Error.invalidBoolean 2).after 6) ∧
        indexed.validate =
          .error ((Error.invalidBoolean 2).after 7) := by
  let first : Bytes := [8, 0, 0, 0, 8, 0, 2, 0]
  let second : Bytes := [9, 0, 0, 0, 8, 48, 0, 2, 0]
  have hFirst :
      Document.spansFrom first 0 = .ok [⟨4, 6⟩] := by
    decide +kernel
  have hSecond :
      Document.spansFrom second 0 = .ok [⟨4, 7⟩] := by
    decide +kernel
  refine
    ⟨⟨[Element.ofPositions first 4 6]⟩,
      ⟨[Element.ofPositions second 4 7]⟩, ?_, ?_, ?_, rfl,
      rfl⟩
  · unfold ArrayDoc.read Document.read Document.readFrom
    rw [hFirst]
    rfl
  · unfold ArrayDoc.read Document.read Document.readFrom
    rw [hSecond]
    rfl
  · refine .cons ⟨⟨[], rfl⟩, ⟨[48], rfl⟩, ?_⟩ .nil
    exact
      ⟨rfl, rfl, fun _ => ⟨[2], rfl, rfl⟩,
        fun hOpened => absurd rfl hOpened⟩

end BsonView
