import BsonView.Construction
import BsonView.Proofs.Editing.Positions
import BsonView.Proofs.Reading.Inverses
import BsonView.Proofs.RoundTrip
import BsonView.Proofs.Views.Accessing

/-
  Constructors and accessors.

  An accessor answers a scalar exactly where the value has
  the type and the payload of that scalar, and a constructor
  makes a value with both. So each undoes the other, and
  what keeps type and payload keeps the answer: a value that
  is put under a key, written and read answers as it did.

  Main declarations:
    * `Value.Answers`
    * `Value.answers_iff`
    * `Value.answers_ofScalar`
    * `Element.read_scalar`
    * `Element.read_code`
    * `constructors_and_accessors_are_inverse`
-/

------------------------------------------------------------
-- Answers
------------------------------------------------------------

namespace BsonView

open Grammar

namespace Value

variable {value : Value} {scalar : Scalar}

/-
  The accessor of the type of a scalar answers its parts. A
  type without a payload has no accessor, only itself.
-/
def Answers (value : Value) : Scalar → Prop
| .double x => value.asDouble = .ok x
| .string text => value.asString = .ok text
| .binary subtype data =>
    value.asBinary = .ok (subtype, data)
| .undefined => value.tag = .ok .undefined
| .objectId id => value.asObjectId = .ok id
| .boolean b => value.asBoolean = .ok b
| .dateTime milliseconds =>
    value.asDateTime = .ok milliseconds
| .null => value.tag = .ok .null
| .regex pattern options =>
    value.asRegex = .ok (pattern, options)
| .dbPointer name id => value.asDbPointer = .ok (name, id)
| .javaScript code => value.asJavaScript = .ok code
| .symbol text => value.asSymbol = .ok text
| .int32 n => value.asInt32 = .ok n
| .timestamp time increment =>
    value.asTimestamp = .ok (time, increment)
| .int64 n => value.asInt64 = .ok n
| .decimal128 digits => value.asDecimal128 = .ok digits
| .minKey => value.tag = .ok .minKey
| .maxKey => value.tag = .ok .maxKey

/- An accessor answers in its type what its reader does. -/
theorem checked_eq_ok
    {α : Type}
    {tag : Tag}
    {outcome : Except Error α}
    {a : α}
    {p : Prop}
    (hRead : outcome = .ok a ↔ p) :
    (value.checkTag tag >>= fun _ => outcome) = .ok a ↔
      value.tag = .ok tag ∧ p := by
  rw [bind_eq_ok, ← Place.checkTag_eq_ok, ← hRead]
  constructor
  · rintro ⟨⟨⟩, hCheck, hOutcome⟩
    exact ⟨hCheck, hOutcome⟩
  · rintro ⟨hCheck, hOutcome⟩
    exact ⟨(), hCheck, hOutcome⟩

/- A scalar is answered where its encoding stands. -/
theorem answers_iff_front :
    value.Answers scalar ↔
      value.tag = .ok scalar.tag ∧ scalar.Fits ∧
        scalar.bytes <+: value.rest := by
  have hAlways
      {outcome p : Prop}
      (hRead : outcome ↔ p) :
      outcome ↔ True ∧ p := by
    rw [hRead, true_and]
  cases scalar with
  | undefined | null | minKey | maxKey =>
      exact (and_iff_left ⟨trivial, List.nil_prefix⟩).symm
  | double =>
      exact checked_eq_ok (hAlways Scalar.readDouble_iff_front)
  | string | javaScript | symbol =>
      exact checked_eq_ok Scalar.readString_iff_front
  | binary => exact checked_eq_ok Scalar.readBinary_iff_front
  | objectId | decimal128 =>
      exact checked_eq_ok (hAlways Block.read_iff_front)
  | boolean =>
      exact checked_eq_ok (hAlways Scalar.readBoolean_iff_front)
  | dateTime | int64 =>
      exact checked_eq_ok (hAlways Word.readInt64_iff_front)
  | regex => exact checked_eq_ok Scalar.readRegex_iff_front
  | dbPointer =>
      exact checked_eq_ok Scalar.readDbPointer_iff_front
  | int32 =>
      exact checked_eq_ok (hAlways Word.readInt32_iff_front)
  | timestamp =>
      exact
        checked_eq_ok (hAlways Scalar.readTimestamp_iff_front)

/-
  A scalar is answered where it fits and the value has its
  type and its payload.
-/
theorem answers_iff :
    value.Answers scalar ↔
      value.tag = .ok scalar.tag ∧ scalar.Fits ∧
        value.payloadBytes = .ok scalar.bytes := by
  rw [answers_iff_front]
  constructor
  · rintro ⟨hTag, hFits, hFront⟩
    exact
      ⟨hTag, hFits,
        Place.payloadBytes_of_scalarForm hTag
          hFits.scalarForm hFront⟩
  · rintro ⟨hTag, hFits, hBytes⟩
    rcases (Place.payloadBytes_eq_ok hTag).mp hBytes with
      ⟨n, _, hTake⟩
    refine ⟨hTag, hFits, ?_⟩
    rw [← hTake]
    exact List.take_prefix _ _

/- A scalar that is said and fits is answered. -/
theorem answers_of_holds
    (hFits : scalar.Fits)
    (hHolds :
      value.Holds (.scalar scalar.tag scalar.bytes)) :
    value.Answers scalar :=
  answers_iff_front.mpr
    ⟨tag_of_holds hHolds, hFits,
      (scalarForm_of_holds hHolds).2⟩

/- A raw value is written as the scalar that it answers. -/
theorem encodes_of_answers
    (hRaw : value.payload = .raw)
    (hAnswers : value.Answers scalar) :
    value.Encodes (.scalar scalar.tag scalar.bytes) := by
  rcases value with ⟨place, payload⟩
  cases hRaw
  rcases answers_iff_front.mp hAnswers with
    ⟨hTag, hFits, hFront⟩
  exact
    ⟨hTag, .scalar scalar.tag scalar.bytes,
      hFits.scalarForm, hFront, rfl⟩

end Value

end BsonView

------------------------------------------------------------
-- Made Values
------------------------------------------------------------

namespace BsonView

open Grammar

namespace Value

/- The constructor of a scalar makes what answers it. -/
theorem answers_ofScalar
    {scalar : Scalar}
    (hFits : scalar.Fits) :
    (ofScalar scalar).Answers scalar :=
  answers_iff_front.mpr
    ⟨tag_make _ _ _, hFits, List.prefix_refl _⟩

end Value

namespace Element

variable {key : String} {value : Value} {element : Element}

/- An element is made of a key without a null byte. -/
theorem exists_make?
    {bytes : Bytes}
    (hKey : 0 ∉ Bytes.ofText key)
    (hBytes : value.payloadBytes = .ok bytes) :
    ∃ element, make? key value = some element := by
  cases hMake : make? key value with
  | some element => exact ⟨element, rfl⟩
  | none =>
      rcases make?_eq_none.mp hMake with hNull | hNone
      · exact absurd hNull hKey
      · exact absurd ⟨bytes, hBytes⟩ hNone

/- What answers a scalar does so under a key as well. -/
theorem answers_of_make?
    {scalar : Scalar}
    (hMake : make? key value = some element)
    (hAnswers : value.Answers scalar) :
    element.value.Answers scalar := by
  rcases of_make? hMake with ⟨_, hTag, hBytes, _⟩
  rw [Value.answers_iff] at hAnswers ⊢
  rw [hTag, hBytes]
  exact hAnswers

end Element

namespace Value

variable {value : Value} {code : String} {scope : Document}

/- An opened code answers its string and its scope. -/
theorem asCodeWithScope_of_front
    (hTag : value.tag = .ok .codeWithScope)
    (hOpened : value.payload = .document scope)
    (hCode :
      (Bytes.ofText code).length + 1 ≤ Word.maxLength)
    (hFront :
      Scalar.stringBytes code <+: value.rest.drop 4) :
    value.asCodeWithScope = .ok (code, scope) := by
  have hRead : value.code = .ok code :=
    Scalar.readString_iff_front.mpr ⟨hCode, hFront⟩
  rw [asCodeWithScope_of_openScope
      (openScope_of_opened hOpened hTag), hRead]
  rfl

/- A made code is framed as one with an empty scope. -/
theorem rest_ofCode
    (code : String)
    (scope : Document) :
    ∃ outer, outer.length = 4 ∧
      (ofCode code scope).rest =
        (ParseTree.code outer (Bytes.ofText code)
          []).bytes := by
  have hRest :
      (ofCode code scope).rest =
        Word.ofLength
            (4 + (Scalar.stringBytes code ++
              emptyDocumentBytes).length) ++
          (Scalar.stringBytes code ++ emptyDocumentBytes) :=
    rfl
  rw [Scalar.stringBytes_eq] at hRest
  exact ⟨_, Word.length_ofLength _, hRest⟩

/- Its payload is all that is behind its header. -/
theorem payloadBytes_ofCode
    (hCode :
      (Bytes.ofText code).length + 1 ≤ Word.maxLength) :
    (ofCode code scope).payloadBytes =
      .ok (ofCode code scope).rest := by
  rcases rest_ofCode code scope with ⟨outer, hOuter, hRest⟩
  have hTree :
      (ParseTree.code outer (Bytes.ofText code)
        []).WellFormed :=
    ⟨hOuter, hCode, trivial, by decide⟩
  have hLength :=
    ParseTree.payloadLength hTree (List.prefix_refl _)
  rw [← hRest] at hLength
  rw [Place.payloadBytes_eq (tag_ofCode code scope) hLength,
    List.take_length]

/- The constructor of a code makes what answers it. -/
theorem asCodeWithScope_ofCode
    (hCode :
      (Bytes.ofText code).length + 1 ≤ Word.maxLength) :
    (ofCode code scope).asCodeWithScope =
      .ok (code, scope) :=
  asCodeWithScope_of_front (tag_ofCode code scope) rfl hCode
    (List.prefix_append _ emptyDocumentBytes)

end Value

namespace Element

variable {key : String} {element : Element}

/- A made code answers its parts under a key as well. -/
theorem asCodeWithScope_of_make?
    {code : String}
    {scope : Document}
    (hCode :
      (Bytes.ofText code).length + 1 ≤ Word.maxLength)
    (hMake :
      make? key (.ofCode code scope) = some element) :
    element.value.asCodeWithScope = .ok (code, scope) := by
  rcases of_make?_eq_some hMake with
    ⟨tag, bytes, hTag, hBytes, hOwn, hRest, hPayload⟩
  cases hTag.symm.trans (Value.tag_ofCode code scope)
  rw [Value.payloadBytes_ofCode hCode] at hBytes
  cases hBytes
  refine
    Value.asCodeWithScope_of_front hOwn hPayload hCode ?_
  rw [hRest]
  exact List.prefix_append _ emptyDocumentBytes

end Element

end BsonView

------------------------------------------------------------
-- Elements Read Again
------------------------------------------------------------

namespace BsonView

open Grammar

namespace Element

variable {element : Element}

/-
  An element that answers a scalar is encoded, and read as
  one that answers it.
-/
theorem read_scalar
    {key : Bytes}
    {scalar : Scalar}
    (hKey : element.value.keyBytes? = some key)
    (hRaw : element.value.payload = .raw)
    (hAnswers : element.value.Answers scalar)
    (hAddress :
      key.length + 2 + scalar.bytes.length <
        positionLimit) :
    ∃ bytes again, element.encode = .ok bytes ∧
      read bytes = .ok again ∧
      again.value.Answers scalar := by
  rcases Value.answers_iff.mp hAnswers with ⟨_, hFits, _⟩
  have hTree := Value.encodes_of_answers hRaw hAnswers
  have hLength :
      (bodyBytes
          [⟨key, .scalar scalar.tag scalar.bytes⟩]).length <
        positionLimit := by
    rw [length_bodyBytes_cons]
    exact hAddress
  have hEncode :=
    encode_eq_ok.mpr
      ⟨⟨key, .scalar scalar.tag scalar.bytes⟩,
        ⟨hKey, hTree⟩, Nat.zero_le _,
        .inl hFits.scalarForm.isScalar, hLength, rfl⟩
  rcases read_encode hEncode with
    ⟨again, ⟨own, content⟩, hRead, hHeld, hAgain⟩
  cases Value.holds_unique hHeld.2
    (Value.holds_of_encodes hTree)
  exact
    ⟨_, again, hEncode, hRead,
      Value.answers_of_holds hFits hAgain.2⟩

/-
  An element that answers a code and is encoded is read as
  one that answers it, with a scope that says the same.
-/
theorem read_code
    {code : String}
    {scope : Document}
    {bytes : Bytes}
    (hAnswers :
      element.value.asCodeWithScope = .ok (code, scope))
    (hEncode : element.encode = .ok bytes) :
    ∃ again other said, read bytes = .ok again ∧
      again.value.asCodeWithScope = .ok (code, other) ∧
      scope.Holds said ∧ other.Holds said := by
  rcases bind_eq_ok.mp hAnswers with ⟨⟨⟩, hCheck, _⟩
  have hTag := Place.checkTag_eq_ok.mp hCheck
  rcases read_encode hEncode with
    ⟨again, ⟨own, content⟩, hRead, hHeld, hAgain⟩
  rcases Value.cases_of_holds hHeld.2 hTag with
    ⟨text, said, rfl⟩
  rcases Value.asCodeWithScope_of_holds hHeld.2 with
    ⟨found, hScope, hBoth⟩
  rcases Value.asCodeWithScope_of_holds hAgain.2 with
    ⟨other, hOther, hAgainBoth⟩
  rcases bind_eq_ok.mp (hBoth.symm.trans hAnswers) with
    ⟨_, hText, hDone⟩
  cases hDone
  rw [hText] at hAgainBoth
  exact ⟨again, other, said, hRead, hAgainBoth, hScope, hOther⟩

end Element

end BsonView

------------------------------------------------------------
-- Inverses
------------------------------------------------------------

namespace BsonView

/-
  Constructors and accessors are inverse. The value that is
  made of a scalar answers that scalar, and under any key
  without a null byte it is written, if there are positions
  enough, and read as one that answers it. So it is with a
  code and a scope, if they can be written: the code is the
  same then, and the scope holds the same members. And
  whatever value answers a scalar, wherever it stands in a
  buffer, has the payload that the constructor gives that
  scalar.
-/
theorem constructors_and_accessors_are_inverse :
    (∀ scalar : Scalar,
      scalar.Fits →
        (Value.ofScalar scalar).Answers scalar ∧
          ∀ key : String,
            0 ∉ Bytes.ofText key →
              ∃ element,
                Element.make? key (.ofScalar scalar) =
                    some element ∧
                  ((Bytes.ofText key).length + 2 +
                        scalar.bytes.length <
                      positionLimit →
                    ∃ bytes again,
                      element.encode = .ok bytes ∧
                        Element.read bytes = .ok again ∧
                        again.value.Answers scalar)) ∧
      (∀ (code : String) (scope : Document),
        (Bytes.ofText code).length + 1 ≤ Word.maxLength →
          (Value.ofCode code scope).asCodeWithScope =
              .ok (code, scope) ∧
            ∀ key : String,
              0 ∉ Bytes.ofText key →
                ∃ element,
                  Element.make? key (.ofCode code scope) =
                      some element ∧
                    ∀ bytes : Bytes,
                      element.encode = .ok bytes →
                        ∃ again other said,
                          Element.read bytes = .ok again ∧
                            again.value.asCodeWithScope =
                              .ok (code, other) ∧
                            scope.Holds said ∧
                            other.Holds said) ∧
      ∀ (value : Value) (scalar : Scalar),
        value.Answers scalar →
          ∃ bytes, value.payloadBytes = .ok bytes ∧
            (Value.ofScalar scalar).payloadBytes =
              .ok bytes := by
  refine ⟨?_, ?_, ?_⟩
  · intro scalar hFits
    have hAnswers := Value.answers_ofScalar hFits
    refine ⟨hAnswers, fun key hKey => ?_⟩
    rcases Value.answers_iff.mp hAnswers with
      ⟨_, _, hBytes⟩
    rcases Element.exists_make? hKey hBytes with
      ⟨element, hMake⟩
    exact
      ⟨element, hMake,
        Element.read_scalar (Element.keyBytes?_of_make? hMake)
          (Element.of_make? hMake).2.2.2
          (Element.answers_of_make? hMake hAnswers)⟩
  · intro code scope hCode
    refine
      ⟨Value.asCodeWithScope_ofCode hCode,
        fun key hKey => ?_⟩
    rcases Element.exists_make? hKey
        (Value.payloadBytes_ofCode hCode) with
      ⟨element, hMake⟩
    refine ⟨element, hMake, fun bytes hEncode => ?_⟩
    exact
      Element.read_code
        (Element.asCodeWithScope_of_make? hCode hMake) hEncode
  · intro value scalar hAnswers
    rcases Value.answers_iff.mp hAnswers with
      ⟨_, hFits, hBytes⟩
    rcases Value.answers_iff.mp (Value.answers_ofScalar hFits)
      with ⟨_, _, hMade⟩
    exact ⟨scalar.bytes, hBytes, hMade⟩

/-
  A regex and a code are answered after they are written and
  read, and a string in the middle of a buffer is what is
  made of its text.
-/
theorem made_values_answer_again :
    (∃ element bytes again,
      Element.make? "k" (.ofScalar (.regex "é" "i")) =
          some element ∧
        element.encode = .ok bytes ∧
        Element.read bytes = .ok again ∧
        again.value.asRegex = .ok ("é", "i")) ∧
      (∃ again other,
        Element.read
            [15, 107, 0, 15, 0, 0, 0, 2, 0, 0, 0, 99, 0, 5,
              0, 0, 0, 0] =
          .ok again ∧
        again.value.asCodeWithScope = .ok ("c", other)) ∧
      ∃ bytes,
        (⟨⟨[255, 2, 97, 0, 2, 0, 0, 0, 98, 0, 7], 1, 4⟩,
            .raw⟩ : Value).payloadBytes =
          .ok bytes ∧
        (Value.ofScalar (.string "b")).payloadBytes =
          .ok bytes := by
  rcases constructors_and_accessors_are_inverse with
    ⟨hScalar, hCode, hBack⟩
  refine ⟨?_, ?_, hBack _ (.string "b") (by rfl)⟩
  · have hFits : (Scalar.regex "é" "i").Fits :=
      ⟨by decide, by decide⟩
    rcases (hScalar _ hFits).2 "k" (by decide) with
      ⟨element, hMake, hRead⟩
    rcases hRead (by decide) with ⟨bytes, again, hAgain⟩
    exact ⟨element, bytes, again, hMake, hAgain⟩
  · rcases (hCode "c" .empty (by decide)).2 "k" (by decide)
      with ⟨element, hMake, hRead⟩
    cases hMake
    rcases hRead _ rfl with ⟨again, other, _, hAgain, hBoth⟩
    exact ⟨again, other, hAgain, hBoth.1⟩

end BsonView
