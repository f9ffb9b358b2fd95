import BsonView.Proofs.Sessions.Runs
import BsonView.Proofs.Validation.Locality
import BsonView.Proofs.Views.Accessing
import BsonView.Proofs.Views.Keys

/-
  Access to what has been validated.

  In a view that is valid every value along every path can
  be reached: its container opens, its accessor answers, or
  fails for want of a text, and its payload has bytes. The
  last takes more than validity where a container is opened,
  since validity does not look at the bytes that it stands
  for. Those stay framed in whatever a caller does with
  codes that can be counted. A code of 4294967296 bytes has
  a length that wraps around, and its payload may have no
  bytes.

  Main declarations:
    * `Place.Framed`
    * `Anchor.framed`
    * `Anchor.framed_stable`
    * `View.CanBeHeld`
    * `Value.payloadBytes_of_framed`
    * `valid_views_are_accessible`
    * `Value.payloadBytes_of_wrapped`
    * `uncountable_code_has_no_payload_bytes`
-/

------------------------------------------------------------
-- Framed Places
------------------------------------------------------------

namespace BsonView

open Grammar

namespace Place

/-
  The payload in the buffer has a length. That of a code
  with scope may be without one for its string alone.
-/
def Framed (place : Place) : Prop :=
  match place.tag with
  | .ok .codeWithScope =>
      ∀ code,
        Framing.stringLength (place.rest.drop 4) =
          .ok code →
        ∃ scope,
          Framing.documentLength
            ((place.rest.drop 4).drop code) = .ok scope
  | .ok tag =>
      ∃ n, Framing.payloadLength tag place.rest = .ok n
  | .error _ => True

variable {place : Place}

theorem framed_of_code
    (hTag : place.tag = .ok .codeWithScope)
    (hFramed :
      ∀ code,
        Framing.stringLength (place.rest.drop 4) =
          .ok code →
        ∃ scope,
          Framing.documentLength
            ((place.rest.drop 4).drop code) = .ok scope) :
    place.Framed := by
  unfold Framed
  rw [hTag]
  exact hFramed

/- What has a length is framed, whatever its type. -/
theorem framed_of_payloadLength
    {tag : Tag}
    {n : Nat}
    (hTag : place.tag = .ok tag)
    (hLength :
      Framing.payloadLength tag place.rest = .ok n) :
    place.Framed := by
  cases tag with
  | codeWithScope =>
      refine framed_of_code hTag ?_
      intro code hCode
      rcases Framing.payloadLength_codeWithScope_eq_ok.mp
          hLength with
        ⟨own, scope, _, hOwn, hScope, _⟩
      cases hCode.symm.trans hOwn
      rw [← List.drop_drop] at hScope
      exact ⟨scope, hScope⟩
  | _ =>
      unfold Framed
      rw [hTag]
      exact ⟨n, hLength⟩

/- A code is framed by what comes after its outer length. -/
theorem Framed.of_code
    {other : Place}
    (hTag : place.tag = .ok .codeWithScope)
    (hOther : other.tag = .ok .codeWithScope)
    (hRest : other.rest.drop 4 = place.rest.drop 4)
    (hFramed : place.Framed) :
    other.Framed := by
  refine framed_of_code hOther ?_
  unfold Framed at hFramed
  rw [hTag] at hFramed
  rw [hRest]
  exact hFramed

end Place

end BsonView

------------------------------------------------------------
-- The Anchor
------------------------------------------------------------

namespace BsonView

open Grammar

/-
  The text has fewer bytes than four bytes can count. The
  length of a longer one wraps around in its field.
-/
def CountableText (text : String) : Prop :=
  (Bytes.ofText text).length < Word.bound 4

/-
  Of a text that can be counted a string is made that has
  no other length.
-/
theorem stringLength_of_countable
    {text : String}
    {rest : Bytes}
    {n : Nat}
    (hText : CountableText text)
    (hLength :
      Framing.stringLength
        (Scalar.stringBytes text ++ rest) = .ok n) :
    n = (Scalar.stringBytes text).length := by
  rcases Framing.stringLength_eq_ok.mp hLength with
    ⟨length, hField, hPos, rfl, _, _⟩
  rcases Word.readLength_eq_ok.mp hField with
    ⟨hSmall, hFront⟩
  have hOwn :
      Word.ofLength ((Bytes.ofText text).length + 1) <+:
        Scalar.stringBytes text ++ rest := by
    rw [Scalar.stringBytes, List.append_assoc,
      List.append_assoc]
    exact List.prefix_append _ _
  have hValues :=
    congrArg Word.value
      (eq_of_fronts hFront hOwn (by simp))
  rw [Word.ofLength, Word.ofLength, Word.value_bytes,
    Word.value_bytes] at hValues
  unfold CountableText at hText
  unfold Word.maxLength at hSmall
  simp only [Word.bound] at hText hValues
  simp only [Scalar.stringBytes, List.length_append,
    Word.length_ofLength, List.length_singleton]
  omega

namespace Anchor

/- Containers are held at framed places. -/
def framed : Anchor where
  document := Place.Framed
  array := Place.Framed
  code := CountableText

theorem framed_stable : framed.Stable where
  made_document := by
    intro doc
    have hLength :
        Framing.payloadLength .embeddedDocument
          (Value.ofDocument doc).rest = .ok 5 := rfl
    have hFramed : (Value.ofDocument doc).Framed :=
      Place.framed_of_payloadLength rfl hLength
    exact hFramed
  made_array := by
    intro array
    have hLength :
        Framing.payloadLength .array
          (Value.ofArray array).rest = .ok 5 := rfl
    have hFramed : (Value.ofArray array).Framed :=
      Place.framed_of_payloadLength rfl hLength
    exact hFramed
  made_code := by
    intro text scope hText
    refine
      Place.framed_of_code (Value.tag_ofCode text scope) ?_
    intro code hCode
    rw [Value.drop_rest_ofCode] at hCode ⊢
    rw [stringLength_of_countable hText hCode,
      List.drop_left]
    exact ⟨5, rfl⟩
  read_document := by
    intro place doc hTag hRead
    rcases bind_eq_ok.mp hRead with ⟨spans, hSpans, _⟩
    rcases Document.of_spansFrom_eq_ok hSpans with
      ⟨length, _, hLength, _⟩
    exact Place.framed_of_payloadLength hTag hLength
  read_array := by
    intro place array hTag hRead
    rcases bind_eq_ok.mp hRead with ⟨doc, hDoc, _⟩
    rcases bind_eq_ok.mp hDoc with ⟨spans, hSpans, _⟩
    rcases Document.of_spansFrom_eq_ok hSpans with
      ⟨length, _, hLength, _⟩
    exact Place.framed_of_payloadLength hTag hLength
  read_scope := by
    intro place scope hTag hRead
    refine Place.framed_of_code hTag ?_
    intro code hCode
    have hScope :=
      (Place.of_readScope_eq_ok hRead).2 code hCode
    rcases bind_eq_ok.mp hScope with ⟨spans, hSpans, _⟩
    rcases Document.of_spansFrom_eq_ok hSpans with
      ⟨length, _, hLength, _⟩
    refine ⟨length, ?_⟩
    rw [Place.rest, List.drop_drop, List.drop_drop]
    exact hLength
  remade := by
    intro key value element hMake
    rcases Element.of_make?_eq_some hMake with
      ⟨tag, bytes, hTag, hBytes, hSame, hRest, _⟩
    have hFramed : element.value.Framed := by
      rcases (Place.payloadBytes_eq_ok hTag).mp hBytes with
        ⟨n, hLength, rfl⟩
      have hTake := Framing.payloadLength_take hLength
      rw [← hRest] at hTake
      exact Place.framed_of_payloadLength hSame hTake
    exact ⟨fun _ => hFramed, fun _ => hFramed⟩
  normalized := by
    intro value
    rcases value.cases_of_normalizeLength with
      hSelf | ⟨hTag, hOther, _, hRest⟩
    · rw [hSelf]
      exact ⟨id, id⟩
    · exact
        ⟨Place.Framed.of_code hTag hOther hRest,
          Place.Framed.of_code hTag hOther hRest⟩

end Anchor

end BsonView

------------------------------------------------------------
-- Payloads
------------------------------------------------------------

namespace BsonView

open Grammar

/-
  A value that says something at a framed place has bytes
  for its payload, those that its container stands for if
  that is opened.
-/
theorem Value.payloadBytes_of_framed
    {value : Value}
    {content : Content}
    (hHolds : value.Holds content)
    (hValue : value.Anchored .framed) :
    ∃ bytes, value.payloadBytes = .ok bytes := by
  rcases value with ⟨place, payload⟩
  have hTag := Value.tag_of_holds hHolds
  cases payload with
  | raw => exact payloadBytes_of_holds hHolds rfl
  | document doc =>
      have hFramed : place.Framed := hValue.1
      unfold Place.Framed at hFramed
      rw [hTag] at hFramed
      cases content with
      | document said =>
          rcases hFramed with ⟨n, hLength⟩
          exact ⟨_, Place.payloadBytes_eq hTag hLength⟩
      | code text said =>
          rcases openScope_of_holds hHolds with
            ⟨hText, hString, _⟩
          have hCode :=
            Grammar.stringLength_eq_ok.mpr
              ⟨text, hText, hString, rfl⟩
          rcases hFramed _ hCode with ⟨scope, hScope⟩
          rw [List.drop_drop] at hScope
          have hThere : 4 ≤ place.rest.length := by
            have hInside :
                (stringForm text).length ≤
                  (place.rest.drop 4).length :=
              hString.length_le
            rw [length_stringForm, List.length_drop]
              at hInside
            omega
          have hLength :=
            Framing.payloadLength_codeWithScope_eq_ok.mpr
              ⟨_, scope, hThere, hCode, hScope, rfl⟩
          exact ⟨_, Place.payloadBytes_eq hTag hLength⟩
      | scalar => exact hHolds.2.elim
      | array => exact hHolds.2.elim
  | array array =>
      have hFramed : place.Framed := hValue.1
      unfold Place.Framed at hFramed
      rw [hTag] at hFramed
      cases content with
      | array items =>
          rcases hFramed with ⟨n, hLength⟩
          exact ⟨_, Place.payloadBytes_eq hTag hLength⟩
      | _ => exact hHolds.2.elim

/-
  A caller can come to hold the view, making codes with
  scopes of texts that can be counted.
-/
def View.CanBeHeld (view : View) : Prop :=
  ∃ operations : List Operation,
    (∀ operation ∈ operations,
      operation.MakesCodes CountableText) ∧
    view ∈ heldAfter operations

/-
  In a valid view every value along every path can be
  reached. Its container can be opened and answered, as an
  embedded document, an array or a code with scope; the
  accessor of its type answers, or fails for want of a text
  and for nothing else; and its payload has bytes, at least
  where it is not opened and in all views that a caller can
  come to hold.
-/
theorem valid_views_are_accessible
    {limits : Limits}
    {n : Nat}
    {view inner : View}
    {path : List PathStep}
    {value : Value}
    (hValid : view.validateWith limits = .ok n)
    (hLook : view.lookAlong path = .ok inner)
    (hValue : inner.value? = some value) :
    ∃ tag, value.tag = .ok tag ∧
      (tag = .embeddedDocument →
        ∃ doc, value.openDocument = .ok doc ∧
          value.asDocument = .ok doc) ∧
      (tag = .array →
        ∃ array, value.openArray = .ok array ∧
          value.asArray = .ok array) ∧
      (tag = .codeWithScope →
        ∃ scope, value.openScope = .ok scope) ∧
      (∀ error,
        value.access tag = .error error →
          error = .invalidUtf8) ∧
      (value.payload = .raw ∨ view.CanBeHeld →
        ∃ bytes, value.payloadBytes = .ok bytes) := by
  have hInner :=
    View.of_lookAlong View.saysSomething_of_leads
      (View.saysSomething_of_valid hValid) hLook
  rcases View.holds_of_value? hValue hInner with
    ⟨content, hHolds⟩
  have hTag := Value.tag_of_holds hHolds
  refine ⟨content.tag, hTag, ?_, ?_, ?_, ?_, ?_⟩
  · intro hDocument
    rw [hDocument] at hTag
    rcases Value.cases_of_holds hHolds hTag with ⟨said, rfl⟩
    rcases Value.openDocument_of_holds hHolds with
      ⟨doc, hOpen, _⟩
    exact
      ⟨doc, hOpen, Value.asDocument_of_openDocument hOpen⟩
  · intro hArray
    rw [hArray] at hTag
    rcases Value.cases_of_holds hHolds hTag with
      ⟨items, rfl⟩
    rcases Value.openArray_of_holds hHolds with
      ⟨array, hOpen, _⟩
    exact ⟨array, hOpen, Value.asArray_of_openArray hOpen⟩
  · intro hCode
    rw [hCode] at hTag
    rcases Value.cases_of_holds hHolds hTag with
      ⟨text, said, rfl⟩
    rcases Value.openScope_of_holds hHolds with
      ⟨_, _, scope, hOpen, _⟩
    exact ⟨scope, hOpen⟩
  · exact Value.access_of_holds hHolds
  · rintro (hRaw | ⟨operations, hCodes, hMem⟩)
    · exact Value.payloadBytes_of_holds hHolds hRaw
    · have hView : view.Anchored .framed :=
        anchored_of_mem_heldAfter Anchor.framed_stable
          hCodes hMem
      have hAnchored :=
        View.anchored_of_lookAlong Anchor.framed_stable
          hView hLook
      exact
        Value.payloadBytes_of_framed hHolds
          (View.anchored_of_value? hValue hAnchored)

/- The scope of a code that is held opened in a document. -/
theorem held_code_is_accessible :
    let operations : List Operation :=
      [.make .emptyDocument, .make (.code "f" 0),
        .edit 0 [] (.set "c" 1)]
    let code : Value :=
      ⟨⟨[15, 99, 0, 15, 0, 0, 0, 2, 0, 0, 0, 102, 0,
        5, 0, 0, 0, 0], 0, 3⟩, .document .empty⟩
    let view : View := .document ⟨[⟨code⟩]⟩
    view.validateWith .standard = .ok 23 ∧
      view ∈ heldAfter operations ∧
      (∃ scope, code.openScope = .ok scope) ∧
      ∃ bytes, code.payloadBytes = .ok bytes := by
  intro operations code view
  have hValid : view.validateWith .standard = .ok 23 := rfl
  have hHeld :
      heldAfter operations =
        [view, .value (.ofCode "f" .empty)] := rfl
  have hMem : view ∈ heldAfter operations := by
    rw [hHeld]
    exact List.mem_cons_self
  have hCodes :
      ∀ operation ∈ operations,
        operation.MakesCodes CountableText := by
    have hText : CountableText "f" := by
      unfold CountableText
      decide
    simp [operations, Operation.MakesCodes, hText]
  have hLook :
      view.lookAlong [.index 0] = .ok (.element ⟨code⟩) :=
    rfl
  rcases valid_views_are_accessible hValid hLook rfl with
    ⟨tag, hTag, _, _, hScope, _, hBytes⟩
  have hCode : tag = .codeWithScope := by
    cases hTag
    rfl
  exact
    ⟨hValid, hMem, hScope hCode,
      hBytes (.inr ⟨operations, hCodes, hMem⟩)⟩

end BsonView

------------------------------------------------------------
-- Codes That Cannot Be Counted
------------------------------------------------------------

namespace BsonView

open Grammar

/- Null characters are as many null bytes. -/
theorem Bytes.ofText_nulls
    (n : Nat) :
    ofText (String.ofList (List.replicate n '\x00')) =
      List.replicate n 0 := by
  have hByte : String.utf8EncodeChar '\x00' = [0] := by
    decide
  rw [ofText_ofList, List.flatMap_replicate, hByte]
  simp

/- No document has a length of zero. -/
theorem Framing.documentLength_of_zero
    (rest : Bytes) :
    documentLength (Word.ofLength 0 ++ rest) =
      .error (.invalidLength 0 5) := by
  have hRead :
      Word.readLength (Word.ofLength 0 ++ rest) = .ok 0 :=
    Word.readLength_eq_ok.mpr
      ⟨Nat.zero_le _, List.prefix_append _ _⟩
  rw [documentLength, hRead]
  rfl

section

variable
  {text : String}
  {n : Nat}
  (hText : Bytes.ofText text = List.replicate (n + 5) 0)
  (hWraps : Word.ofLength (n + 6) = [1, 0, 0, 0])

include hText hWraps

/-
  Such a code has a length that wraps around to that of an
  empty string. One is read there, and a document without a
  length behind it.
-/
theorem Value.rest_of_wrapped
    (scope : Document) :
    (Value.ofCode text scope).rest.drop 4 =
      stringForm [] ++
        (Word.ofLength 0 ++
          (List.replicate n 0 ++ 0 :: emptyDocumentBytes)) := by
  have hString :
      Scalar.stringBytes text =
        [1, 0, 0, 0] ++ List.replicate (n + 5) 0 ++ [0] := by
    rw [Scalar.stringBytes, hText, List.length_replicate,
      hWraps]
  have hEmpty : stringForm [] = [1, 0, 0, 0, 0] := by decide
  have hZero : Word.ofLength 0 = [0, 0, 0, 0] := by decide
  rw [drop_rest_ofCode, hString, hEmpty, hZero]
  simp [List.replicate_succ]

/- It is valid, since its scope is held opened. -/
theorem Element.validate_of_wrapped :
    (⟨Value.ofCode text .empty⟩ : Element).validate =
      .ok 16 := by
  have hKey :
      (Value.ofCode text .empty).keyLength = .ok 1 := rfl
  have hString :
      stringForm [] <+:
        (Value.ofCode text .empty).rest.drop 4 := by
    rw [Value.rest_of_wrapped hText hWraps]
    exact List.prefix_append _ _
  have hScope :
      Document.empty.measure .standard 1 = .ok 5 := rfl
  have hValue :
      (Value.ofCode text .empty).validateWith .standard =
        .ok 14 := by
    apply (Value.measure_of_tag (Value.tag_ofCode _ _) _).trans
    exact Payload.measure_code_eq_ok.mpr
      ⟨[], 5, by decide, hString, hScope, rfl⟩
  have hElement :=
    @Element.validateWith_of_goodKey
      ⟨Value.ofCode text .empty⟩ 1 hKey .standard
  rw [hValue] at hElement
  exact hElement

/-
  Its payload has no bytes: the scope is looked for in its
  text.
-/
theorem Value.payloadBytes_of_wrapped :
    (Value.ofCode text .empty).payloadBytes =
      .error (.invalidLength 0 5) := by
  have hFour :
      Framing.claim 4 (Value.ofCode text .empty).rest =
        .ok 4 := rfl
  have hRest := Value.rest_of_wrapped hText hWraps .empty
  have hString :
      Framing.stringLength
          ((Value.ofCode text .empty).rest.drop 4) =
        .ok 5 := by
    rw [hRest]
    exact stringLength_eq_ok.mpr
      ⟨[], by decide, List.prefix_append _ _, rfl⟩
  have hScope :
      Framing.documentLength
          ((Value.ofCode text .empty).rest.drop (4 + 5)) =
        .error (.invalidLength 0 5) := by
    rw [← List.drop_drop, hRest]
    exact Framing.documentLength_of_zero _
  unfold Place.payloadBytes
  rw [Value.tag_ofCode, ok_bind, Framing.payloadLength, hFour,
    ok_bind, hString, ok_bind, hScope]
  rfl

end

/- A caller can put a code into an element made before. -/
theorem heldAfter_overwrite_code
    (text : String) :
    heldAfter
        [.make .emptyDocument, .make (.code text 0),
          .make .blankElement,
          .edit 2 [.value] (.overwrite 1)] =
      [.document .empty, .value (.ofCode text .empty),
        .element ⟨.ofCode text .empty⟩] := rfl

/-
  Not all codes can be counted: one of 4294967296 null
  characters, put into the place of an element's value, is
  valid, and its payload has no bytes.
-/
theorem uncountable_code_has_no_payload_bytes :
    let text :=
      String.ofList (List.replicate 4294967296 '\x00')
    let code := Value.ofCode text .empty
    View.element ⟨code⟩ ∈
        heldAfter
          [.make .emptyDocument, .make (.code text 0),
            .make .blankElement,
            .edit 2 [.value] (.overwrite 1)] ∧
      (View.element ⟨code⟩).validateWith .standard =
        .ok 16 ∧
      code.payloadBytes = .error (.invalidLength 0 5) := by
  intro text code
  have hText :
      Bytes.ofText text =
        List.replicate (4294967291 + 5) 0 :=
    Bytes.ofText_nulls 4294967296
  have hWraps :
      Word.ofLength (4294967291 + 6) = [1, 0, 0, 0] := by
    decide
  refine ⟨?_, ?_, ?_⟩
  · rw [heldAfter_overwrite_code]
    simp [code]
  · exact Element.validate_of_wrapped hText hWraps
  · exact Value.payloadBytes_of_wrapped hText hWraps

end BsonView
