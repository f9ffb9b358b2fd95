import BsonView.Proofs.Arrays.StoredKeys
import BsonView.Proofs.Editing.Positions
import BsonView.Proofs.Views.Content

/-
  Elements made of a key and a value.

  An element is made in a buffer of its own, with nothing
  before and nothing after it. The payload that is cut out
  for it may be invalid inside, and it may have been
  superseded by an opened container: what the value says and
  what validation says of it is the same under the key.

  Main declarations:
    * `Value.SameContent.holds`
    * `Element.buffer_of_make?`
    * `Element.sameContent_of_make?`
    * `Element.validateWith_of_make?`
    * `making_keeps_values`
-/

------------------------------------------------------------
-- What The Same Content Says
------------------------------------------------------------

namespace BsonView

open Grammar

namespace Value

/- A payload in a buffer says what its own bytes say. -/
theorem holds_raw_iff
    {place : Place}
    {tag : Tag}
    {bytes : Bytes}
    {content : Content}
    (hTag : place.tag = .ok tag)
    (hBytes : place.payloadBytes = .ok bytes) :
    (⟨place, .raw⟩ : Value).Holds content ↔
      ∃ tree : ParseTree, tree.WellFormed ∧
        tree.tag = tag ∧ tree.bytes = bytes ∧
        content = tree.content := by
  rcases (Place.payloadBytes_eq_ok hTag).mp hBytes with
    ⟨n, hLength, rfl⟩
  constructor
  · rintro ⟨hSaid, tree, hTree, hFront, rfl⟩
    rw [ParseTree.tag_content] at hSaid
    cases hTag.symm.trans hSaid
    have hWhole := ParseTree.payloadLength hTree hFront
    cases hLength.symm.trans hWhole
    exact
      ⟨tree, hTree, rfl,
        List.prefix_iff_eq_take.mp hFront, rfl⟩
  · rintro ⟨tree, hTree, rfl, hSame, rfl⟩
    refine ⟨?_, tree, hTree, ?_, rfl⟩
    · rw [ParseTree.tag_content]
      exact hTag
    · rw [hSame]
      exact List.take_prefix _ _

/- A string that stands before a scope is its code. -/
theorem codeBytes_of_form
    {place : Place}
    {text : Bytes}
    (hText : text.length + 1 ≤ Word.maxLength)
    (hFront : stringForm text <+: place.rest.drop 4) :
    place.codeBytes = .ok (stringForm text) := by
  have hLength :=
    Grammar.stringLength_eq_ok.mpr
      ⟨text, hText, hFront, rfl⟩
  unfold Place.codeBytes
  rw [hLength, ok_bind,
    ← List.prefix_iff_eq_take.mp hFront]
  rfl

/- The code of a place stands behind its outer length. -/
theorem form_of_codeBytes
    {place : Place}
    {code : Bytes}
    (hCode : place.codeBytes = .ok code) :
    code <+: place.rest.drop 4 := by
  rcases bind_eq_ok.mp hCode with ⟨n, _, hTake⟩
  cases hTake
  exact List.take_prefix _ _

namespace SameContent

theorem symm
    {a b : Value}
    (hSame : a.SameContent b) :
    b.SameContent a := by
  refine ⟨hSame.tag_eq.symm, hSame.payload_eq.symm, ?_, ?_⟩
  · intro hRaw
    rw [← hSame.payload_eq] at hRaw
    rcases hSame.bytes_of_raw hRaw with ⟨bytes, hA, hB⟩
    exact ⟨bytes, hB, hA⟩
  · intro hOpened hTag
    rw [← hSame.payload_eq] at hOpened
    rw [← hSame.tag_eq] at hTag
    exact (hSame.code_of_opened hOpened hTag).symm

/- The same content says the same. -/
theorem holds
    {a b : Value}
    {content : Content}
    (hSame : a.SameContent b)
    (hHolds : a.Holds content) :
    b.Holds content := by
  rcases a with ⟨place, payload⟩
  rcases b with ⟨other, own⟩
  have hTags : place.tag = other.tag := hSame.tag_eq
  obtain rfl : payload = own := hSame.payload_eq
  have hTag := tag_of_holds hHolds
  have hOther := hTags.symm.trans hTag
  cases payload with
  | raw =>
      rcases hSame.bytes_of_raw rfl with
        ⟨bytes, hBytes, hSameBytes⟩
      exact
        (holds_raw_iff hOther hSameBytes).mpr
          ((holds_raw_iff hTag hBytes).mp hHolds)
  | array array =>
      cases content <;> exact ⟨hOther, hHolds.2⟩
  | document doc =>
      cases content with
      | scalar tag bytes => exact hHolds.2.elim
      | array items => exact hHolds.2.elim
      | document members => exact ⟨hOther, hHolds.2⟩
      | code text scope =>
          -- The scope is carried; its code is in the buffer.
          rcases hHolds with ⟨_, hText, hFront, hScope⟩
          have hCodes := hSame.code_of_opened nofun hTag
          have hOwn := codeBytes_of_form hText hFront
          exact
            ⟨hOther, hText,
              form_of_codeBytes (hCodes.symm.trans hOwn),
              hScope⟩

/- It says nothing else. -/
theorem holds_iff
    {a b : Value}
    (hSame : a.SameContent b)
    (content : Content) :
    a.Holds content ↔ b.Holds content :=
  ⟨hSame.holds, hSame.symm.holds⟩

end SameContent

end Value

end BsonView

------------------------------------------------------------
-- Buffers Of Their Own
------------------------------------------------------------

namespace BsonView

/-
  The code before a scope is among the bytes of the payload.
-/
theorem Place.codeBytes_of_payloadBytes
    {place other : Place}
    {bytes : Bytes}
    (hTag : place.tag = .ok .codeWithScope)
    (hBytes : place.payloadBytes = .ok bytes)
    (hRest : other.rest = bytes) :
    other.codeBytes = place.codeBytes := by
  rcases (Place.payloadBytes_eq_ok hTag).mp hBytes with
    ⟨n, hCount, rfl⟩
  rcases Framing.payloadLength_codeWithScope_eq_ok.mp hCount
    with ⟨code, scope, hThere, hCode, _, hTotal⟩
  have hFits : code ≤ n - 4 := by omega
  have hWhole := Framing.payloadLength_le hCount
  have hShort :
      Framing.stringLength
          ((place.rest.drop 4).take (n - 4)) =
        .ok code := by
    refine
      Framing.stringLength_of_room (List.take_prefix _ _) ?_
        hCode
    rw [List.length_take, List.length_drop]
    omega
  unfold Place.codeBytes
  rw [hRest, List.drop_take, hShort, hCode]
  simp only [ok_bind, List.take_take,
    Nat.min_eq_left hFits]

namespace Element

variable
  {key : String}
  {value : Value}
  {element : Element}

/-
  What is made is in a buffer of its own: the type byte, the
  key with a null byte, and the payload, with nothing behind
  it.
-/
theorem buffer_of_make?
    (hMake : make? key value = some element) :
    ∃ tag n, value.tag = .ok tag ∧
      Framing.payloadLength tag value.rest = .ok n ∧
      element.value.buffer =
        tag.byte ::
          (Bytes.ofText key ++ 0 :: value.rest.take n) ∧
      element.value.buffer.length =
        (Bytes.ofText key).length + 2 + n := by
  rcases of_make?_eq_some hMake with
    ⟨tag, bytes, hTag, hBytes, _⟩
  rcases (Place.payloadBytes_eq_ok hTag).mp hBytes with
    ⟨n, hCount, rfl⟩
  have hWhole := Framing.payloadLength_le hCount
  have hBuffer :
      element.value.buffer =
        tag.byte ::
          (Bytes.ofText key ++ 0 :: value.rest.take n) := by
    unfold make? at hMake
    rw [hTag, hBytes] at hMake
    dsimp only at hMake
    split at hMake
    · cases hMake
    · cases hMake
      rfl
  refine ⟨tag, n, hTag, hCount, hBuffer, ?_⟩
  rw [hBuffer, List.length_cons, List.length_append,
    List.length_cons, List.length_take,
    Nat.min_eq_left hWhole]
  omega

/- It has the content of the value. -/
theorem sameContent_of_make?
    (hMake : make? key value = some element) :
    element.value.SameContent value := by
  rcases of_make?_eq_some hMake with
    ⟨tag, bytes, hTag, hBytes, _, hRest, _⟩
  rcases of_make? hMake with
    ⟨_, hTags, hPayloads, hContainers⟩
  refine ⟨hTags, hContainers, ?_, ?_⟩
  · intro _
    exact ⟨bytes, hPayloads.trans hBytes, hBytes⟩
  · intro _ hCode
    exact
      Place.codeBytes_of_payloadBytes (hTags.symm.trans hCode)
        hBytes hRest

/-
  It is valid when the value is, and fails where the value
  does, behind the header with the key.
-/
theorem validateWith_of_make?
    (hMake : make? key value = some element)
    (limits : Limits) :
    element.validateWith limits =
      (value.validateWith limits).mapError
          (Failure.after
            ((Bytes.ofText key).length + 2)) >>=
        fun n =>
          .ok ((Bytes.ofText key).length + 2 + n) := by
  rcases element with ⟨own⟩
  unfold validateWith Value.validateWith
  rw [measure_of_key (keyBytes?_of_make? hMake),
    (sameContent_of_make? hMake).measure_eq]

end Element

end BsonView

------------------------------------------------------------
-- Made Elements
------------------------------------------------------------

namespace BsonView

/-
  An element is made of any key without a null byte and any
  value with a type and a length, wherever the value stands
  and whether it is opened or not. It has the key, it says
  what the value does, and its buffer has no byte but its
  own. Validation counts the header with the key before
  what it says of the value: the size grows by it, or the
  progress of the same error.
-/
theorem making_keeps_values
    (key : String)
    (value : Value) :
    (Element.make? key value = none ↔
      value.Unsized ∨ 0 ∈ Bytes.ofText key) ∧
      ∀ element : Element,
        Element.make? key value = some element →
          let header := (Bytes.ofText key).length + 2
          element.key? = some key ∧
            element.value.SameContent value ∧
            (∀ content : Content,
              element.value.Holds content ↔
                value.Holds content) ∧
            (∃ tag n, value.tag = .ok tag ∧
              Framing.payloadLength tag value.rest =
                  .ok n ∧
              element.value.buffer =
                tag.byte ::
                  (Bytes.ofText key ++
                    0 :: value.rest.take n) ∧
              element.value.buffer.length = header + n) ∧
            ∀ limits : Limits,
              (∀ n : Nat,
                value.validateWith limits = .ok n →
                  element.validateWith limits =
                    .ok (header + n)) ∧
              ∀ failure : Failure,
                value.validateWith limits =
                    .error failure →
                  element.validateWith limits =
                    .error (failure.after header) := by
  constructor
  · rw [Element.make?_eq_none, Place.unsized_iff, or_comm]
  intro element hMake header
  have hSame := Element.sameContent_of_make? hMake
  have hValid := Element.validateWith_of_make? hMake
  refine
    ⟨(Element.of_make? hMake).1, hSame, hSame.holds_iff,
      Element.buffer_of_make? hMake, fun limits => ⟨?_, ?_⟩⟩
  · intro n hOwn
    rw [hValid, hOwn]
    rfl
  · intro failure hOwn
    rw [hValid, hOwn]
    rfl

/-
  An opened document with a boolean that is none, cut out of
  a larger buffer: the failure moves on by the header of the
  key.
-/
theorem invalid_content_is_made_and_refused :
    let doc : Document :=
      ⟨[Element.ofPositions [8, 97, 0, 2] 0 3]⟩
    let value : Value :=
      ⟨⟨[9, 9, 3, 0, 5, 0, 0, 0, 0, 9], 2, 4⟩,
        .document doc⟩
    ∃ element,
      Element.make? "key" value = some element ∧
        element.value.buffer =
          [3, 107, 101, 121, 0, 5, 0, 0, 0, 0] ∧
        value.validate =
          .error ((Error.invalidBoolean 2).after 7) ∧
        element.validate =
          .error ((Error.invalidBoolean 2).after 12) := by
  intro doc value
  have hValid :
      value.validate =
        .error ((Error.invalidBoolean 2).after 7) :=
    rfl
  refine ⟨_, rfl, rfl, hValid, ?_⟩
  rcases (making_keeps_values "key" value).2 _ rfl with
    ⟨_, _, _, _, hBoth⟩
  exact (hBoth .standard).2 _ hValid

end BsonView
