import BsonView.Proofs.Validation.Locality
import BsonView.Proofs.Validation.Walk

/-
  Payloads that are moved.

  How long a payload is and what validation says of it is a
  matter of its own bytes. It stays the same when they are
  taken out of a buffer and put between other bytes, also
  when validation fails somewhere inside.

  Main declarations:
    * `Framing.payloadLengthAt_eq_ok`
    * `Framing.payloadLengthAt_of_valid`
    * `sizing_and_validation_are_local`
-/

------------------------------------------------------------
-- Positions Of Payloads
------------------------------------------------------------

namespace BsonView

variable
  {tag : Tag}
  {data : Bytes}
  {offset n : Nat}

namespace Framing

/- A payload is measured where it stands in a buffer. -/
theorem payloadLengthAt_eq_ok :
    payloadLengthAt tag data offset = .ok n ↔
      offset ≤ data.length ∧
        payloadLength tag (data.drop offset) = .ok n := by
  unfold payloadLengthAt
  by_cases hInside : offset ≤ data.length
  · rw [if_pos hInside]
    exact (and_iff_right hInside).symm
  · rw [if_neg hInside]
    constructor
    · intro hLength
      cases hLength
    · rintro ⟨hThere, _⟩
      exact absurd hThere hInside

/- It ends before the buffer does. -/
theorem payloadLengthAt_le
    (hLength : payloadLengthAt tag data offset = .ok n) :
    offset + n ≤ data.length := by
  rcases payloadLengthAt_eq_ok.mp hLength with
    ⟨hInside, hOwn⟩
  have hThere := payloadLength_le hOwn
  rw [List.length_drop] at hThere
  omega

end Framing

namespace Validation

variable {limits : Limits} {depth : Nat}

/- A document has bytes, so it begins in the buffer. -/
theorem inside_of_document
    (hValid : document limits data offset depth = .ok n) :
    offset ≤ data.length := by
  rw [document_eq_plain] at hValid
  have hLength :=
    Plain.documentLength_of_document_eq_ok hValid
  rcases Framing.documentLength_eq_ok.mp hLength with
    ⟨_, hLeast, hThere⟩
  unfold Framing.emptyLength at hLeast
  rw [List.length_drop] at hThere
  omega

/- No valid payload begins beyond the buffer. -/
theorem inside_of_payload
    (hValid : payload limits tag data offset depth = .ok n) :
    offset ≤ data.length := by
  rcases tag.kinds with hContainer | rfl | hScalar
  · have hDocument :
        document limits data offset (depth + 1) = .ok n := by
      cases tag <;> simp [Tag.isContainer] at hContainer <;>
        exact hValid
    exact inside_of_document hDocument
  · rcases bind_eq_ok.mp hValid with ⟨outer, hOuter, _⟩
    have hField := mapError_eq_ok.mp hOuter
    have hThere := (Word.readInt32_eq_ok.mp hField).1
    rw [List.length_drop] at hThere
    omega
  · by_contra hBeyond
    have hRefused :
        payload limits tag data offset depth =
          .error (Error.endOfFile.after 0) := by
      cases tag <;> simp [Tag.isScalar] at hScalar <;>
        exact if_neg hBeyond
    cases hValid.symm.trans hRefused

end Validation

/- A valid payload is as long as its framing says. -/
theorem Framing.payloadLengthAt_of_valid
    {limits : Limits}
    {depth : Nat}
    (hValid :
      Validation.payload limits tag data offset depth =
        .ok n) :
    payloadLengthAt tag data offset = .ok n := by
  have hInside := Validation.inside_of_payload hValid
  rw [Validation.payload_eq_plain _ _ _ _ _ hInside]
    at hValid
  exact payloadLengthAt_eq_ok.mpr
    ⟨hInside,
      Validation.Plain.payloadLength_of_payload_eq_ok hValid⟩

end BsonView

------------------------------------------------------------
-- Other Buffers
------------------------------------------------------------

namespace BsonView

/- Bytes are found again behind those before them. -/
theorem Bytes.drop_moved
    (before middle after : Bytes) :
    (before ++ middle ++ after).drop before.length =
      middle ++ after := by
  rw [List.append_assoc, List.drop_left]

/-
  A payload that has a length is all in its buffer, and it
  has that length wherever its bytes stand, whatever bytes
  are before and after them. Validation says the same of it
  there: the size, or the cause with the same progress.
-/
theorem sizing_and_validation_are_local
    {tag : Tag}
    {data : Bytes}
    {offset n : Nat}
    (hLength :
      Framing.payloadLengthAt tag data offset = .ok n) :
    offset + n ≤ data.length ∧
      ∀ before after : Bytes,
        let moved :=
          before ++ (data.drop offset).take n ++ after
        Framing.payloadLengthAt tag moved before.length =
            .ok n ∧
          ∀ (limits : Limits) (depth : Nat),
            Validation.payload limits tag moved
                before.length depth =
              Validation.payload limits tag data offset
                depth := by
  rcases Framing.payloadLengthAt_eq_ok.mp hLength with
    ⟨hInside, hThere⟩
  refine ⟨Framing.payloadLengthAt_le hLength, ?_⟩
  intro before after moved
  have hBegins : before.length ≤ moved.length := by
    simp [moved]
  have hOwn := Framing.payloadLength_take hThere
  have hFront :
      (data.drop offset).take n <+:
        moved.drop before.length := by
    rw [Bytes.drop_moved]
    exact List.prefix_append _ _
  constructor
  · exact Framing.payloadLengthAt_eq_ok.mpr
      ⟨hBegins, Framing.payloadLength_of_front hFront hOwn⟩
  · intro limits depth
    -- Both buffers have the payload's own bytes in front.
    rw [Validation.payload_eq_plain _ _ _ _ _ hBegins,
      Validation.payload_eq_plain _ _ _ _ _ hInside,
      Validation.Plain.payload_of_front hFront hOwn,
      Validation.Plain.payload_of_front
        (List.take_prefix _ _) hOwn]

/-
  A document with an element of no known type is refused in
  another buffer as it is in its own.
-/
theorem foreign_element_is_refused_elsewhere :
    let data : Bytes := [1, 7, 0, 0, 0, 99, 0, 0, 9]
    Framing.payloadLengthAt .embeddedDocument data 1 =
        .ok 7 ∧
      Validation.payload .standard .embeddedDocument data 1
          0 =
        .error ((Error.invalidTag 99).after 4) ∧
      Validation.payload .standard .embeddedDocument
          ([5, 5] ++ (data.drop 1).take 7 ++ [6])
          2 0 =
        .error ((Error.invalidTag 99).after 4) := by
  intro data
  have hLength :
      Framing.payloadLengthAt .embeddedDocument data 1 =
        .ok 7 := by
    decide
  have hRefused :
      Validation.payload .standard .embeddedDocument data 1
          0 =
        .error ((Error.invalidTag 99).after 4) := by
    decide
  rcases sizing_and_validation_are_local hLength with
    ⟨_, hMoved⟩
  refine ⟨hLength, hRefused, ?_⟩
  exact ((hMoved [5, 5] [6]).2 .standard 0).trans hRefused

end BsonView
