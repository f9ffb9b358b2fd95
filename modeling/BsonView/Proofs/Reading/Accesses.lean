import BsonView.Reaching
import BsonView.Validation

/-
  Payloads without nested documents, read by positions.

  Readers take the bytes that are left. Here they are said
  with positions in one buffer, and with guarded accesses.
  Readers that compare with the end of the buffer before
  they read need no guard.

  Main declarations:
    * `Framing.stringLengthAt`
    * `Framing.scalarLengthAt`
    * `Framing.stringLengthAt_keeps`
    * `Framing.scalarLengthAt_keeps`
-/

------------------------------------------------------------
-- Framing By Positions
------------------------------------------------------------

namespace BsonView

namespace Framing

/- Length of the string at a position. -/
def stringLengthAt
    (bytes : Bytes)
    (offset : Nat) : Reaching Error Nat := do
  let length ← Word.readLength (bytes.drop offset)
  if length = 0 then
    Reaching.fail (.invalidLength 0 1)
  else
    let total ← claim (4 + length) (bytes.drop offset)
    let last ← Position.difference? (offset + total) 1
    let closing ← bytes.byte? last
    if closing = 0 then
      return total
    else
      Reaching.fail .missingTerminator

/-
  Length of the payload without a nested document at a
  position.
-/
def scalarLengthAt
    (tag : Tag)
    (bytes : Bytes)
    (offset : Nat) : Reaching Error Nat :=
  match tag with
  | .boolean => do
      let _ ← claim 1 (bytes.drop offset)
      let b ← bytes.byte? offset
      if b = 0 ∨ b = 1 then
        return 1
      else
        Reaching.fail (.invalidBoolean b)
  | .string | .javaScript | .symbol =>
      stringLengthAt bytes offset
  | .dbPointer => do
      let name ← stringLengthAt bytes offset
      claim (name + 12) (bytes.drop offset)
  | tag => scalarLength tag (bytes.drop offset)

/- The last byte of a string that is all there is there. -/
theorem stringLengthAt_keeps
    (bytes : Bytes)
    (offset : Nat) :
    (stringLengthAt bytes offset).Keeps
      (stringLength (bytes.drop offset)) := by
  apply (Reaching.keeps_lift _).bind
  intro length hLength
  dsimp only
  apply Reaching.keeps_ite rfl
  apply (Reaching.keeps_lift _).bind
  intro total hTotal
  rcases claim_eq_ok.mp hTotal with ⟨rfl, hThere⟩
  rw [List.length_drop] at hThere
  have hLast :
      offset + (4 + length) - 1 < bytes.length := by
    omega
  apply Reaching.keeps_access
    (Position.difference?_of_le (by omega))
  apply Reaching.keeps_access
    (List.getElem?_eq_getElem hLast)
  have hByte :
      (bytes.drop offset)[4 + length - 1]? =
        some bytes[offset + (4 + length) - 1] := by
    rw [List.getElem?_drop, ← Nat.add_sub_assoc (by omega),
      List.getElem?_eq_getElem hLast]
  rw [hByte]
  by_cases hNull : bytes[offset + (4 + length) - 1] = 0
  · rw [if_pos hNull, if_neg (by simp [hNull])]
    rfl
  · rw [if_neg hNull, if_pos (by simpa using hNull)]
    rfl

/- The byte of a boolean that is there is there. -/
theorem booleanAt_keeps
    (bytes : Bytes)
    (offset : Nat) :
    (scalarLengthAt .boolean bytes offset).Keeps
      (scalarLength .boolean (bytes.drop offset)) := by
  unfold scalarLengthAt scalarLength
  dsimp only
  by_cases hThere : offset < bytes.length
  · have hClaim : claim 1 (bytes.drop offset) = .ok 1 := by
      apply claim_eq_ok.mpr
      rw [List.length_drop]
      exact ⟨rfl, by omega⟩
    rw [hClaim, List.drop_eq_getElem_cons hThere]
    apply Reaching.keeps_access
      (List.getElem?_eq_getElem hThere)
    exact Reaching.keeps_ite rfl rfl
  · rw [List.drop_eq_nil_of_le (Nat.le_of_not_lt hThere)]
    rfl

/- No scalar is looked for where it is not. -/
theorem scalarLengthAt_keeps
    (tag : Tag)
    (bytes : Bytes)
    (offset : Nat) :
    (scalarLengthAt tag bytes offset).Keeps
      (scalarLength tag (bytes.drop offset)) := by
  cases tag with
  | boolean => exact booleanAt_keeps bytes offset
  | string => exact stringLengthAt_keeps bytes offset
  | javaScript => exact stringLengthAt_keeps bytes offset
  | symbol => exact stringLengthAt_keeps bytes offset
  | dbPointer =>
      apply (stringLengthAt_keeps bytes offset).bind
      intro name _
      exact Reaching.keeps_lift _
  | _ => exact Reaching.keeps_lift _

end Framing

end BsonView
