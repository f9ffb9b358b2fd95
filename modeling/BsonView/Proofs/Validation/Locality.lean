import BsonView.Proofs.Grammar.Forms
import BsonView.Proofs.Validation.Recursion
import Mathlib.Data.List.Infix

/-
  Payloads are looked at in their own bytes.

  A payload whose framing can be measured in some bytes is
  measured and validated the same when more bytes follow: no
  check looks beyond what the framing claims. So it makes no
  difference whether a payload is seen in the window of the
  document around it, in the whole buffer or on its own.

  Main declarations:
    * `Framing.payloadLength_of_front`
    * `Framing.payloadLength_of_room`
    * `Framing.scalarLength_of_front`
    * `Validation.Plain.payload_of_front`
-/

------------------------------------------------------------
-- Measured Parts
------------------------------------------------------------

namespace BsonView

open Grammar

variable {a b : Bytes} {n : Nat}

theorem Word.readInt32_of_front
    {word : Int32}
    (hFront : a <+: b)
    (hRead : readInt32 a = .ok word) :
    readInt32 b = .ok word := by
  rcases readInt32_eq_ok.mp hRead with ⟨hThere, rfl⟩
  have hLength := hFront.length_le
  rcases hFront with ⟨more, rfl⟩
  refine readInt32_eq_ok.mpr ⟨by omega, ?_⟩
  rw [List.take_append_of_le_length hThere]

theorem Bytes.cstringLength_of_front
    (hFront : a <+: b)
    (hLength : a.cstringLength = .ok n) :
    b.cstringLength = .ok n := by
  rcases cstringLength_eq_ok.mp hLength with
    ⟨text, rest, rfl, hText, rfl⟩
  rcases hFront with ⟨more, rfl⟩
  rw [List.append_assoc, List.cons_append]
  exact cstringLength_terminated hText _

namespace Framing

theorem claim_of_front
    {length : Nat}
    (hFront : a <+: b)
    (hClaim : claim length a = .ok n) :
    claim length b = .ok n := by
  rcases claim_eq_ok.mp hClaim with ⟨rfl, hThere⟩
  exact claim_eq_ok.mpr
    ⟨rfl, Nat.le_trans hThere hFront.length_le⟩

theorem stringLength_of_front
    (hFront : a <+: b)
    (hLength : stringLength a = .ok n) :
    stringLength b = .ok n := by
  rcases Grammar.stringLength_eq_ok.mp hLength with
    ⟨text, hText, hString, rfl⟩
  exact Grammar.stringLength_eq_ok.mpr
    ⟨text, hText, hString.trans hFront, rfl⟩

theorem readLength_of_front
    (hFront : a <+: b)
    (hLength : Word.readLength a = .ok n) :
    Word.readLength b = .ok n := by
  rcases Word.readLength_eq_ok.mp hLength with
    ⟨hSmall, hField⟩
  exact Word.readLength_eq_ok.mpr
    ⟨hSmall, hField.trans hFront⟩

theorem documentLength_of_front
    (hFront : a <+: b)
    (hLength : documentLength a = .ok n) :
    documentLength b = .ok n := by
  rcases documentLength_eq_ok.mp hLength with
    ⟨hField, hLeast, hThere⟩
  exact documentLength_eq_ok.mpr
    ⟨readLength_of_front hFront hField, hLeast,
      Nat.le_trans hThere hFront.length_le⟩

end Framing

end BsonView

------------------------------------------------------------
-- Payloads
------------------------------------------------------------

namespace BsonView

namespace Framing

variable {a b : Bytes} {n : Nat}

/-
  A payload that is measured in some bytes is measured the
  same when more follow.
-/
theorem payloadLength_of_front
    {tag : Tag}
    (hFront : a <+: b)
    (hLength : payloadLength tag a = .ok n) :
    payloadLength tag b = .ok n := by
  cases tag with
  | string => exact stringLength_of_front hFront hLength
  | javaScript =>
      exact stringLength_of_front hFront hLength
  | symbol => exact stringLength_of_front hFront hLength
  | embeddedDocument =>
      exact documentLength_of_front hFront hLength
  | array => exact documentLength_of_front hFront hLength
  | binary =>
      rcases bind_eq_ok.mp hLength with
        ⟨size, hSize, hClaim⟩
      exact bind_eq_ok.mpr
        ⟨size, readLength_of_front hFront hSize,
          claim_of_front hFront hClaim⟩
  | regex =>
      rcases bind_eq_ok.mp hLength with
        ⟨pattern, hPattern, hRest⟩
      rcases bind_eq_ok.mp hRest with
        ⟨options, hOptions, hDone⟩
      have hMore := hFront.drop (pattern + 1)
      refine bind_eq_ok.mpr
        ⟨pattern,
          Bytes.cstringLength_of_front hFront hPattern, ?_⟩
      exact bind_eq_ok.mpr
        ⟨options,
          Bytes.cstringLength_of_front hMore hOptions,
          hDone⟩
  | dbPointer =>
      rcases bind_eq_ok.mp hLength with
        ⟨name, hName, hClaim⟩
      exact bind_eq_ok.mpr
        ⟨name, stringLength_of_front hFront hName,
          claim_of_front hFront hClaim⟩
  | codeWithScope =>
      rcases payloadLength_codeWithScope_eq_ok.mp hLength with
        ⟨code, scope, hThere, hCode, hScope, hTotal⟩
      exact payloadLength_codeWithScope_eq_ok.mpr
        ⟨code, scope,
          Nat.le_trans hThere hFront.length_le,
          stringLength_of_front (hFront.drop 4) hCode,
          documentLength_of_front (hFront.drop _) hScope,
          hTotal⟩
  | _ => exact claim_of_front hFront hLength

/-
  A scalar that is measured in some bytes is checked the
  same when more follow, also when its value is not allowed.
-/
theorem scalarLength_of_front
    {tag : Tag}
    (hFront : a <+: b)
    (hLength : payloadLength tag a = .ok n) :
    scalarLength tag b = scalarLength tag a := by
  by_cases hTag : tag = .boolean
  · rw [hTag] at hLength ⊢
    rcases hFront with ⟨more, rfl⟩
    have hClaim : claim 1 a = .ok n := hLength
    cases a with
    | nil => cases hClaim
    | cons value rest => rfl
  · rw [scalarLength_of_ne_boolean hTag,
      scalarLength_of_ne_boolean hTag, hLength]
    exact payloadLength_of_front hFront hLength

end Framing

end BsonView

------------------------------------------------------------
-- Payloads In Fewer Bytes
------------------------------------------------------------

namespace BsonView

open Grammar

variable {a b : Bytes} {n : Nat}

theorem Bytes.cstringLength_of_room
    (hFront : a <+: b)
    (hRoom : n + 1 ≤ a.length)
    (hLength : b.cstringLength = .ok n) :
    a.cstringLength = .ok n := by
  rcases cstringLength_eq_ok.mp hLength with
    ⟨text, rest, rfl, hText, rfl⟩
  have hOwn : text ++ [0] <+: a := by
    refine List.prefix_of_prefix_length_le ?_ hFront ?_
    · exact ⟨rest, by rw [List.append_assoc]; rfl⟩
    · rw [List.length_append, List.length_singleton]
      exact hRoom
  rcases hOwn with ⟨more, rfl⟩
  rw [List.append_assoc]
  exact cstringLength_terminated hText more

namespace Framing

theorem claim_of_room
    {length : Nat}
    (hRoom : n ≤ a.length)
    (hClaim : claim length b = .ok n) :
    claim length a = .ok n := by
  rcases claim_eq_ok.mp hClaim with ⟨rfl, _⟩
  exact claim_eq_ok.mpr ⟨rfl, hRoom⟩

theorem stringLength_of_room
    (hFront : a <+: b)
    (hRoom : n ≤ a.length)
    (hLength : stringLength b = .ok n) :
    stringLength a = .ok n := by
  rcases Grammar.stringLength_eq_ok.mp hLength with
    ⟨text, hText, hString, rfl⟩
  exact Grammar.stringLength_eq_ok.mpr
    ⟨text, hText,
      List.prefix_of_prefix_length_le hString hFront hRoom,
      rfl⟩

theorem readLength_of_room
    (hFront : a <+: b)
    (hRoom : 4 ≤ a.length)
    (hLength : Word.readLength b = .ok n) :
    Word.readLength a = .ok n := by
  rcases Word.readLength_eq_ok.mp hLength with
    ⟨hSmall, hField⟩
  refine Word.readLength_eq_ok.mpr ⟨hSmall, ?_⟩
  refine List.prefix_of_prefix_length_le hField hFront ?_
  rw [Word.length_ofLength]
  exact hRoom

theorem documentLength_of_room
    (hFront : a <+: b)
    (hRoom : n ≤ a.length)
    (hLength : documentLength b = .ok n) :
    documentLength a = .ok n := by
  rcases documentLength_eq_ok.mp hLength with
    ⟨hField, hLeast, _⟩
  unfold emptyLength at hLeast
  exact documentLength_eq_ok.mpr
    ⟨readLength_of_room hFront (by omega) hField, hLeast,
      hRoom⟩

/-
  A payload that is measured in some bytes is measured the
  same in fewer, as long as all of it is there.
-/
theorem payloadLength_of_room
    {tag : Tag}
    (hFront : a <+: b)
    (hRoom : n ≤ a.length)
    (hLength : payloadLength tag b = .ok n) :
    payloadLength tag a = .ok n := by
  cases tag with
  | string =>
      exact stringLength_of_room hFront hRoom hLength
  | javaScript =>
      exact stringLength_of_room hFront hRoom hLength
  | symbol =>
      exact stringLength_of_room hFront hRoom hLength
  | embeddedDocument =>
      exact documentLength_of_room hFront hRoom hLength
  | array =>
      exact documentLength_of_room hFront hRoom hLength
  | binary =>
      rcases bind_eq_ok.mp hLength with
        ⟨size, hSize, hClaim⟩
      have hTotal := (claim_eq_ok.mp hClaim).1
      exact bind_eq_ok.mpr
        ⟨size,
          readLength_of_room hFront (by omega) hSize,
          claim_of_room hRoom hClaim⟩
  | regex =>
      rcases bind_eq_ok.mp hLength with
        ⟨pattern, hPattern, hRest⟩
      rcases bind_eq_ok.mp hRest with
        ⟨options, hOptions, hDone⟩
      cases hDone
      have hMore := hFront.drop (pattern + 1)
      have hSecond :
          options + 1 ≤ (a.drop (pattern + 1)).length := by
        rw [List.length_drop]
        omega
      refine bind_eq_ok.mpr ⟨pattern, ?_, ?_⟩
      · exact
          Bytes.cstringLength_of_room hFront (by omega)
            hPattern
      · exact bind_eq_ok.mpr
          ⟨options,
            Bytes.cstringLength_of_room hMore hSecond
              hOptions,
            rfl⟩
  | dbPointer =>
      rcases bind_eq_ok.mp hLength with
        ⟨name, hName, hClaim⟩
      have hTotal := (claim_eq_ok.mp hClaim).1
      exact bind_eq_ok.mpr
        ⟨name,
          stringLength_of_room hFront (by omega) hName,
          claim_of_room hRoom hClaim⟩
  | codeWithScope =>
      rcases payloadLength_codeWithScope_eq_ok.mp hLength with
        ⟨code, scope, _, hCode, hScope, hTotal⟩
      have hText : code ≤ (a.drop 4).length := by
        rw [List.length_drop]
        omega
      have hBody : scope ≤ (a.drop (4 + code)).length := by
        rw [List.length_drop]
        omega
      exact payloadLength_codeWithScope_eq_ok.mpr
        ⟨code, scope, by omega,
          stringLength_of_room (hFront.drop 4) hText hCode,
          documentLength_of_room (hFront.drop _) hBody
            hScope,
          hTotal⟩
  | _ => exact claim_of_room hRoom hLength

/- A payload is as long on its own as it is in a buffer. -/
theorem payloadLength_take
    {tag : Tag}
    (hLength : payloadLength tag b = .ok n) :
    payloadLength tag (b.take n) = .ok n := by
  have hThere := payloadLength_le hLength
  refine
    payloadLength_of_room (List.take_prefix n b) ?_ hLength
  rw [List.length_take]
  omega

end Framing

end BsonView

------------------------------------------------------------
-- Validation
------------------------------------------------------------

namespace BsonView

namespace Validation

namespace Plain

variable
  {limits : Limits}
  {depth n : Nat}
  {a b : Bytes}

/- A document is validated in the bytes it declares. -/
theorem document_of_front
    (hFront : a <+: b)
    (hLength : Framing.documentLength a = .ok n) :
    document limits depth b = document limits depth a := by
  have hThere :=
    (Framing.documentLength_eq_ok.mp hLength).2.2
  have hMore :=
    Framing.documentLength_of_front hFront hLength
  rcases hFront with ⟨more, rfl⟩
  rw [document, document, hLength, hMore]
  simp only [lift_eq_mapError, mapError_ok, ok_bind]
  rw [List.take_append_of_le_length hThere]

/-
  A payload is validated in the bytes that its framing
  claims: the answer is the same, size or failure, when more
  bytes follow.
-/
theorem payload_of_front
    {tag : Tag}
    (hFront : a <+: b)
    (hLength : Framing.payloadLength tag a = .ok n) :
    payload limits depth tag b =
      payload limits depth tag a := by
  rcases tag.kinds with hContainer | rfl | hScalar
  · rw [payload_of_isContainer hContainer,
      payload_of_isContainer hContainer]
    have hDocument : Framing.documentLength a = .ok n := by
      cases tag <;> simp [Tag.isContainer] at hContainer <;>
        exact hLength
    exact document_of_front hFront hDocument
  · rcases Framing.payloadLength_codeWithScope_eq_ok.mp
        hLength with
      ⟨code, scope, hThere, hCode, hScope, _⟩
    have hOuter :=
      Word.readInt32_eq_ok.mpr ⟨hThere, rfl⟩
    rw [payload, payload, hOuter, hCode,
      Word.readInt32_of_front hFront hOuter,
      Framing.stringLength_of_front (hFront.drop 4) hCode]
    simp only [lift_eq_mapError, mapError_ok, ok_bind]
    rw [document_of_front (hFront.drop _) hScope]
  · rw [payload_of_isScalar hScalar,
      payload_of_isScalar hScalar,
      Framing.scalarLength_of_front hFront hLength]

end Plain

end Validation

end BsonView
