import BsonView.Validation

/-
  The plain recursive validator.

  The recursion checks the depth, reads the length field and
  validates the elements in order. It calls itself for the
  document of an element and adds to a failure in there the
  bytes that come before it.

  Main declarations:
    * `Validation.Plain.document`
    * `Validation.Plain.elements`
    * `Validation.Plain.payload`
    * `Validation.Plain.document_eq_ok`
    * `Validation.Plain.elements_cons_eq_ok`
    * `Validation.Plain.elements_of_header`
    * `Validation.Plain.elements_eq_ok_length`
-/

------------------------------------------------------------
-- Recursion
------------------------------------------------------------

namespace BsonView

namespace Validation

namespace Plain

mutual

/- Validate the document at the front of the bytes. -/
def document
    (limits : Limits)
    (depth : Nat)
    (bytes : Bytes) : Except Failure Nat := do
  limits.checkDepth depth
  let length ← Framing.documentLength bytes
  elements limits depth length 4
    ((bytes.take length).drop 4)
termination_by 3 * bytes.length + 1
decreasing_by
  simp only [List.length_drop, List.length_take]
  omega

/-
  Validate the elements that the bytes begin with and the
  null byte that has to end the bytes. They belong to a
  document that declares `length` bytes, of which `total`
  come before.
-/
def elements
    (limits : Limits)
    (depth length total : Nat)
    (bytes : Bytes) : Except Failure Nat :=
  match bytes with
  | [] => throw (Error.missingTerminator.after total)
  | b :: rest =>
      if b = 0 then
        if rest = [] then
          return total + 1
        else
          throw
            ((Error.invalidLength length (total + 1)).after
              (total + 1))
      else do
        let tag ←
          (Framing.tag b).mapError (Error.after total)
        let key ←
          (Bytes.cstringLength rest).mapError
            fun _ => Error.invalidKey.after total
        let header := 1 + key + 1
        let size ←
          (payload limits depth tag
            (rest.drop (key + 1))).mapError
            (Failure.after (total + header))
        elements limits depth length
          (total + (header + size))
          (rest.drop (key + 1 + size))
termination_by 3 * bytes.length
decreasing_by
  all_goals
    simp only [List.length_drop, List.length_cons]
    omega

/- Validate the payload at the front of the bytes. -/
def payload
    (limits : Limits)
    (depth : Nat)
    (tag : Tag)
    (bytes : Bytes) : Except Failure Nat :=
  match tag with
  | .embeddedDocument | .array =>
      document limits (depth + 1) bytes
  | .codeWithScope => do
      let _ ← Word.readInt32 bytes
      let code ←
        (Framing.stringLength (bytes.drop 4)).mapError
          (Error.after 4)
      let scope ←
        (document limits (depth + 1)
          (bytes.drop (4 + code))).mapError
          (Failure.after (4 + code))
      return 4 + code + scope
  | tag => Framing.scalarLength tag bytes
termination_by 3 * bytes.length + 2
decreasing_by
  all_goals try simp only [List.length_drop]
  all_goals omega

end

end Plain

end Validation

end BsonView

------------------------------------------------------------
-- Kinds Of Payloads
------------------------------------------------------------

namespace BsonView

namespace Validation

namespace Plain

variable {limits : Limits} {depth : Nat} {tag : Tag}

theorem payload_of_isContainer
    (hKind : tag.isContainer = true)
    (bytes : Bytes) :
    payload limits depth tag bytes =
      document limits (depth + 1) bytes := by
  cases tag <;> simp [Tag.isContainer] at hKind <;>
    rw [payload]

theorem payload_of_isScalar
    (hKind : tag.isScalar = true)
    (bytes : Bytes) :
    payload limits depth tag bytes =
      (Framing.scalarLength tag bytes).mapError
        (Error.after 0) := by
  cases tag <;> simp [Tag.isScalar] at hKind <;>
    rw [payload, lift_eq_mapError] <;> simp

/- Code is as long as its parts, its scope the last. -/
theorem payload_codeWithScope_eq_ok
    {bytes : Bytes}
    {n : Nat} :
    payload limits depth .codeWithScope bytes = .ok n ↔
      ∃ outer code scope,
        Word.readInt32 bytes = .ok outer ∧
          Framing.stringLength (bytes.drop 4) = .ok code ∧
          document limits (depth + 1)
            (bytes.drop (4 + code)) = .ok scope ∧
          n = 4 + code + scope := by
  rw [payload]
  constructor
  · intro hPayload
    rcases bind_eq_ok.mp hPayload with
      ⟨outer, hOuter, hPayload⟩
    rcases bind_eq_ok.mp hPayload with
      ⟨code, hCode, hPayload⟩
    rcases bind_eq_ok.mp hPayload with
      ⟨scope, hScope, hLength⟩
    cases hLength
    exact
      ⟨outer, code, scope, mapError_eq_ok.mp hOuter,
        mapError_eq_ok.mp hCode, mapError_eq_ok.mp hScope,
        rfl⟩
  · intro hExists
    rcases hExists with
      ⟨outer, code, scope, hOuter, hCode, hScope, rfl⟩
    rw [lift_eq_mapError, hOuter, hCode]
    simp only [mapError_ok, ok_bind, hScope]
    rfl

end Plain

end Validation

end BsonView

------------------------------------------------------------
-- Success And Failure
------------------------------------------------------------

namespace BsonView

namespace Validation

namespace Plain

variable {limits : Limits} {depth : Nat}

/- A document is valid when its depth, length and body are. -/
theorem document_eq_ok
    {bytes : Bytes}
    {n : Nat} :
    document limits depth bytes = .ok n ↔
      depth ≤ limits.maxDepth ∧
        ∃ length,
          Framing.documentLength bytes = .ok length ∧
            elements limits depth length 4
              ((bytes.take length).drop 4) = .ok n := by
  rw [document, bind_eq_ok, Limits.checkDepth]
  by_cases hDepth : limits.maxDepth < depth
  · rw [if_pos hDepth]
    constructor
    · intro hBoth
      rcases hBoth with ⟨_, hCheck, _⟩
      cases hCheck
    · intro hBoth
      rcases hBoth with ⟨hWithin, _⟩
      omega
  · rw [if_neg hDepth]
    constructor
    · intro hBoth
      rcases hBoth with ⟨_, _, hBody⟩
      rcases bind_eq_ok.mp hBody with
        ⟨length, hLength, hElements⟩
      exact
        ⟨Nat.le_of_not_lt hDepth, length,
          mapError_eq_ok.mp hLength, hElements⟩
    · intro hBoth
      rcases hBoth with ⟨_, length, hLength, hElements⟩
      refine ⟨(), rfl, bind_eq_ok.mpr ⟨length, ?_, ?_⟩⟩
      · exact mapError_eq_ok.mpr hLength
      · exact hElements

/-
  Elements are valid when they are one null byte, or when
  the first of them is valid and the others are.
-/
theorem elements_cons_eq_ok
    {length total n : Nat}
    {b : UInt8}
    {rest : Bytes} :
    elements limits depth length total (b :: rest) =
        .ok n ↔
      (b = 0 ∧ rest = [] ∧ n = total + 1) ∨
        (b ≠ 0 ∧ ∃ tag key size,
          Framing.tag b = .ok tag ∧
            Bytes.cstringLength rest = .ok key ∧
            payload limits depth tag
              (rest.drop (key + 1)) = .ok size ∧
            elements limits depth length
              (total + (1 + key + 1 + size))
              (rest.drop (key + 1 + size)) = .ok n) := by
  rw [elements]
  by_cases hNull : b = 0
  · rw [if_pos hNull]
    by_cases hEnd : rest = []
    · simp [hNull, hEnd, pure, Except.pure, eq_comm]
    · simp [hNull, hEnd, throw, throwThe,
        MonadExceptOf.throw]
  · rw [if_neg hNull]
    constructor
    · intro hElements
      rcases bind_eq_ok.mp hElements with
        ⟨tag, hTag, hElements⟩
      rcases bind_eq_ok.mp hElements with
        ⟨key, hKey, hElements⟩
      rcases bind_eq_ok.mp hElements with
        ⟨size, hSize, hElements⟩
      exact .inr
        ⟨hNull, tag, key, size, mapError_eq_ok.mp hTag,
          mapError_eq_ok.mp hKey, mapError_eq_ok.mp hSize,
          hElements⟩
    · rintro (⟨hZero, _⟩ |
        ⟨_, tag, key, size, hTag, hKey, hSize, hElements⟩)
      · exact absurd hZero hNull
      · simp only [hTag, hKey, hSize, mapError_ok, ok_bind]
        exact hElements

/-
  Elements that begin with a header are validated from the
  payload after it, and then from the end of that.
-/
theorem elements_of_header
    {tag : Tag}
    {key : Bytes}
    (hKey : 0 ∉ key)
    (length total : Nat)
    (bytes : Bytes) :
    elements limits depth length total
        (tag.byte :: (key ++ 0 :: bytes)) =
      (payload limits depth tag bytes).mapError
          (Failure.after (total + (key.length + 2))) >>=
        fun size =>
          elements limits depth length
            (total + (key.length + 2 + size))
            (bytes.drop size) := by
  have hHeader : 1 + key.length + 1 = key.length + 2 := by
    omega
  have hBehind (size : Nat) :
      (key ++ 0 :: bytes).drop (key.length + 1 + size) =
        bytes.drop size := by
    rw [← List.drop_drop, Bytes.drop_terminated]
  rw [elements, if_neg tag.byte_ne_zero,
    Framing.tag_eq_ok.mpr rfl,
    Bytes.cstringLength_terminated hKey]
  simp only [mapError_ok, ok_bind, hHeader,
    Bytes.drop_terminated, hBehind]

/- There is always the null byte after the elements. -/
theorem length_pos_of_elements_eq_ok
    {bytes : Bytes}
    {length total n : Nat}
    (hElements :
      elements limits depth length total bytes = .ok n) :
    0 < bytes.length := by
  cases bytes with
  | nil =>
      rw [elements] at hElements
      cases hElements
  | cons b rest => exact Nat.succ_pos _

/- Valid elements and their null byte are all the bytes. -/
theorem elements_eq_ok_length
    {bytes : Bytes}
    {length total n : Nat}
    (hElements :
      elements limits depth length total bytes = .ok n) :
    n = total + bytes.length := by
  induction hBytes : bytes.length using Nat.strongRecOn
    generalizing bytes total with
  | ind m ih =>
      cases bytes with
      | nil =>
          rw [elements] at hElements
          cases hElements
      | cons b rest =>
          rw [List.length_cons] at hBytes
          rcases elements_cons_eq_ok.mp hElements with
            ⟨_, hEnd, hTotal⟩ |
              ⟨_, tag, key, size, _, _, _, hMore⟩
          · rw [hEnd, List.length_nil] at hBytes
            omega
          · have hRest := length_pos_of_elements_eq_ok hMore
            have hTotal := ih
              (rest.drop (key + 1 + size)).length ?_
              hMore rfl
            · rw [List.length_drop] at hRest hTotal
              omega
            · rw [List.length_drop]
              omega

/-
  Elements fail at bytes that trail their terminator, at the
  type byte or the key of the first, at its payload, or at
  those after it.
-/
theorem elements_cons_eq_error
    {length total : Nat}
    {b : UInt8}
    {rest : Bytes}
    {failure : Failure}
    (hElements :
      elements limits depth length total (b :: rest) =
        .error failure) :
    (b = 0 ∧ rest ≠ [] ∧
        failure =
          (Error.invalidLength length (total + 1)).after
            (total + 1)) ∨
      (b ≠ 0 ∧ ∃ cause,
        Framing.tag b = .error cause ∧
          failure = cause.after total) ∨
      (b ≠ 0 ∧ ∃ tag cause,
        Framing.tag b = .ok tag ∧
          Bytes.cstringLength rest = .error cause ∧
          failure = Error.invalidKey.after total) ∨
      (b ≠ 0 ∧ ∃ tag key cause,
        Framing.tag b = .ok tag ∧
          Bytes.cstringLength rest = .ok key ∧
          payload limits depth tag
            (rest.drop (key + 1)) = .error cause ∧
          failure = cause.after (total + (1 + key + 1))) ∨
      (b ≠ 0 ∧ ∃ tag key size,
        Framing.tag b = .ok tag ∧
          Bytes.cstringLength rest = .ok key ∧
          payload limits depth tag
            (rest.drop (key + 1)) = .ok size ∧
          elements limits depth length
            (total + (1 + key + 1 + size))
            (rest.drop (key + 1 + size)) =
              .error failure) := by
  rw [elements] at hElements
  by_cases hNull : b = 0
  · rw [if_pos hNull] at hElements
    by_cases hEnd : rest = []
    · rw [if_pos hEnd] at hElements
      cases hElements
    · rw [if_neg hEnd] at hElements
      cases hElements
      exact .inl ⟨hNull, hEnd, rfl⟩
  rw [if_neg hNull] at hElements
  right
  cases hTag : Framing.tag b with
  | error cause =>
      rw [hTag] at hElements
      cases hElements
      exact .inl ⟨hNull, cause, rfl, rfl⟩
  | ok tag =>
  right
  cases hKey : Bytes.cstringLength rest with
  | error cause =>
      rw [hTag, hKey] at hElements
      cases hElements
      exact .inl ⟨hNull, tag, cause, rfl, rfl, rfl⟩
  | ok key =>
  right
  rw [hTag, hKey] at hElements
  simp only [mapError_ok, ok_bind] at hElements
  cases hSize :
      payload limits depth tag (rest.drop (key + 1)) with
  | error cause =>
      rw [hSize] at hElements
      cases hElements
      exact .inl
        ⟨hNull, tag, key, cause, rfl, rfl, hSize, rfl⟩
  | ok size =>
      rw [hSize] at hElements
      exact .inr
        ⟨hNull, tag, key, size, rfl, rfl, hSize, hElements⟩

/- A failure in the elements counts the bytes before. -/
theorem le_progress_of_elements
    {bytes : Bytes}
    {length total : Nat}
    {failure : Failure}
    (hElements :
      elements limits depth length total bytes =
        .error failure) :
    total ≤ failure.progress := by
  induction hBytes : bytes.length using Nat.strongRecOn
    generalizing bytes total with
  | ind m ih =>
      cases bytes with
      | nil =>
          rw [elements] at hElements
          cases hElements
          exact Nat.le_refl _
      | cons b rest =>
          rcases elements_cons_eq_error hElements with
            ⟨_, _, rfl⟩ | ⟨_, cause, _, rfl⟩ |
              ⟨_, _, _, _, _, rfl⟩ |
              ⟨_, _, key, cause, _, _, _, rfl⟩ |
              ⟨_, _, key, size, _, _, _, hMore⟩
          · exact Nat.le_succ _
          · exact Nat.le_refl _
          · exact Nat.le_refl _
          · simp only [Failure.after]
            omega
          · rw [List.length_cons] at hBytes
            have hLater := ih _ (by
              rw [List.length_drop]
              omega) hMore rfl
            omega

/- A valid document is as long as it declares. -/
theorem documentLength_of_document_eq_ok
    {bytes : Bytes}
    {n : Nat}
    (hDocument : document limits depth bytes = .ok n) :
    Framing.documentLength bytes = .ok n := by
  rcases document_eq_ok.mp hDocument with
    ⟨_, length, hLength, hElements⟩
  have hBody := elements_eq_ok_length hElements
  rcases Framing.documentLength_eq_ok.mp hLength with
    ⟨_, hLeast, hThere⟩
  unfold Framing.emptyLength at hLeast
  rw [List.length_drop, List.length_take] at hBody
  have hSame : n = length := by omega
  rw [hSame]
  exact hLength

/- A valid payload is as long as its framing says. -/
theorem payloadLength_of_payload_eq_ok
    {tag : Tag}
    {bytes : Bytes}
    {n : Nat}
    (hPayload : payload limits depth tag bytes = .ok n) :
    Framing.payloadLength tag bytes = .ok n := by
  rcases tag.kinds with hContainer | rfl | hScalar
  · rw [payload_of_isContainer hContainer] at hPayload
    have hLength :=
      documentLength_of_document_eq_ok hPayload
    cases tag <;> simp [Tag.isContainer] at hContainer <;>
      exact hLength
  · rcases payload_codeWithScope_eq_ok.mp hPayload with
      ⟨_, code, scope, hOuter, hCode, hScope, rfl⟩
    exact Framing.payloadLength_codeWithScope_eq_ok.mpr
      ⟨code, scope, (Word.readInt32_eq_ok.mp hOuter).1,
        hCode, documentLength_of_document_eq_ok hScope, rfl⟩
  · rw [payload_of_isScalar hScalar] at hPayload
    exact Framing.payloadLength_of_scalarLength
      (mapError_eq_ok.mp hPayload)

/- A valid payload is all there. -/
theorem le_of_payload_eq_ok
    {tag : Tag}
    {bytes : Bytes}
    {n : Nat}
    (hPayload : payload limits depth tag bytes = .ok n) :
    n ≤ bytes.length :=
  Framing.payloadLength_le
    (payloadLength_of_payload_eq_ok hPayload)

end Plain

end Validation

end BsonView
