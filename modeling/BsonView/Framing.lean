import BsonView.Word

/-
  Lengths of payloads, read off their framing.

  Each function looks at bytes that begin with a payload and
  may go on after it, and answers how many of them belong to
  the payload. Nothing inside a nested document is looked
  at: a document is as long as its own length field says.

  Main declarations:
    * `Framing.tag`
    * `Framing.stringLength`
    * `Framing.documentLength`
    * `Framing.payloadLength`
    * `Framing.scalarLength`
    * `Framing.payloadLengthAt`
-/

------------------------------------------------------------
-- Parts
------------------------------------------------------------

namespace BsonView

namespace Framing

/- The type announced by a byte. -/
def tag (b : UInt8) : Except Error Tag :=
  match Tag.ofByte? b with
  | some tag => .ok tag
  | none => .error (.invalidTag b)

/- The given length, if there are that many bytes. -/
def claim
    (length : Nat)
    (bytes : Bytes) : Except Error Nat :=
  if length ≤ bytes.length then
    .ok length
  else
    .error .endOfFile

/-
  A string is its length field, its bytes and a null byte
  that the length field counts.
-/
def stringLength (bytes : Bytes) : Except Error Nat := do
  let length ← Word.readLength bytes
  if length = 0 then
    throw (.invalidLength 0 1)
  let total ← claim (4 + length) bytes
  if bytes[total - 1]? ≠ some 0 then
    throw .missingTerminator
  return total

/- The length of the smallest document. -/
def emptyLength : Nat := 5

/- A document is as long as its length field says. -/
def documentLength (bytes : Bytes) : Except Error Nat := do
  let length ← Word.readLength bytes
  if length < emptyLength then
    throw (.invalidLength length emptyLength)
  claim length bytes

/- A byte announces the type whose byte it is. -/
theorem tag_eq_ok
    {b : UInt8}
    {tag : Tag} :
    Framing.tag b = .ok tag ↔ b = tag.byte := by
  unfold Framing.tag
  constructor
  · intro hTag
    cases hFound : Tag.ofByte? b with
    | none =>
        rw [hFound] at hTag
        cases hTag
    | some found =>
        rw [hFound] at hTag
        cases hTag
        exact (Tag.byte_of_ofByte?_eq_some hFound).symm
  · rintro rfl
    rw [Tag.ofByte?_byte]

/- What is claimed is there. -/
theorem claim_eq_ok
    {length n : Nat}
    {bytes : Bytes} :
    claim length bytes = .ok n ↔
      n = length ∧ length ≤ bytes.length := by
  unfold claim
  split <;> simp [*, eq_comm]

/-
  A string has a valid length field, is all there, and ends
  with a null byte.
-/
theorem stringLength_eq_ok
    {bytes : Bytes}
    {n : Nat} :
    stringLength bytes = .ok n ↔
      ∃ length, Word.readLength bytes = .ok length ∧
        0 < length ∧ n = 4 + length ∧
        n ≤ bytes.length ∧ bytes[n - 1]? = some 0 := by
  unfold stringLength
  rw [bind_eq_ok]
  constructor
  · intro hExists
    rcases hExists with ⟨length, hLength, hRest⟩
    dsimp only at hRest
    split at hRest
    · cases hRest
    rcases bind_eq_ok.mp hRest with ⟨total, hTotal, hEnd⟩
    rcases claim_eq_ok.mp hTotal with ⟨rfl, hThere⟩
    split at hEnd
    · cases hEnd
    next hNonzero hNull =>
      cases hEnd
      exact
        ⟨length, hLength, by omega, rfl, hThere,
          Decidable.not_not.mp hNull⟩
  · intro hExists
    rcases hExists with
      ⟨length, hLength, hPos, rfl, hThere, hNull⟩
    refine ⟨length, hLength, ?_⟩
    dsimp only
    rw [if_neg (by omega)]
    rw [claim_eq_ok.mpr ⟨rfl, hThere⟩]
    simp only [ok_bind, hNull]
    rfl

/- A document has a valid length field and is all there. -/
theorem documentLength_eq_ok
    {bytes : Bytes}
    {n : Nat} :
    documentLength bytes = .ok n ↔
      Word.readLength bytes = .ok n ∧
        emptyLength ≤ n ∧ n ≤ bytes.length := by
  unfold documentLength
  rw [bind_eq_ok]
  constructor
  · intro hExists
    rcases hExists with ⟨length, hLength, hRest⟩
    dsimp only at hRest
    split at hRest
    · cases hRest
    · rcases claim_eq_ok.mp hRest with ⟨rfl, hThere⟩
      exact ⟨hLength, by omega, hThere⟩
  · intro hBoth
    rcases hBoth with ⟨hLength, hLeast, hThere⟩
    refine ⟨n, hLength, ?_⟩
    dsimp only
    rw [if_neg (by omega)]
    exact claim_eq_ok.mpr ⟨rfl, hThere⟩

/- The length field of a document is missing or wrong. -/
theorem documentLength_eq_error
    {bytes : Bytes}
    {error : Error}
    (hLength : documentLength bytes = .error error) :
    error = .endOfFile ∨
      ∃ declared actual,
        error = .invalidLength declared actual := by
  unfold documentLength at hLength
  rcases bind_eq_error.mp hLength with
    hField | ⟨length, _, hRest⟩
  · exact Word.readLength_eq_error hField
  dsimp only at hRest
  split at hRest
  · cases hRest
    exact .inr ⟨_, _, rfl⟩
  · have hClaim : claim length bytes = .error error := hRest
    unfold claim at hClaim
    split at hClaim
    · cases hClaim
    · cases hClaim
      exact .inl rfl

end Framing

end BsonView

------------------------------------------------------------
-- Payloads
------------------------------------------------------------

namespace BsonView

namespace Framing

/-
  Length of a payload of the given type.

  The outer length of a code with scope is not consulted:
  its string and its scope say how long it is.
-/
def payloadLength
    (tag : Tag)
    (bytes : Bytes) : Except Error Nat :=
  match tag with
  | .string | .javaScript | .symbol =>
      stringLength bytes
  | .embeddedDocument | .array =>
      documentLength bytes
  | .binary => do
      let length ← Word.readLength bytes
      claim (5 + length) bytes
  | .regex => do
      let pattern ← bytes.cstringLength
      let options ←
        Bytes.cstringLength (bytes.drop (pattern + 1))
      return pattern + 1 + options + 1
  | .dbPointer => do
      let name ← stringLength bytes
      claim (name + 12) bytes
  | .codeWithScope => do
      let header ← claim 4 bytes
      let code ← stringLength (bytes.drop header)
      let scope ←
        documentLength (bytes.drop (header + code))
      return header + code + scope
  | scalar =>
      claim (scalar.fixedWidth?.getD 0) bytes

/-
  A code with scope is measured by its string and its scope,
  after the four bytes of its outer length.
-/
theorem payloadLength_codeWithScope_eq_ok
    {bytes : Bytes}
    {n : Nat} :
    payloadLength .codeWithScope bytes = .ok n ↔
      ∃ code scope, 4 ≤ bytes.length ∧
        stringLength (bytes.drop 4) = .ok code ∧
        documentLength (bytes.drop (4 + code)) =
          .ok scope ∧
        n = 4 + code + scope := by
  constructor
  · intro hLength
    rcases bind_eq_ok.mp hLength with
      ⟨header, hHeader, hRest⟩
    rcases claim_eq_ok.mp hHeader with ⟨rfl, hThere⟩
    rcases bind_eq_ok.mp hRest with ⟨code, hCode, hRest⟩
    rcases bind_eq_ok.mp hRest with ⟨scope, hScope, hDone⟩
    cases hDone
    exact ⟨code, scope, hThere, hCode, hScope, rfl⟩
  · intro hExists
    rcases hExists with
      ⟨code, scope, hThere, hCode, hScope, rfl⟩
    have hHeader := claim_eq_ok.mpr ⟨rfl, hThere⟩
    simp only [payloadLength, hHeader, ok_bind, hCode,
      hScope]
    rfl

/- No payload reaches beyond the bytes. -/
theorem payloadLength_le
    {tag : Tag}
    {bytes : Bytes}
    {n : Nat}
    (hLength : payloadLength tag bytes = .ok n) :
    n ≤ bytes.length := by
  have hFixed
      (hClaim :
        claim (tag.fixedWidth?.getD 0) bytes = .ok n) :
      n ≤ bytes.length := by
    rcases claim_eq_ok.mp hClaim with ⟨rfl, hThere⟩
    exact hThere
  have hString
      (hString : stringLength bytes = .ok n) :
      n ≤ bytes.length := by
    rcases stringLength_eq_ok.mp hString with
      ⟨_, _, _, _, hThere, _⟩
    exact hThere
  have hDocument
      (hDocument : documentLength bytes = .ok n) :
      n ≤ bytes.length :=
    (documentLength_eq_ok.mp hDocument).2.2
  cases tag with
  | string => exact hString hLength
  | javaScript => exact hString hLength
  | symbol => exact hString hLength
  | embeddedDocument => exact hDocument hLength
  | array => exact hDocument hLength
  | binary =>
      rcases bind_eq_ok.mp hLength with ⟨m, _, hClaim⟩
      rcases claim_eq_ok.mp hClaim with ⟨rfl, hThere⟩
      exact hThere
  | regex =>
      rcases bind_eq_ok.mp hLength with
        ⟨pattern, hPattern, hRest⟩
      rcases bind_eq_ok.mp hRest with
        ⟨options, hOptions, hDone⟩
      cases hDone
      rcases Bytes.cstringLength_eq_ok.mp hOptions with
        ⟨text, rest, hSplit, _, rfl⟩
      have hSizes := congrArg List.length hSplit
      rw [List.length_drop, List.length_append,
        List.length_cons] at hSizes
      omega
  | dbPointer =>
      rcases bind_eq_ok.mp hLength with ⟨m, _, hClaim⟩
      rcases claim_eq_ok.mp hClaim with ⟨rfl, hThere⟩
      exact hThere
  | codeWithScope =>
      rcases payloadLength_codeWithScope_eq_ok.mp hLength with
        ⟨code, scope, _, _, hScope, rfl⟩
      rcases documentLength_eq_ok.mp hScope with
        ⟨_, hLeast, hThere⟩
      unfold emptyLength at hLeast
      rw [List.length_drop] at hThere
      omega
  | _ => exact hFixed hLength

/-
  Length of a payload without a nested document, its value
  checked where not every value is allowed: a boolean is
  zero or one.
-/
def scalarLength
    (tag : Tag)
    (bytes : Bytes) : Except Error Nat :=
  match tag with
  | .boolean =>
      match bytes with
      | [] => .error .endOfFile
      | b :: _ =>
          if b = 0 ∨ b = 1 then
            .ok 1
          else
            .error (.invalidBoolean b)
  | tag => payloadLength tag bytes

theorem scalarLength_of_ne_boolean
    {tag : Tag}
    (hTag : tag ≠ .boolean)
    (bytes : Bytes) :
    scalarLength tag bytes = payloadLength tag bytes := by
  cases tag with
  | boolean => exact absurd rfl hTag
  | _ => rfl

/- A boolean is one byte that is zero or one. -/
theorem scalarLength_boolean_eq_ok
    {bytes : Bytes}
    {n : Nat} :
    scalarLength .boolean bytes = .ok n ↔
      n = 1 ∧ ∃ b rest, bytes = b :: rest ∧
        (b = 0 ∨ b = 1) := by
  cases bytes with
  | nil => simp [scalarLength]
  | cons b rest =>
      simp only [scalarLength]
      split
      next hAllowed => simp [hAllowed, eq_comm]
      next hForeign => simp [hForeign]

/- A scalar is as long as its framing says. -/
theorem payloadLength_of_scalarLength
    {tag : Tag}
    {bytes : Bytes}
    {n : Nat}
    (hLength : scalarLength tag bytes = .ok n) :
    payloadLength tag bytes = .ok n := by
  by_cases hTag : tag = .boolean
  · rw [hTag] at hLength ⊢
    rcases scalarLength_boolean_eq_ok.mp hLength with
      ⟨rfl, b, rest, rfl, _⟩
    refine claim_eq_ok.mpr ⟨rfl, ?_⟩
    exact Nat.succ_le_succ (Nat.zero_le _)
  · rw [scalarLength_of_ne_boolean hTag] at hLength
    exact hLength

/- No scalar reaches beyond the bytes. -/
theorem scalarLength_le
    {tag : Tag}
    {bytes : Bytes}
    {n : Nat}
    (hLength : scalarLength tag bytes = .ok n) :
    n ≤ bytes.length := by
  by_cases hTag : tag = .boolean
  · rw [hTag] at hLength
    rcases scalarLength_boolean_eq_ok.mp hLength with
      ⟨rfl, b, rest, rfl, _⟩
    exact Nat.succ_le_succ (Nat.zero_le _)
  · rw [scalarLength_of_ne_boolean hTag] at hLength
    exact payloadLength_le hLength

/- Length of the payload at a position of a buffer. -/
def payloadLengthAt
    (tag : Tag)
    (buffer : Bytes)
    (offset : Nat) : Except Error Nat :=
  if offset ≤ buffer.length then
    payloadLength tag (buffer.drop offset)
  else
    .error .endOfFile

end Framing

end BsonView
