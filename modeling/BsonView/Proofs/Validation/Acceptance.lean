import BsonView.Proofs.Grammar.Tree
import BsonView.Proofs.Validation.Walk

/-
  The validator accepts the grammar.

  A document is valid where the encoding of one stands that
  is not nested too deep, and it is as long as that is.

  Main declarations:
    * `Validation.Plain.document_sound`
    * `Validation.Plain.payload_complete`
    * `Validation.Plain.document_eq_ok_iff`
    * `Validation.document_accepts_grammar`
-/

------------------------------------------------------------
-- Documents From Their Bodies
------------------------------------------------------------

namespace BsonView

namespace Validation

namespace Plain

open Grammar

variable {limits : Limits} {depth : Nat}

/- A document is valid where its body is. -/
theorem document_of_elements
    {body bytes : Bytes}
    (hDepth : depth ≤ limits.maxDepth)
    (hSize : (documentForm body).length ≤ Word.maxLength)
    (hForm : documentForm body <+: bytes)
    (hBody :
      ∀ length total,
        elements limits depth length total (body ++ [0]) =
          .ok (total + (body.length + 1))) :
    document limits depth bytes =
      .ok (documentForm body).length := by
  refine document_eq_ok.mpr
    ⟨hDepth, _, documentLength_of_form hSize hForm, ?_⟩
  rw [← List.prefix_iff_eq_take.mp hForm, documentForm,
    List.drop_left' (Word.length_ofLength _), hBody]
  congr 1
  simp

/- A valid document is the form of its body. -/
theorem documentForm_of_elements
    {body bytes : Bytes}
    {length : Nat}
    (hLength : Framing.documentLength bytes = .ok length)
    (hBody : (bytes.take length).drop 4 = body ++ [0]) :
    documentForm body <+: bytes ∧
      (documentForm body).length = length := by
  rcases Framing.documentLength_eq_ok.mp hLength with
    ⟨hField, hLeast, hThere⟩
  rcases Word.readLength_eq_ok.mp hField with
    ⟨_, rest, rfl⟩
  rw [List.length_append, Word.length_ofLength] at hThere
  unfold Framing.emptyLength at hLeast
  have hRest : rest.take (length - 4) = body ++ [0] := by
    rw [List.take_append, Word.length_ofLength,
      List.take_of_length_le (by simp; omega),
      List.drop_left' (Word.length_ofLength length)] at hBody
    exact hBody
  have hSize := congrArg List.length hRest
  rw [List.length_take, List.length_append,
    List.length_singleton] at hSize
  have hSame : body.length + 5 = length := by omega
  constructor
  · rw [documentForm, hSame, ← hRest]
    refine (List.prefix_append_right_inj _).mpr ?_
    exact List.take_prefix _ _
  · rw [length_documentForm, hSame]

end Plain

end Validation

end BsonView

------------------------------------------------------------
-- Soundness
------------------------------------------------------------

namespace BsonView

namespace Validation

namespace Plain

open Grammar

variable {limits : Limits}

mutual

/- The bytes of a valid document encode one. -/
theorem document_sound
    {depth n : Nat}
    {bytes : Bytes}
    (hDocument : document limits depth bytes = .ok n) :
    ∃ fields, IsDocument fields ∧
      documentBytes fields <+: bytes ∧
      n = (documentBytes fields).length ∧
      depth + bodyHeight fields ≤ limits.maxDepth := by
  rcases document_eq_ok.mp hDocument with
    ⟨hDepth, length, hLength, hElements⟩
  have hOwn := documentLength_of_document_eq_ok hDocument
  rw [hLength] at hOwn
  cases hOwn
  rcases elements_sound hDepth hElements with
    ⟨fields, hWell, hBody, hHeight⟩
  rcases documentForm_of_elements hLength hBody with
    ⟨hForm, hSize⟩
  have hSmall :=
    (Word.readLength_eq_ok.mp
      (Framing.documentLength_eq_ok.mp hLength).1).1
  exact
    ⟨fields, ⟨hWell, hSize ▸ hSmall⟩, hForm, hSize.symm,
      hHeight⟩
termination_by 3 * bytes.length + 1
decreasing_by
  simp only [List.length_drop, List.length_take]
  omega

/- The bytes of valid elements encode some. -/
theorem elements_sound
    {depth length total n : Nat}
    {bytes : Bytes}
    (hDepth : depth ≤ limits.maxDepth)
    (hElements :
      elements limits depth length total bytes = .ok n) :
    ∃ fields, BodyWellFormed fields ∧
      bytes = bodyBytes fields ++ [0] ∧
      depth + bodyHeight fields ≤ limits.maxDepth := by
  match bytes with
  | [] =>
      rw [elements] at hElements
      cases hElements
  | b :: rest =>
      rcases elements_cons_eq_ok.mp hElements with
        ⟨rfl, rfl, _⟩ |
          ⟨_, tag, key, size, hTag, hKey, hSize, hMore⟩
      · exact ⟨[], trivial, rfl, hDepth⟩
      rcases payload_sound hDepth hSize with
        ⟨tree, hTree, hSame, hPrefix, hLength, hHeight⟩
      rcases elements_sound hDepth hMore with
        ⟨fields, hWell, hBytes, hRest⟩
      rcases Bytes.cstringLength_eq_ok.mp hKey with
        ⟨text, after, rfl, hText, rfl⟩
      rw [← List.drop_drop, Bytes.drop_terminated] at hBytes
      rw [Bytes.drop_terminated] at hPrefix
      rcases hPrefix with ⟨others, rfl⟩
      rw [hLength, List.drop_left] at hBytes
      refine ⟨⟨text, tree⟩ :: fields, ?_, ?_, ?_⟩
      · exact ⟨hText, hTree, hWell⟩
      · rw [bodyBytes, Framing.tag_eq_ok.mp hTag, hBytes,
          hSame]
        simp only [List.cons_append, List.append_assoc]
      · rw [bodyHeight]
        omega
termination_by 3 * bytes.length
decreasing_by
  all_goals
    simp only [List.length_drop, List.length_cons]
    omega

/- The bytes of a valid payload encode one of its type. -/
theorem payload_sound
    {depth n : Nat}
    {tag : Tag}
    {bytes : Bytes}
    (hDepth : depth ≤ limits.maxDepth)
    (hPayload : payload limits depth tag bytes = .ok n) :
    ∃ tree : ParseTree, tree.WellFormed ∧ tree.tag = tag ∧
      tree.bytes <+: bytes ∧ n = tree.bytes.length ∧
      depth + tree.height ≤ limits.maxDepth := by
  rcases tag.kinds with hContainer | rfl | hScalar
  · rw [payload_of_isContainer hContainer] at hPayload
    rcases document_sound hPayload with
      ⟨fields, hFields, hPrefix, hLength, hHeight⟩
    have hNested : depth + (bodyHeight fields + 1) ≤
        limits.maxDepth := by omega
    cases tag with
    | embeddedDocument =>
        exact
          ⟨.document fields, hFields, rfl, hPrefix, hLength,
            hNested⟩
    | array =>
        exact
          ⟨.array fields, hFields, rfl, hPrefix, hLength,
            hNested⟩
    | _ => cases hContainer
  · rcases payload_codeWithScope_eq_ok.mp hPayload with
      ⟨outer, code, scope, hOuter, hCode, hScope, rfl⟩
    rcases document_sound hScope with
      ⟨fields, hFields, hPrefix, hLength, hHeight⟩
    rcases stringLength_eq_ok.mp hCode with
      ⟨text, hText, hString, rfl⟩
    have hThere := (Word.readInt32_eq_ok.mp hOuter).1
    have hWidth : (bytes.take 4).length = 4 := by
      rw [List.length_take]
      omega
    refine
      ⟨.code (bytes.take 4) text fields,
        ⟨hWidth, hText, hFields.1, hFields.2⟩, rfl, ?_, ?_,
        ?_⟩
    · apply (code_bytes_iff hWidth).mpr
      exact ⟨List.take_prefix 4 bytes, hString, hPrefix⟩
    · rw [length_code_bytes hWidth, hLength]
    · rw [ParseTree.height]
      omega
  · rw [payload_of_isScalar hScalar] at hPayload
    rcases (scalarLength_eq_ok hScalar).mp
        (mapError_eq_ok.mp hPayload) with
      ⟨form, hForm, hPrefix, hLength⟩
    exact
      ⟨.scalar tag form, hForm, rfl, hPrefix, hLength,
        hDepth⟩
termination_by 3 * bytes.length + 2
decreasing_by
  all_goals
    try simp only [List.length_drop]
    omega

end

end Plain

end Validation

end BsonView

------------------------------------------------------------
-- Completeness
------------------------------------------------------------

namespace BsonView

namespace Validation

namespace Plain

open Grammar

variable {limits : Limits}

mutual

/- The encoding of a payload is valid. -/
theorem payload_complete
    {depth : Nat}
    {bytes : Bytes} :
    ∀ {tree : ParseTree},
      tree.WellFormed → tree.bytes <+: bytes →
      depth + tree.height ≤ limits.maxDepth →
      payload limits depth tree.tag bytes =
        .ok tree.bytes.length
| .scalar tag form, hWell, hPrefix, _ => by
    have hForm : ScalarForm tag form := hWell
    have hLength := hForm.scalarLength hPrefix
    simp only [ParseTree.tag, ParseTree.bytes]
    rw [payload_of_isScalar hForm.isScalar, hLength]
    rfl
| .document fields, hWell, hPrefix, hHeight => by
    rw [ParseTree.height] at hHeight
    simp only [ParseTree.tag, ParseTree.bytes]
    rw [payload_of_isContainer rfl]
    exact document_of_elements (by omega) hWell.2 hPrefix
      (elements_complete hWell.1 (by omega))
| .array fields, hWell, hPrefix, hHeight => by
    rw [ParseTree.height] at hHeight
    simp only [ParseTree.tag, ParseTree.bytes]
    rw [payload_of_isContainer rfl]
    exact document_of_elements (by omega) hWell.2 hPrefix
      (elements_complete hWell.1 (by omega))
| .code outer text scope, hWell, hPrefix, hHeight => by
    rcases hWell with ⟨hOuter, hText, hScope, hSize⟩
    rcases (code_bytes_iff hOuter).mp hPrefix with
      ⟨hFront, hString, hBody⟩
    have hWidth : 4 ≤ bytes.length :=
      hOuter ▸ hFront.length_le
    rw [ParseTree.height] at hHeight
    apply payload_codeWithScope_eq_ok.mpr
    refine ⟨_, (stringForm text).length,
      (documentBytes scope).length,
      Word.readInt32_eq_ok.mpr ⟨hWidth, rfl⟩, ?_, ?_, ?_⟩
    · exact stringLength_eq_ok.mpr
        ⟨text, hText, hString, rfl⟩
    · exact document_of_elements (by omega) hSize hBody
        (elements_complete hScope (by omega))
    · exact length_code_bytes hOuter text scope

/- The encodings of elements are valid. -/
theorem elements_complete
    {depth : Nat} :
    ∀ {fields : List ParseField},
      BodyWellFormed fields →
      depth + bodyHeight fields ≤ limits.maxDepth →
      ∀ length total,
        elements limits depth length total
            (bodyBytes fields ++ [0]) =
          .ok (total + ((bodyBytes fields).length + 1))
| [], _, _, length, total => by
    apply elements_cons_eq_ok.mpr
    exact .inl ⟨rfl, rfl, rfl⟩
| ⟨key, tree⟩ :: rest, hWell, hHeight, length, total => by
    rcases hWell with ⟨hKey, hTree, hRest⟩
    rw [bodyHeight] at hHeight
    rw [bodyBytes_cons_null]
    apply elements_cons_eq_ok.mpr
    refine .inr ⟨tree.tag.byte_ne_zero, tree.tag, key.length,
      tree.bytes.length, ?_, ?_, ?_, ?_⟩
    · exact Framing.tag_eq_ok.mpr rfl
    · exact Bytes.cstringLength_terminated hKey _
    · rw [Bytes.drop_terminated]
      exact payload_complete hTree
        (List.prefix_append _ _) (by omega)
    · rw [← List.drop_drop, Bytes.drop_terminated,
        List.drop_left, elements_complete hRest (by omega),
        bodyBytes]
      simp
      omega

end

/- The encoding of a document is valid. -/
theorem document_complete
    {depth : Nat}
    {fields : List ParseField}
    {bytes : Bytes}
    (hFields : IsDocument fields)
    (hPrefix : documentBytes fields <+: bytes)
    (hHeight :
      depth + bodyHeight fields ≤ limits.maxDepth) :
    document limits depth bytes =
      .ok (documentBytes fields).length :=
  document_of_elements (by omega) hFields.2 hPrefix
    (elements_complete hFields.1 hHeight)

/- A document is valid where the encoding of one stands. -/
theorem document_eq_ok_iff
    {depth n : Nat}
    {bytes : Bytes} :
    document limits depth bytes = .ok n ↔
      ∃ fields, IsDocument fields ∧
        documentBytes fields <+: bytes ∧
        n = (documentBytes fields).length ∧
        depth + bodyHeight fields ≤ limits.maxDepth := by
  constructor
  · exact document_sound
  · intro hExists
    rcases hExists with
      ⟨fields, hFields, hPrefix, rfl, hHeight⟩
    exact document_complete hFields hPrefix hHeight

end Plain

end Validation

end BsonView

------------------------------------------------------------
-- Acceptance
------------------------------------------------------------

namespace BsonView

namespace Validation

open Grammar

/-
  The `n` bytes at a position of a buffer are there and are
  the encoding of a document.
-/
def Stands
    (data : Bytes)
    (offset n : Nat)
    (fields : List ParseField) : Prop :=
  IsDocument fields ∧
    offset + n ≤ data.length ∧
    (data.drop offset).take n = documentBytes fields

/- What stands there is as long as it says, and a front. -/
theorem stands_iff
    {data : Bytes}
    {offset n : Nat}
    {fields : List ParseField} :
    Stands data offset n fields ↔
      IsDocument fields ∧
        documentBytes fields <+: data.drop offset ∧
        n = (documentBytes fields).length := by
  constructor
  · intro hBoth
    rcases hBoth with ⟨hFields, hThere, hBytes⟩
    refine ⟨hFields, ?_, ?_⟩
    · rw [← hBytes]
      exact List.take_prefix _ _
    · rw [← hBytes, List.length_take, List.length_drop]
      omega
  · intro hBoth
    rcases hBoth with ⟨hFields, hPrefix, rfl⟩
    have hLength := hPrefix.length_le
    have hSome : 0 < (documentBytes fields).length := by
      rw [documentBytes, length_documentForm]
      exact Nat.succ_pos _
    rw [List.length_drop] at hLength
    refine ⟨hFields, by omega, ?_⟩
    exact (List.prefix_iff_eq_take.mp hPrefix).symm

/-
  The validator accepts what the grammar derives and no more,
  and what the grammar derives at a position is one document
  of one length.
-/
theorem document_accepts_grammar
    (limits : Limits)
    (data : Bytes)
    (offset depth : Nat) :
    (∀ n,
      document limits data offset depth = .ok n ↔
        ∃ fields, Stands data offset n fields ∧
          depth + bodyHeight fields ≤ limits.maxDepth) ∧
      ∀ n m a b,
        Stands data offset n a ∧ Stands data offset m b →
          n = m ∧ a = b := by
  constructor
  · intro n
    rw [document_eq_plain, Plain.document_eq_ok_iff]
    constructor
    · intro hExists
      rcases hExists with
        ⟨fields, hFields, hPrefix, hLength, hHeight⟩
      exact
        ⟨fields,
          stands_iff.mpr ⟨hFields, hPrefix, hLength⟩,
          hHeight⟩
    · intro hExists
      rcases hExists with ⟨fields, hStands, hHeight⟩
      rcases stands_iff.mp hStands with
        ⟨hFields, hPrefix, hLength⟩
      exact ⟨fields, hFields, hPrefix, hLength, hHeight⟩
  · rintro n m a b ⟨hA, hB⟩
    rcases stands_iff.mp hA with ⟨hFieldsA, hFrontA, rfl⟩
    rcases stands_iff.mp hB with ⟨hFieldsB, hFrontB, rfl⟩
    have hSame :=
      hFieldsA.eq_of_fronts hFieldsB hFrontA hFrontB
    rw [hSame]
    exact ⟨rfl, rfl⟩

/-
  A boolean and a document of one null, with a byte on each
  side: they are accepted where they stand, at a depth that
  leaves room for the nested one, and nothing else stands
  there.
-/
theorem nested_document_stands_alone :
    let data : Bytes :=
      [255, 20, 0, 0, 0, 8, 97, 0, 1, 3, 100, 0, 8, 0, 0, 0,
        10, 110, 0, 0, 0, 255]
    let fields : List ParseField :=
      [⟨[97], .scalar .boolean [1]⟩,
        ⟨[100], .document [⟨[110], .scalar .null []⟩]⟩]
    Stands data 1 20 fields ∧
      document ⟨4⟩ data 1 3 = .ok 20 ∧
      document ⟨3⟩ data 1 3 ≠ .ok 20 ∧
      ∀ m other,
        Stands data 1 m other → 20 = m ∧ fields = other := by
  intro data fields
  have hTrue : ScalarForm .boolean [1] := .boolean (.inr rfl)
  have hNull : ScalarForm .null [] := .fixed (by decide) rfl
  have hInner : BodyWellFormed [⟨[110], .scalar .null []⟩] :=
    ⟨by decide, hNull, trivial⟩
  have hStands : Stands data 1 20 fields :=
    ⟨⟨⟨by decide, hTrue, by decide, ⟨hInner, by decide⟩,
      trivial⟩, by decide⟩, by decide, by decide⟩
  have hHeight : bodyHeight fields = 1 := rfl
  rcases document_accepts_grammar ⟨4⟩ data 1 3 with
    ⟨hAccepts, hAlone⟩
  rcases document_accepts_grammar ⟨3⟩ data 1 3 with
    ⟨hRefuses, _⟩
  refine ⟨hStands, ?_, ?_, ?_⟩
  · have hRoom : 3 + bodyHeight fields ≤ 4 := by omega
    exact (hAccepts 20).mpr ⟨fields, hStands, hRoom⟩
  · intro hShallow
    rcases (hRefuses 20).mp hShallow with
      ⟨other, hOther, hDeep⟩
    rcases hAlone 20 20 fields other ⟨hStands, hOther⟩ with
      ⟨_, rfl⟩
    simp [hHeight] at hDeep
  · intro m other hOther
    exact hAlone 20 m fields other ⟨hStands, hOther⟩

end Validation

end BsonView
