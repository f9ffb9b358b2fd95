import BsonView.Proofs.Grammar.Forms

/-
  The grammar of documents.

  A tree is a payload taken apart down to its scalars. The
  well-formed trees are those whose encodings the format
  knows; each encoding begins one tree of its type at most.

  Main declarations:
    * `Grammar.ParseTree`
    * `Grammar.ParseField`
    * `Grammar.ParseTree.bytes`
    * `Grammar.ParseTree.height`
    * `Grammar.ParseTree.WellFormed`
    * `Grammar.IsDocument`
    * `Grammar.ParseTree.eq_of_fronts`
    * `Grammar.IsDocument.eq_of_fronts`
-/

------------------------------------------------------------
-- Trees
------------------------------------------------------------

namespace BsonView

namespace Grammar

mutual

/-
  A payload with what is in it. The outer length of a code
  with scope is kept as the bytes it is.
-/
inductive ParseTree
| scalar (tag : Tag) (bytes : Bytes)
| document (fields : List ParseField)
| array (fields : List ParseField)
| code (outer text : Bytes) (scope : List ParseField)

/- A payload with the key that it has in a document. -/
structure ParseField where
  key : Bytes
  tree : ParseTree

end

/- The type of a payload. -/
def ParseTree.tag : ParseTree → Tag
| .scalar tag _ => tag
| .document _ => .embeddedDocument
| .array _ => .array
| .code _ _ _ => .codeWithScope

mutual

/- The encoding of a payload. -/
def ParseTree.bytes : ParseTree → Bytes
| .scalar _ bytes => bytes
| .document fields => documentForm (bodyBytes fields)
| .array fields => documentForm (bodyBytes fields)
| .code outer text scope =>
    outer ++
      (stringForm text ++ documentForm (bodyBytes scope))

/-
  The encoding of elements: type byte, key, null byte and
  payload of each.
-/
def bodyBytes : List ParseField → Bytes
| [] => []
| ⟨key, tree⟩ :: rest =>
    tree.tag.byte ::
      (key ++ 0 :: (tree.bytes ++ bodyBytes rest))

end

/- An element is its header and its payload. -/
theorem bodyBytes_cons
    (key : Bytes)
    (tree : ParseTree)
    (rest : List ParseField) :
    bodyBytes (⟨key, tree⟩ :: rest) =
      tree.tag.byte :: (key ++ [0]) ++
        (tree.bytes ++ bodyBytes rest) := by
  rw [bodyBytes]
  simp

/- An element, followed by the rest of its document. -/
theorem bodyBytes_cons_null
    (key : Bytes)
    (tree : ParseTree)
    (rest : List ParseField) :
    bodyBytes (⟨key, tree⟩ :: rest) ++ [0] =
      tree.tag.byte ::
        (key ++
          0 :: (tree.bytes ++ (bodyBytes rest ++ [0]))) := by
  rw [bodyBytes]
  simp only [List.cons_append, List.append_assoc]

/- An element has two bytes beside its key and payload. -/
theorem length_bodyBytes_cons
    (key : Bytes)
    (tree : ParseTree)
    (rest : List ParseField) :
    (bodyBytes (⟨key, tree⟩ :: rest)).length =
      key.length + 2 + tree.bytes.length +
        (bodyBytes rest).length := by
  rw [bodyBytes]
  simp
  omega

mutual

/- The most documents that are nested in each other. -/
def ParseTree.height : ParseTree → Nat
| .scalar _ _ => 0
| .document fields => bodyHeight fields + 1
| .array fields => bodyHeight fields + 1
| .code _ _ scope => bodyHeight scope + 1

/- The greatest height of the payloads of elements. -/
def bodyHeight : List ParseField → Nat
| [] => 0
| ⟨_, tree⟩ :: rest => max tree.height (bodyHeight rest)

end

mutual

/-
  A payload is of the format: its scalars have the forms of
  their types, its keys hold no null byte, and each length
  fits its field.
-/
def ParseTree.WellFormed : ParseTree → Prop
| .scalar tag bytes => ScalarForm tag bytes
| .document fields =>
    BodyWellFormed fields ∧
      (documentForm (bodyBytes fields)).length ≤
        Word.maxLength
| .array fields =>
    BodyWellFormed fields ∧
      (documentForm (bodyBytes fields)).length ≤
        Word.maxLength
| .code outer text scope =>
    outer.length = 4 ∧
      text.length + 1 ≤ Word.maxLength ∧
      BodyWellFormed scope ∧
      (documentForm (bodyBytes scope)).length ≤
        Word.maxLength

/- Elements are of the format. -/
def BodyWellFormed : List ParseField → Prop
| [] => True
| ⟨key, tree⟩ :: rest =>
    0 ∉ key ∧ tree.WellFormed ∧ BodyWellFormed rest

end

/- The encoding of the document that has the elements. -/
def documentBytes (fields : List ParseField) : Bytes :=
  documentForm (bodyBytes fields)

/- A code with scope is as long as its three parts. -/
theorem length_code_bytes
    {outer : Bytes}
    (hOuter : outer.length = 4)
    (text : Bytes)
    (scope : List ParseField) :
    (ParseTree.code outer text scope).bytes.length =
      4 + (stringForm text).length +
        (documentBytes scope).length := by
  rw [ParseTree.bytes, List.length_append,
    List.length_append, hOuter, Nat.add_assoc]
  rfl

/- Elements make a document of the format. -/
def IsDocument (fields : List ParseField) : Prop :=
  BodyWellFormed fields ∧
    (documentBytes fields).length ≤ Word.maxLength

namespace ParseTree.WellFormed

variable {tree : ParseTree}

/- A payload with the type of documents is one. -/
theorem document_of_tag
    (hTree : tree.WellFormed)
    (hTag : tree.tag = .embeddedDocument) :
    ∃ fields, tree = .document fields := by
  cases tree with
  | document fields => exact ⟨fields, rfl⟩
  | scalar tag bytes =>
      cases hTag
      cases ScalarForm.isScalar hTree
  | array fields => cases hTag
  | code outer text scope => cases hTag

/- A payload with the type of arrays is one. -/
theorem array_of_tag
    (hTree : tree.WellFormed)
    (hTag : tree.tag = .array) :
    ∃ fields, tree = .array fields := by
  cases tree with
  | array fields => exact ⟨fields, rfl⟩
  | scalar tag bytes =>
      cases hTag
      cases ScalarForm.isScalar hTree
  | document fields => cases hTag
  | code outer text scope => cases hTag

/- A payload with the type of codes with scope is one. -/
theorem code_of_tag
    (hTree : tree.WellFormed)
    (hTag : tree.tag = .codeWithScope) :
    ∃ outer text scope,
      tree = .code outer text scope := by
  cases tree with
  | code outer text scope => exact ⟨outer, text, scope, rfl⟩
  | scalar tag bytes =>
      cases hTag
      cases ScalarForm.isScalar hTree
  | document fields => cases hTag
  | array fields => cases hTag

end ParseTree.WellFormed

end Grammar

end BsonView

------------------------------------------------------------
-- Prefixes
------------------------------------------------------------

namespace BsonView

namespace Grammar

/- Two fronts of the same length are the same. -/
theorem eq_of_fronts
    {a b bytes : Bytes}
    (hA : a <+: bytes)
    (hB : b <+: bytes)
    (hLength : a.length = b.length) :
    a = b := by
  have hFront := List.prefix_of_prefix_length_le hA hB
    (Nat.le_of_eq hLength)
  exact hFront.eq_of_length hLength

/- A code with scope stands where its three parts do. -/
theorem code_bytes_iff
    {outer text bytes : Bytes}
    {scope : List ParseField}
    (hOuter : outer.length = 4) :
    (ParseTree.code outer text scope).bytes <+: bytes ↔
      outer <+: bytes ∧
        stringForm text <+: bytes.drop 4 ∧
        documentBytes scope <+:
          bytes.drop (4 + (stringForm text).length) := by
  rw [ParseTree.bytes, Bytes.append_prefix_iff,
    Bytes.append_prefix_iff, List.drop_drop, hOuter]
  rfl

/- Texts without a null byte end at the first one. -/
theorem eq_of_terminated
    {a b restA restB : Bytes}
    (hA : 0 ∉ a)
    (hB : 0 ∉ b)
    (hSame : a ++ 0 :: restA = b ++ 0 :: restB) :
    a = b ∧ restA = restB := by
  have hIndexA := Bytes.nullIndex?_append hA restA
  have hIndexB := Bytes.nullIndex?_append hB restB
  rw [hSame, hIndexB] at hIndexA
  have hLength := (Option.some.inj hIndexA).symm
  rcases List.append_inj hSame hLength with ⟨hText, hRest⟩
  exact ⟨hText, (List.cons.inj hRest).2⟩

/- One form of a type begins some bytes at most. -/
theorem ScalarForm.eq_of_fronts
    {tag : Tag}
    {a b bytes : Bytes}
    (hFormA : ScalarForm tag a)
    (hFormB : ScalarForm tag b)
    (hA : a <+: bytes)
    (hB : b <+: bytes) :
    a = b := by
  have hLength := hFormA.scalarLength hA
  rw [hFormB.scalarLength hB] at hLength
  exact Grammar.eq_of_fronts hA hB
    (Except.ok.inj hLength).symm

/- One string begins some bytes at most. -/
theorem text_eq_of_fronts
    {a b bytes : Bytes}
    (hSizeA : a.length + 1 ≤ Word.maxLength)
    (hSizeB : b.length + 1 ≤ Word.maxLength)
    (hA : stringForm a <+: bytes)
    (hB : stringForm b <+: bytes) :
    a = b := by
  have hLength :=
    stringLength_eq_ok.mpr ⟨a, hSizeA, hA, rfl⟩
  rw [stringLength_eq_ok.mpr ⟨b, hSizeB, hB, rfl⟩]
    at hLength
  have hForms := eq_of_fronts hA hB
    (Except.ok.inj hLength).symm
  simp only [length_stringForm] at hLength
  have hSizes : (Word.ofLength (a.length + 1)).length =
      (Word.ofLength (b.length + 1)).length := by
    simp only [Word.length_ofLength]
  have hTexts := (List.append_inj hForms hSizes).2
  exact List.append_cancel_right hTexts

/- One document begins some bytes at most. -/
theorem body_eq_of_fronts
    {a b bytes : Bytes}
    (hSizeA : (documentForm a).length ≤ Word.maxLength)
    (hSizeB : (documentForm b).length ≤ Word.maxLength)
    (hA : documentForm a <+: bytes)
    (hB : documentForm b <+: bytes) :
    a = b := by
  have hLength := readLength_of_form hSizeA hA
  rw [readLength_of_form hSizeB hB] at hLength
  have hSame := (Except.ok.inj hLength).symm
  have hForms := eq_of_fronts hA hB hSame
  have hSizes : (Word.ofLength (a.length + 5)).length =
      (Word.ofLength (b.length + 5)).length := by
    simp only [Word.length_ofLength]
  have hBodies := (List.append_inj hForms hSizes).2
  exact List.append_cancel_right hBodies

end Grammar

end BsonView

------------------------------------------------------------
-- One Tree At Most
------------------------------------------------------------

namespace BsonView

namespace Grammar

mutual

/- One payload of a type begins some bytes at most. -/
theorem ParseTree.eq_of_fronts
    {bytes : Bytes} :
    ∀ {a b : ParseTree},
      a.WellFormed → b.WellFormed → a.tag = b.tag →
      a.bytes <+: bytes → b.bytes <+: bytes → a = b
| .scalar tagA bytesA, b, hWellA, hWellB, hTag, hA, hB => by
    cases b with
    | scalar tagB bytesB =>
        cases hTag
        rw [ScalarForm.eq_of_fronts hWellA hWellB hA hB]
    | document fields =>
        cases hTag
        cases hWellA.isScalar
    | array fields =>
        cases hTag
        cases hWellA.isScalar
    | code outer text scope =>
        cases hTag
        cases hWellA.isScalar
| .document fieldsA, b, hWellA, hWellB, hTag, hA, hB => by
    cases b with
    | document fieldsB =>
        have hBodies :=
          body_eq_of_fronts hWellA.2 hWellB.2 hA hB
        rw [body_eq_of_bytes hWellA.1 hWellB.1 hBodies]
    | scalar tagB bytesB =>
        cases hTag
        cases hWellB.isScalar
    | array fieldsB => cases hTag
    | code outer text scope => cases hTag
| .array fieldsA, b, hWellA, hWellB, hTag, hA, hB => by
    cases b with
    | array fieldsB =>
        have hBodies :=
          body_eq_of_fronts hWellA.2 hWellB.2 hA hB
        rw [body_eq_of_bytes hWellA.1 hWellB.1 hBodies]
    | scalar tagB bytesB =>
        cases hTag
        cases hWellB.isScalar
    | document fieldsB => cases hTag
    | code outer text scope => cases hTag
| .code outerA textA scopeA, b, hWellA, hWellB, hTag,
    hA, hB => by
    cases b with
    | code outerB textB scopeB =>
        rcases hWellA with
          ⟨hOuterA, hTextA, hScopeA, hSizeA⟩
        rcases hWellB with
          ⟨hOuterB, hTextB, hScopeB, hSizeB⟩
        rcases (code_bytes_iff hOuterA).mp hA with
          ⟨hFrontA, hStringA, hBodyA⟩
        rcases (code_bytes_iff hOuterB).mp hB with
          ⟨hFrontB, hStringB, hBodyB⟩
        have hOuter : outerA = outerB :=
          Grammar.eq_of_fronts hFrontA hFrontB
            (hOuterA.trans hOuterB.symm)
        have hText : textA = textB :=
          text_eq_of_fronts hTextA hTextB hStringA hStringB
        cases hOuter
        cases hText
        have hBodies :=
          body_eq_of_fronts hSizeA hSizeB hBodyA hBodyB
        rw [body_eq_of_bytes hScopeA hScopeB hBodies]
    | scalar tagB bytesB =>
        cases hTag
        cases hWellB.isScalar
    | document fieldsB => cases hTag
    | array fieldsB => cases hTag

/- Elements are determined by their encoding. -/
theorem body_eq_of_bytes :
    ∀ {a b : List ParseField},
      BodyWellFormed a → BodyWellFormed b →
      bodyBytes a = bodyBytes b → a = b
| [], [], _, _, _ => rfl
| [], ⟨_, _⟩ :: _, _, _, hBytes => by
    rw [bodyBytes, bodyBytes] at hBytes
    cases hBytes
| ⟨_, _⟩ :: _, [], _, _, hBytes => by
    rw [bodyBytes, bodyBytes] at hBytes
    cases hBytes
| ⟨keyA, treeA⟩ :: restA, ⟨keyB, treeB⟩ :: restB,
    hWellA, hWellB, hBytes => by
    rcases hWellA with ⟨hKeyA, hTreeA, hRestA⟩
    rcases hWellB with ⟨hKeyB, hTreeB, hRestB⟩
    rw [bodyBytes, bodyBytes] at hBytes
    rcases List.cons.inj hBytes with ⟨hByte, hAfter⟩
    rcases eq_of_terminated hKeyA hKeyB hAfter with
      ⟨hKey, hPayloads⟩
    have hTree :=
      ParseTree.eq_of_fronts hTreeA hTreeB
        (Tag.byte_injective hByte)
        (List.prefix_append treeA.bytes (bodyBytes restA))
        (hPayloads ▸ List.prefix_append _ _)
    cases hKey
    cases hTree
    rw [body_eq_of_bytes hRestA hRestB
      (List.append_cancel_left hPayloads)]

end

/- One document begins some bytes at most. -/
theorem IsDocument.eq_of_fronts
    {a b : List ParseField}
    {bytes : Bytes}
    (hDocumentA : IsDocument a)
    (hDocumentB : IsDocument b)
    (hA : documentBytes a <+: bytes)
    (hB : documentBytes b <+: bytes) :
    a = b :=
  body_eq_of_bytes hDocumentA.1 hDocumentB.1
    (body_eq_of_fronts hDocumentA.2 hDocumentB.2 hA hB)

end Grammar

end BsonView

------------------------------------------------------------
-- Framing
------------------------------------------------------------

namespace BsonView

namespace Grammar

/- The length field of a document tells its length. -/
theorem IsDocument.readLength
    {fields : List ParseField}
    (hFields : IsDocument fields) :
    Word.readLength (documentBytes fields) =
      .ok (documentBytes fields).length :=
  readLength_of_form hFields.2 (List.prefix_refl _)

/- The framing of a payload tells how long its tree is. -/
theorem ParseTree.payloadLength
    {tree : ParseTree}
    {bytes : Bytes}
    (hTree : tree.WellFormed)
    (hPrefix : tree.bytes <+: bytes) :
    Framing.payloadLength tree.tag bytes =
      .ok tree.bytes.length := by
  cases tree with
  | scalar tag form =>
      have hForm : ScalarForm tag form := hTree
      exact Framing.payloadLength_of_scalarLength
        (hForm.scalarLength hPrefix)
  | document fields =>
      exact documentLength_of_form hTree.2 hPrefix
  | array fields =>
      exact documentLength_of_form hTree.2 hPrefix
  | code outer text scope =>
      rcases hTree with ⟨hOuter, hText, _, hSize⟩
      rcases (code_bytes_iff hOuter).mp hPrefix with
        ⟨hFront, hString, hBody⟩
      have hHeader :=
        Framing.claim_eq_ok.mpr
          ⟨rfl, hOuter ▸ hFront.length_le⟩
      have hCode :=
        stringLength_eq_ok.mpr ⟨text, hText, hString, rfl⟩
      have hScope := documentLength_of_form hSize hBody
      simp only [ParseTree.tag, Framing.payloadLength,
        hHeader, ok_bind, hCode, hScope]
      rw [length_code_bytes hOuter]
      rfl

end Grammar

end BsonView
