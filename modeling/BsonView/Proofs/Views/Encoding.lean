import BsonView.Index
import BsonView.Proofs.Grammar.Tree
import BsonView.Value

/-
  The trees that views encode.

  A payload in a buffer encodes the tree whose bytes stand
  there, an opened container the trees of its elements. The
  outer length of a code with scope agrees with the rest of
  it, and the keys of an opened array are its indices. No
  view encodes two trees, and a tree whose lengths fit their
  fields is of the format.

  Main declarations:
    * `Grammar.ParseTree.agreeing`
    * `Value.Encodes`
    * `Element.Encodes`
    * `Document.Encodes`
    * `ArrayDoc.Encodes`
    * `Value.encodes_unique`
    * `Document.encodes_unique`
    * `Grammar.ParseTree.Fits`
    * `Value.wellFormed_of_encodes`
    * `Document.isDocument_of_encodes`
-/

------------------------------------------------------------
-- Outer Lengths That Agree
------------------------------------------------------------

namespace BsonView

namespace Grammar

/- The length of a code with scope, as its field holds it. -/
def outerField
    (text : Bytes)
    (scope : List ParseField) : Bytes :=
  Word.ofLength
    (4 + (stringForm text).length +
      (documentBytes scope).length)

@[simp] theorem length_outerField
    (text : Bytes)
    (scope : List ParseField) :
    (outerField text scope).length = 4 :=
  Word.length_ofLength _

namespace ParseTree

/-
  The payload with an outer length that agrees with its
  string and its scope, if it is a code with scope. Those
  inside it keep theirs.
-/
def agreeing : ParseTree → ParseTree
| .code _ text scope =>
    .code (outerField text scope) text scope
| tree => tree

@[simp] theorem tag_agreeing
    (tree : ParseTree) :
    tree.agreeing.tag = tree.tag := by
  cases tree <;> rfl

@[simp] theorem height_agreeing
    (tree : ParseTree) :
    tree.agreeing.height = tree.height := by
  cases tree <;> rfl

theorem length_agreeing
    {tree : ParseTree}
    (hTree : tree.WellFormed) :
    tree.agreeing.bytes.length = tree.bytes.length := by
  cases tree with
  | code outer text scope =>
      rw [agreeing, length_code_bytes hTree.1,
        length_code_bytes (length_outerField text scope)]
  | _ => rfl

theorem WellFormed.agreeing
    {tree : ParseTree}
    (hTree : tree.WellFormed) :
    tree.agreeing.WellFormed := by
  cases tree with
  | code outer text scope =>
      exact ⟨length_outerField text scope, hTree.2⟩
  | _ => exact hTree

/-
  A payload with a document in it has a length of its own,
  and that fits a length field.
-/
def Fits (tree : ParseTree) : Prop :=
  tree.tag.isScalar = true ∨
    tree.bytes.length ≤ Word.maxLength

theorem Fits.length_le
    {tree : ParseTree}
    (hFits : tree.Fits)
    (hTag : tree.tag.isScalar = false) :
    tree.bytes.length ≤ Word.maxLength := by
  rcases hFits with hScalar | hSmall
  · rw [hTag] at hScalar
    cases hScalar
  · exact hSmall

theorem fits_iff
    {tree : ParseTree}
    (hTag : tree.tag.isScalar = false) :
    tree.bytes.length ≤ Word.maxLength ↔ tree.Fits := by
  constructor
  · exact .inr
  · intro hFits
    exact hFits.length_le hTag

end ParseTree

/- The payloads of all elements fit. -/
def BodyFits (fields : List ParseField) : Prop :=
  ∀ field ∈ fields, field.tree.Fits

theorem bodyFits_cons
    {key : Bytes}
    {tree : ParseTree}
    {rest : List ParseField} :
    BodyFits (⟨key, tree⟩ :: rest) ↔
      tree.Fits ∧ BodyFits rest :=
  List.forall_mem_cons

/- No payload is longer than the elements it is among. -/
theorem bodyFits_of_length
    {fields : List ParseField}
    (hSmall : (bodyBytes fields).length ≤ Word.maxLength) :
    BodyFits fields := by
  induction fields with
  | nil => exact List.forall_mem_nil _
  | cons head rest ih =>
      rcases head with ⟨key, tree⟩
      rw [length_bodyBytes_cons] at hSmall
      apply bodyFits_cons.mpr
      constructor
      · right
        omega
      · apply ih
        omega

/- Everything in a document that fits does. -/
theorem bodyFits_of_document
    {fields : List ParseField}
    (hSmall :
      (documentBytes fields).length ≤ Word.maxLength) :
    BodyFits fields := by
  apply bodyFits_of_length
  rw [documentBytes, length_documentForm] at hSmall
  omega

end Grammar

end BsonView

------------------------------------------------------------
-- Encodings Of Views
------------------------------------------------------------

namespace BsonView

open Grammar

mutual

/- What a value is written as. -/
def Value.Encodes : Value → ParseTree → Prop
| ⟨place, payload⟩, tree =>
    place.tag = .ok tree.tag ∧
      payload.Encodes place.rest tree

/-
  What a payload is written as. The buffer has `rest` from
  there on; a code with scope takes its string from it.
-/
def Payload.Encodes
    (rest : Bytes) :
    Payload → ParseTree → Prop
| .raw, tree =>
    ∃ found : ParseTree, found.WellFormed ∧
      found.bytes <+: rest ∧ tree = found.agreeing
| .document doc, .document fields => doc.Encodes fields
| .document doc, .code outer text scope =>
    outer = outerField text scope ∧
      text.length + 1 ≤ Word.maxLength ∧
      stringForm text <+: rest.drop 4 ∧
      doc.Encodes scope
| .array array, .array fields => array.Encodes fields
| _, _ => False

/- What a document is written as. -/
def Document.Encodes : Document → List ParseField → Prop
| ⟨elements⟩, fields => elementsEncode elements fields

/- What an array is written as. -/
def ArrayDoc.Encodes : ArrayDoc → List ParseField → Prop
| ⟨elements⟩, fields => valuesEncode 0 elements fields

/- Elements are written with the keys they have. -/
def elementsEncode : List Element → List ParseField → Prop
| [], [] => True
| ⟨value⟩ :: rest, ⟨key, tree⟩ :: fields =>
    value.keyBytes? = some key ∧ value.Encodes tree ∧
      elementsEncode rest fields
| _, _ => False

/- Values are written with their indices for keys. -/
def valuesEncode
    (index : Nat) :
    List Element → List ParseField → Prop
| [], [] => True
| ⟨value⟩ :: rest, ⟨key, tree⟩ :: fields =>
    key = Index.digits index ∧
      (∃ own, value.keyBytes? = some own) ∧
      value.Encodes tree ∧
      valuesEncode (index + 1) rest fields
| _, _ => False

end

/- A value encodes a tree of its own type. -/
theorem Value.tag_of_encodes
    {value : Value}
    {tree : ParseTree}
    (hEncodes : value.Encodes tree) :
    value.tag = .ok tree.tag := by
  rcases value with ⟨place, payload⟩
  exact hEncodes.1

/- What an element is written as. -/
def Element.Encodes
    (element : Element)
    (field : ParseField) : Prop :=
  element.value.keyBytes? = some field.key ∧
    element.value.Encodes field.tree

end BsonView

------------------------------------------------------------
-- One Tree For A View
------------------------------------------------------------

namespace BsonView

open Grammar

mutual

/- A value encodes one tree at most. -/
theorem Value.encodes_unique :
    ∀ {value : Value} {a b : ParseTree},
      value.Encodes a → value.Encodes b → a = b
| ⟨place, payload⟩, a, b, ⟨hTagA, hA⟩, ⟨hTagB, hB⟩ => by
    rw [hTagA] at hTagB
    exact Payload.encodes_unique (Except.ok.inj hTagB) hA hB

theorem Payload.encodes_unique
    {rest : Bytes} :
    ∀ {payload : Payload} {a b : ParseTree},
      a.tag = b.tag →
      payload.Encodes rest a → payload.Encodes rest b →
      a = b
| .raw, a, b, hTag, hA, hB => by
    rcases hA with ⟨foundA, hFoundA, hFrontA, rfl⟩
    rcases hB with ⟨foundB, hFoundB, hFrontB, rfl⟩
    rw [ParseTree.tag_agreeing, ParseTree.tag_agreeing]
      at hTag
    rw [ParseTree.eq_of_fronts hFoundA hFoundB hTag hFrontA
      hFrontB]
| .document doc, .document a, .document b, _, hA, hB => by
    rw [Document.encodes_unique hA hB]
| .document doc, .code outerA textA a, .code outerB textB b,
    _, hA, hB => by
    rcases hA with ⟨rfl, hTextA, hStringA, hScopeA⟩
    rcases hB with ⟨rfl, hTextB, hStringB, hScopeB⟩
    rw [Document.encodes_unique hScopeA hScopeB,
      text_eq_of_fronts hTextA hTextB hStringA hStringB]
| .array array, .array a, .array b, _, hA, hB => by
    rw [ArrayDoc.encodes_unique hA hB]
| .document _, .document _, .code _ _ _, hTag, _, _ => by
    cases hTag
| .document _, .code _ _ _, .document _, hTag, _, _ => by
    cases hTag
| .document _, .scalar _ _, _, _, hA, _ => hA.elim
| .document _, .array _, _, _, hA, _ => hA.elim
| .document _, _, .scalar _ _, _, _, hB => hB.elim
| .document _, _, .array _, _, _, hB => hB.elim
| .array _, .scalar _ _, _, _, hA, _ => hA.elim
| .array _, .document _, _, _, hA, _ => hA.elim
| .array _, .code _ _ _, _, _, hA, _ => hA.elim
| .array _, _, .scalar _ _, _, _, hB => hB.elim
| .array _, _, .document _, _, _, hB => hB.elim
| .array _, _, .code _ _ _, _, _, hB => hB.elim

theorem Document.encodes_unique :
    ∀ {doc : Document} {a b : List ParseField},
      doc.Encodes a → doc.Encodes b → a = b
| ⟨_⟩, _, _, hA, hB => elementsEncode_unique hA hB

theorem ArrayDoc.encodes_unique :
    ∀ {array : ArrayDoc} {a b : List ParseField},
      array.Encodes a → array.Encodes b → a = b
| ⟨_⟩, _, _, hA, hB => valuesEncode_unique hA hB

theorem elementsEncode_unique :
    ∀ {elements : List Element} {a b : List ParseField},
      elementsEncode elements a →
      elementsEncode elements b → a = b
| [], [], [], _, _ => rfl
| ⟨value⟩ :: rest, ⟨keyA, treeA⟩ :: a, ⟨keyB, treeB⟩ :: b,
    ⟨hKeyA, hTreeA, hA⟩, ⟨hKeyB, hTreeB, hB⟩ => by
    rw [hKeyA] at hKeyB
    rw [Option.some.inj hKeyB,
      Value.encodes_unique hTreeA hTreeB,
      elementsEncode_unique hA hB]
| [], ⟨_, _⟩ :: _, _, hA, _ => hA.elim
| [], _, ⟨_, _⟩ :: _, _, hB => hB.elim
| ⟨_⟩ :: _, [], _, hA, _ => hA.elim
| ⟨_⟩ :: _, _, [], _, hB => hB.elim

theorem valuesEncode_unique
    {index : Nat} :
    ∀ {elements : List Element} {a b : List ParseField},
      valuesEncode index elements a →
      valuesEncode index elements b → a = b
| [], [], [], _, _ => rfl
| ⟨value⟩ :: rest, ⟨keyA, treeA⟩ :: a, ⟨keyB, treeB⟩ :: b,
    ⟨hKeyA, _, hTreeA, hA⟩, ⟨hKeyB, _, hTreeB, hB⟩ => by
    rw [hKeyA, hKeyB, Value.encodes_unique hTreeA hTreeB,
      valuesEncode_unique hA hB]
| [], ⟨_, _⟩ :: _, _, hA, _ => hA.elim
| [], _, ⟨_, _⟩ :: _, _, hB => hB.elim
| ⟨_⟩ :: _, [], _, hA, _ => hA.elim
| ⟨_⟩ :: _, _, [], _, hB => hB.elim

end

/- What a document encodes is all that it encodes. -/
theorem Document.encodes_iff
    {doc : Document}
    {fields : List ParseField}
    (hFields : doc.Encodes fields)
    (found : List ParseField) :
    doc.Encodes found ↔ found = fields := by
  constructor
  · intro hFound
    exact Document.encodes_unique hFound hFields
  · rintro rfl
    exact hFields

/- What an array encodes is all that it encodes. -/
theorem ArrayDoc.encodes_iff
    {array : ArrayDoc}
    {fields : List ParseField}
    (hFields : array.Encodes fields)
    (found : List ParseField) :
    array.Encodes found ↔ found = fields := by
  constructor
  · intro hFound
    exact ArrayDoc.encodes_unique hFound hFields
  · rintro rfl
    exact hFields

mutual

/- What a value encodes is of the format if it fits. -/
theorem Value.wellFormed_of_encodes :
    ∀ {value : Value} {tree : ParseTree},
      value.Encodes tree → tree.Fits → tree.WellFormed
| ⟨_, _⟩, _, ⟨_, hPayload⟩, hFits =>
    Payload.wellFormed_of_encodes hPayload hFits

theorem Payload.wellFormed_of_encodes
    {rest : Bytes} :
    ∀ {payload : Payload} {tree : ParseTree},
      payload.Encodes rest tree → tree.Fits →
      tree.WellFormed
| .raw, _, hEncodes, _ => by
    rcases hEncodes with ⟨found, hFound, _, rfl⟩
    exact hFound.agreeing
| .document doc, .document fields, hEncodes, hFits =>
    Document.isDocument_of_encodes hEncodes
      (hFits.length_le rfl)
| .document doc, .code outer text scope, hEncodes,
    hFits => by
    rcases hEncodes with ⟨rfl, hText, _, hScope⟩
    have hSize := hFits.length_le rfl
    rw [length_code_bytes (length_outerField text scope)]
      at hSize
    have hSmall :
        (documentBytes scope).length ≤ Word.maxLength := by
      omega
    exact
      ⟨length_outerField text scope, hText,
        Document.isDocument_of_encodes hScope hSmall⟩
| .array array, .array fields, hEncodes, hFits =>
    ArrayDoc.isDocument_of_encodes hEncodes
      (hFits.length_le rfl)
| .document _, .scalar _ _, hEncodes, _ => hEncodes.elim
| .document _, .array _, hEncodes, _ => hEncodes.elim
| .array _, .scalar _ _, hEncodes, _ => hEncodes.elim
| .array _, .document _, hEncodes, _ => hEncodes.elim
| .array _, .code _ _ _, hEncodes, _ => hEncodes.elim

theorem Document.isDocument_of_encodes :
    ∀ {doc : Document} {fields : List ParseField},
      doc.Encodes fields →
      (documentBytes fields).length ≤ Word.maxLength →
      IsDocument fields
| ⟨_⟩, _, hEncodes, hSize =>
    ⟨bodyWellFormed_of_elements hEncodes
      (bodyFits_of_document hSize), hSize⟩

theorem ArrayDoc.isDocument_of_encodes :
    ∀ {array : ArrayDoc} {fields : List ParseField},
      array.Encodes fields →
      (documentBytes fields).length ≤ Word.maxLength →
      IsDocument fields
| ⟨_⟩, _, hEncodes, hSize =>
    ⟨bodyWellFormed_of_values hEncodes
      (bodyFits_of_document hSize), hSize⟩

theorem bodyWellFormed_of_elements :
    ∀ {elements : List Element} {fields : List ParseField},
      elementsEncode elements fields → BodyFits fields →
      BodyWellFormed fields
| [], [], _, _ => trivial
| ⟨value⟩ :: rest, ⟨key, tree⟩ :: fields,
    ⟨hKey, hTree, hFields⟩, hFits => by
    rcases bodyFits_cons.mp hFits with ⟨hFirst, hRest⟩
    exact
      ⟨(Place.keyBytes?_eq_some.mp hKey).2.2,
        Value.wellFormed_of_encodes hTree hFirst,
        bodyWellFormed_of_elements hFields hRest⟩
| [], ⟨_, _⟩ :: _, hEncode, _ => hEncode.elim
| ⟨_⟩ :: _, [], hEncode, _ => hEncode.elim

theorem bodyWellFormed_of_values
    {index : Nat} :
    ∀ {elements : List Element} {fields : List ParseField},
      valuesEncode index elements fields →
      BodyFits fields → BodyWellFormed fields
| [], [], _, _ => trivial
| ⟨value⟩ :: rest, ⟨key, tree⟩ :: fields,
    ⟨hKey, _, hTree, hFields⟩, hFits => by
    rcases bodyFits_cons.mp hFits with ⟨hFirst, hRest⟩
    exact
      ⟨hKey ▸ Index.zero_notMem_digits index,
        Value.wellFormed_of_encodes hTree hFirst,
        bodyWellFormed_of_values hFields hRest⟩
| [], ⟨_, _⟩ :: _, hEncode, _ => hEncode.elim
| ⟨_⟩ :: _, [], hEncode, _ => hEncode.elim

end

end BsonView
