import BsonView.Proofs.Views.Encoding

/-
  What views hold.

  The content of a view is what it says, however it is held:
  scalars as their bytes, documents with their keys in
  order, arrays without keys, and codes with scope without
  their outer length. It is found in an opened container
  where there is one and in the buffer elsewhere.

  Main declarations:
    * `Content`
    * `Member`
    * `Grammar.ParseTree.content`
    * `Value.Holds`
    * `Element.Holds`
    * `Document.Holds`
    * `ArrayDoc.Holds`
    * `Document.holds_unique`
    * `Document.holds_of_encodes`
-/

------------------------------------------------------------
-- Contents
------------------------------------------------------------

namespace BsonView

mutual

/- What a value says. -/
inductive Content
| scalar (tag : Tag) (bytes : Bytes)
| document (members : List Member)
| array (items : List Content)
| code (text : Bytes) (scope : List Member)

/- What an element says. -/
structure Member where
  key : Bytes
  content : Content

end

/- The type of what a value says. -/
def Content.tag : Content → Tag
| .scalar tag _ => tag
| .document _ => .embeddedDocument
| .array _ => .array
| .code _ _ => .codeWithScope

namespace Grammar

mutual

/- What a payload says. -/
def ParseTree.content : ParseTree → Content
| .scalar tag bytes => .scalar tag bytes
| .document fields => .document (members fields)
| .array fields => .array (items fields)
| .code _ text scope => .code text (members scope)

/- What the elements of a document say. -/
def members : List ParseField → List Member
| [] => []
| ⟨key, tree⟩ :: rest =>
    ⟨key, tree.content⟩ :: members rest

/- What the values of an array say. -/
def items : List ParseField → List Content
| [] => []
| ⟨_, tree⟩ :: rest => tree.content :: items rest

end

/- The values of an array say what they do in a document. -/
theorem content_members
    (fields : List ParseField) :
    (members fields).map Member.content = items fields := by
  induction fields with
  | nil => rfl
  | cons field rest ih =>
      rcases field with ⟨key, tree⟩
      rw [members, items, List.map_cons, ih]

@[simp] theorem ParseTree.tag_content
    (tree : ParseTree) :
    tree.content.tag = tree.tag := by
  cases tree <;> rfl

@[simp] theorem ParseTree.content_agreeing
    (tree : ParseTree) :
    tree.agreeing.content = tree.content := by
  cases tree <;> rfl

end Grammar

end BsonView

------------------------------------------------------------
-- Contents Of Views
------------------------------------------------------------

namespace BsonView

open Grammar

mutual

/- What a value says, which is of its own type. -/
def Value.Holds : Value → Content → Prop
| ⟨place, payload⟩, content =>
    place.tag = .ok content.tag ∧
      payload.Holds place.rest content

/-
  A payload says what stands in the buffer, or what its
  opened container does. The buffer has `rest` from there
  on.
-/
def Payload.Holds
    (rest : Bytes) :
    Payload → Content → Prop
| .raw, content =>
    ∃ tree : ParseTree, tree.WellFormed ∧
      tree.bytes <+: rest ∧ content = tree.content
| .document doc, .document members => doc.Holds members
| .document doc, .code text scope =>
    text.length + 1 ≤ Word.maxLength ∧
      stringForm text <+: rest.drop 4 ∧ doc.Holds scope
| .array array, .array items => array.Holds items
| _, _ => False

/- A document says what its elements do. -/
def Document.Holds : Document → List Member → Prop
| ⟨elements⟩, members => elementsHold elements members

/- An array says what its values do. -/
def ArrayDoc.Holds : ArrayDoc → List Content → Prop
| ⟨elements⟩, items => valuesHold elements items

/- Elements say what their values do, under their keys. -/
def elementsHold : List Element → List Member → Prop
| [], [] => True
| ⟨value⟩ :: rest, ⟨key, content⟩ :: members =>
    value.keyBytes? = some key ∧ value.Holds content ∧
      elementsHold rest members
| _, _ => False

/- Values say what they do, whatever their keys. -/
def valuesHold : List Element → List Content → Prop
| [], [] => True
| ⟨value⟩ :: rest, content :: items =>
    value.Holds content ∧ valuesHold rest items
| _, _ => False

end

/- A value says something of its own type. -/
theorem Value.tag_of_holds
    {value : Value}
    {content : Content}
    (hHolds : value.Holds content) :
    value.tag = .ok content.tag := by
  rcases value with ⟨place, payload⟩
  exact hHolds.1

/- An element says what its value does, under its key. -/
def Element.Holds
    (element : Element)
    (member : Member) : Prop :=
  element.value.keyBytes? = some member.key ∧
    element.value.Holds member.content

/- Elements taken as values lose their keys. -/
theorem valuesHold_of_elements :
    ∀ {elements : List Element} {members : List Member},
      elementsHold elements members →
      valuesHold elements (members.map Member.content)
| [], [], _ => trivial
| ⟨_⟩ :: _, ⟨_, _⟩ :: _, ⟨_, hContent, hMembers⟩ =>
    ⟨hContent, valuesHold_of_elements hMembers⟩
| [], ⟨_, _⟩ :: _, hHold => hHold.elim
| ⟨_⟩ :: _, [], hHold => hHold.elim

end BsonView

------------------------------------------------------------
-- One Content For A View
------------------------------------------------------------

namespace BsonView

open Grammar

mutual

/- A value says one thing at most. -/
theorem Value.holds_unique :
    ∀ {value : Value} {a b : Content},
      value.Holds a → value.Holds b → a = b
| ⟨place, payload⟩, a, b, ⟨hTagA, hA⟩, ⟨hTagB, hB⟩ => by
    rw [hTagA] at hTagB
    exact Payload.holds_unique (Except.ok.inj hTagB) hA hB

theorem Payload.holds_unique
    {rest : Bytes} :
    ∀ {payload : Payload} {a b : Content},
      a.tag = b.tag →
      payload.Holds rest a → payload.Holds rest b → a = b
| .raw, a, b, hTag, hA, hB => by
    rcases hA with ⟨treeA, hTreeA, hFrontA, rfl⟩
    rcases hB with ⟨treeB, hTreeB, hFrontB, rfl⟩
    rw [ParseTree.tag_content, ParseTree.tag_content]
      at hTag
    rw [ParseTree.eq_of_fronts hTreeA hTreeB hTag hFrontA
      hFrontB]
| .document doc, .document a, .document b, _, hA, hB => by
    rw [Document.holds_unique hA hB]
| .document doc, .code textA a, .code textB b, _, hA,
    hB => by
    rcases hA with ⟨hTextA, hStringA, hScopeA⟩
    rcases hB with ⟨hTextB, hStringB, hScopeB⟩
    rw [Document.holds_unique hScopeA hScopeB,
      text_eq_of_fronts hTextA hTextB hStringA hStringB]
| .array array, .array a, .array b, _, hA, hB => by
    rw [ArrayDoc.holds_unique hA hB]
| .document _, .document _, .code _ _, hTag, _, _ => by
    cases hTag
| .document _, .code _ _, .document _, hTag, _, _ => by
    cases hTag
| .document _, .scalar _ _, _, _, hA, _ => hA.elim
| .document _, .array _, _, _, hA, _ => hA.elim
| .document _, _, .scalar _ _, _, _, hB => hB.elim
| .document _, _, .array _, _, _, hB => hB.elim
| .array _, .scalar _ _, _, _, hA, _ => hA.elim
| .array _, .document _, _, _, hA, _ => hA.elim
| .array _, .code _ _, _, _, hA, _ => hA.elim
| .array _, _, .scalar _ _, _, _, hB => hB.elim
| .array _, _, .document _, _, _, hB => hB.elim
| .array _, _, .code _ _, _, _, hB => hB.elim

theorem Document.holds_unique :
    ∀ {doc : Document} {a b : List Member},
      doc.Holds a → doc.Holds b → a = b
| ⟨_⟩, _, _, hA, hB => elementsHold_unique hA hB

theorem ArrayDoc.holds_unique :
    ∀ {array : ArrayDoc} {a b : List Content},
      array.Holds a → array.Holds b → a = b
| ⟨_⟩, _, _, hA, hB => valuesHold_unique hA hB

theorem elementsHold_unique :
    ∀ {elements : List Element} {a b : List Member},
      elementsHold elements a → elementsHold elements b →
      a = b
| [], [], [], _, _ => rfl
| ⟨value⟩ :: rest, ⟨keyA, contentA⟩ :: a,
    ⟨keyB, contentB⟩ :: b, ⟨hKeyA, hContentA, hA⟩,
    ⟨hKeyB, hContentB, hB⟩ => by
    rw [hKeyA] at hKeyB
    rw [Option.some.inj hKeyB,
      Value.holds_unique hContentA hContentB,
      elementsHold_unique hA hB]
| [], ⟨_, _⟩ :: _, _, hA, _ => hA.elim
| [], _, ⟨_, _⟩ :: _, _, hB => hB.elim
| ⟨_⟩ :: _, [], _, hA, _ => hA.elim
| ⟨_⟩ :: _, _, [], _, hB => hB.elim

theorem valuesHold_unique :
    ∀ {elements : List Element} {a b : List Content},
      valuesHold elements a → valuesHold elements b → a = b
| [], [], [], _, _ => rfl
| ⟨value⟩ :: rest, contentA :: a, contentB :: b,
    ⟨hContentA, hA⟩, ⟨hContentB, hB⟩ => by
    rw [Value.holds_unique hContentA hContentB,
      valuesHold_unique hA hB]
| [], _ :: _, _, hA, _ => hA.elim
| [], _, _ :: _, _, hB => hB.elim
| ⟨_⟩ :: _, [], _, hA, _ => hA.elim
| ⟨_⟩ :: _, _, [], _, hB => hB.elim

end

end BsonView

------------------------------------------------------------
-- The Content Of A View
------------------------------------------------------------

namespace BsonView

/- What an element holds is all that it holds. -/
theorem Element.holds_iff
    {element : Element}
    {member : Member}
    (hHolds : element.Holds member)
    (held : Member) :
    element.Holds held ↔ held = member := by
  constructor
  · intro hHeld
    rcases held with ⟨key, content⟩
    rcases member with ⟨own, said⟩
    rcases hHeld with ⟨hKey, hContent⟩
    rcases hHolds with ⟨hOwn, hSaid⟩
    have hSame : key = own :=
      Option.some.inj (hKey.symm.trans hOwn)
    have hOne : content = said :=
      Value.holds_unique hContent hSaid
    rw [hSame, hOne]
  · rintro rfl
    exact hHolds

/- What a document holds is all that it holds. -/
theorem Document.holds_iff
    {doc : Document}
    {members : List Member}
    (hHolds : doc.Holds members)
    (held : List Member) :
    doc.Holds held ↔ held = members := by
  constructor
  · intro hHeld
    exact Document.holds_unique hHeld hHolds
  · rintro rfl
    exact hHolds

/- What an array holds is all that it holds. -/
theorem ArrayDoc.holds_iff
    {array : ArrayDoc}
    {items : List Content}
    (hHolds : array.Holds items)
    (held : List Content) :
    array.Holds held ↔ held = items := by
  constructor
  · intro hHeld
    exact ArrayDoc.holds_unique hHeld hHolds
  · rintro rfl
    exact hHolds

end BsonView

------------------------------------------------------------
-- Contents Of Encodings
------------------------------------------------------------

namespace BsonView

open Grammar

mutual

/- A value says what the tree does that it encodes. -/
theorem Value.holds_of_encodes :
    ∀ {value : Value} {tree : ParseTree},
      value.Encodes tree → value.Holds tree.content
| ⟨place, payload⟩, tree, ⟨hTag, hPayload⟩ => by
    constructor
    · rw [ParseTree.tag_content]
      exact hTag
    · exact Payload.holds_of_encodes hPayload

theorem Payload.holds_of_encodes
    {rest : Bytes} :
    ∀ {payload : Payload} {tree : ParseTree},
      payload.Encodes rest tree →
      payload.Holds rest tree.content
| .raw, _, hEncodes => by
    rcases hEncodes with ⟨found, hFound, hPrefix, rfl⟩
    exact
      ⟨found, hFound, hPrefix,
        ParseTree.content_agreeing found⟩
| .document doc, .document fields, hEncodes =>
    Document.holds_of_encodes hEncodes
| .document doc, .code outer text scope,
    ⟨_, hText, hString, hScope⟩ =>
    ⟨hText, hString, Document.holds_of_encodes hScope⟩
| .array array, .array fields, hEncodes =>
    ArrayDoc.holds_of_encodes hEncodes
| .document _, .scalar _ _, hEncodes => hEncodes.elim
| .document _, .array _, hEncodes => hEncodes.elim
| .array _, .scalar _ _, hEncodes => hEncodes.elim
| .array _, .document _, hEncodes => hEncodes.elim
| .array _, .code _ _ _, hEncodes => hEncodes.elim

/- A document says what the elements do that it encodes. -/
theorem Document.holds_of_encodes :
    ∀ {doc : Document} {fields : List ParseField},
      doc.Encodes fields → doc.Holds (members fields)
| ⟨_⟩, _, hEncodes => elementsHold_of_encode hEncodes

/- An array says what the values do that it encodes. -/
theorem ArrayDoc.holds_of_encodes :
    ∀ {array : ArrayDoc} {fields : List ParseField},
      array.Encodes fields → array.Holds (items fields)
| ⟨_⟩, _, hEncodes => valuesHold_of_encode hEncodes

theorem elementsHold_of_encode :
    ∀ {elements : List Element} {fields : List ParseField},
      elementsEncode elements fields →
      elementsHold elements (members fields)
| [], [], _ => trivial
| ⟨_⟩ :: _, ⟨_, _⟩ :: _, ⟨hKey, hTree, hFields⟩ =>
    ⟨hKey, Value.holds_of_encodes hTree,
      elementsHold_of_encode hFields⟩
| [], ⟨_, _⟩ :: _, hEncode => hEncode.elim
| ⟨_⟩ :: _, [], hEncode => hEncode.elim

theorem valuesHold_of_encode
    {index : Nat} :
    ∀ {elements : List Element} {fields : List ParseField},
      valuesEncode index elements fields →
      valuesHold elements (items fields)
| [], [], _ => trivial
| ⟨_⟩ :: _, ⟨_, _⟩ :: _, ⟨_, _, hTree, hFields⟩ =>
    ⟨Value.holds_of_encodes hTree,
      valuesHold_of_encode hFields⟩
| [], ⟨_, _⟩ :: _, hEncode => hEncode.elim
| ⟨_⟩ :: _, [], hEncode => hEncode.elim

end

end BsonView
