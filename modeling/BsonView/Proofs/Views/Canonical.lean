import BsonView.Proofs.Views.Content

/-
  Canonical encodings.

  A tree is canonical when the keys of its arrays are their
  indices and the outer lengths of its codes with scope
  agree with what is in them, at every depth. What a view
  says has one canonical tree, and each canonical tree is
  the one of what it says.

  Main declarations:
    * `Grammar.ParseTree.Canonical`
    * `Grammar.BodyCanonical`
    * `Content.canonical`
    * `canonicalFields`
    * `canonicalFields_canonical`
    * `members_canonicalFields`
    * `Grammar.BodyCanonical.eq_canonicalFields`
-/

------------------------------------------------------------
-- Canonical Trees
------------------------------------------------------------

namespace BsonView

namespace Grammar

mutual

/-
  In a payload the keys of arrays are their indices and the
  outer lengths of codes with scope agree.
-/
def ParseTree.Canonical : ParseTree → Prop
| .scalar _ _ => True
| .document fields => BodyCanonical fields
| .array fields => ItemsCanonical 0 fields
| .code outer text scope =>
    outer = outerField text scope ∧ BodyCanonical scope

/- So it is in the payloads of elements. -/
def BodyCanonical : List ParseField → Prop
| [] => True
| ⟨_, tree⟩ :: rest => tree.Canonical ∧ BodyCanonical rest

/-
  So it is in the values of an array, and their keys are
  their indices, from a position on.
-/
def ItemsCanonical
    (index : Nat) : List ParseField → Prop
| [] => True
| ⟨key, tree⟩ :: rest =>
    key = Index.digits index ∧ tree.Canonical ∧
      ItemsCanonical (index + 1) rest

end

/- The outer length of a canonical payload agrees. -/
theorem ParseTree.Canonical.agreeing_eq
    {tree : ParseTree}
    (hTree : tree.Canonical) :
    tree.agreeing = tree := by
  cases tree with
  | code outer text scope =>
      rw [ParseTree.agreeing, hTree.1]
  | _ => rfl

end Grammar

end BsonView

------------------------------------------------------------
-- Canonical Trees Of Contents
------------------------------------------------------------

namespace BsonView

open Grammar

mutual

/- The canonical payload that says so. -/
def Content.canonical : Content → ParseTree
| .scalar tag bytes => .scalar tag bytes
| .document members => .document (canonicalFields members)
| .array items => .array (canonicalItems 0 items)
| .code text scope =>
    .code (outerField text (canonicalFields scope)) text
      (canonicalFields scope)

/- The canonical elements that say so. -/
def canonicalFields : List Member → List ParseField
| [] => []
| ⟨key, content⟩ :: rest =>
    ⟨key, content.canonical⟩ :: canonicalFields rest

/- The canonical values that say so, from a position on. -/
def canonicalItems
    (index : Nat) : List Content → List ParseField
| [] => []
| content :: rest =>
    ⟨Index.digits index, content.canonical⟩ ::
      canonicalItems (index + 1) rest

end

mutual

/- The canonical payload of a content is canonical. -/
theorem Content.canonical_canonical :
    ∀ content : Content, content.canonical.Canonical
| .scalar _ _ => trivial
| .document members => canonicalFields_canonical members
| .array items => canonicalItems_canonical 0 items
| .code _ scope => ⟨rfl, canonicalFields_canonical scope⟩

theorem canonicalFields_canonical :
    ∀ members : List Member,
      BodyCanonical (canonicalFields members)
| [] => trivial
| ⟨_, content⟩ :: rest =>
    ⟨content.canonical_canonical,
      canonicalFields_canonical rest⟩

theorem canonicalItems_canonical
    (index : Nat) :
    ∀ items : List Content,
      ItemsCanonical index (canonicalItems index items)
| [] => trivial
| content :: rest =>
    ⟨rfl, content.canonical_canonical,
      canonicalItems_canonical (index + 1) rest⟩

end

mutual

/- The canonical payload of a content says that. -/
theorem Content.content_canonical :
    ∀ content : Content,
      content.canonical.content = content
| .scalar _ _ => rfl
| .document found => by
    rw [Content.canonical, ParseTree.content,
      members_canonicalFields found]
| .array found => by
    rw [Content.canonical, ParseTree.content,
      items_canonicalItems 0 found]
| .code _ scope => by
    rw [Content.canonical, ParseTree.content,
      members_canonicalFields scope]

theorem members_canonicalFields :
    ∀ found : List Member,
      members (canonicalFields found) = found
| [] => rfl
| ⟨_, content⟩ :: rest => by
    rw [canonicalFields, members, content.content_canonical,
      members_canonicalFields rest]

theorem items_canonicalItems
    (index : Nat) :
    ∀ found : List Content,
      items (canonicalItems index found) = found
| [] => rfl
| content :: rest => by
    rw [canonicalItems, items, content.content_canonical,
      items_canonicalItems (index + 1) rest]

end

mutual

/- A canonical payload is the one of what it says. -/
theorem Grammar.ParseTree.Canonical.eq_canonical :
    ∀ {tree : ParseTree},
      tree.Canonical → tree.content.canonical = tree
| .scalar _ _, _ => rfl
| .document _, hFields => by
    rw [ParseTree.content, Content.canonical,
      BodyCanonical.eq_canonicalFields hFields]
| .array _, hFields => by
    rw [ParseTree.content, Content.canonical,
      ItemsCanonical.eq_canonicalItems hFields]
| .code _ _ _, ⟨hOuter, hScope⟩ => by
    rw [ParseTree.content, Content.canonical,
      BodyCanonical.eq_canonicalFields hScope, hOuter]

theorem Grammar.BodyCanonical.eq_canonicalFields :
    ∀ {fields : List ParseField},
      BodyCanonical fields →
      canonicalFields (members fields) = fields
| [], _ => rfl
| ⟨_, _⟩ :: _, ⟨hTree, hRest⟩ => by
    rw [members, canonicalFields,
      ParseTree.Canonical.eq_canonical hTree,
      BodyCanonical.eq_canonicalFields hRest]

theorem Grammar.ItemsCanonical.eq_canonicalItems
    {index : Nat} :
    ∀ {fields : List ParseField},
      ItemsCanonical index fields →
      canonicalItems index (items fields) = fields
| [], _ => rfl
| ⟨_, _⟩ :: _, ⟨hKey, hTree, hRest⟩ => by
    rw [items, canonicalItems,
      ParseTree.Canonical.eq_canonical hTree,
      ItemsCanonical.eq_canonicalItems hRest, hKey]

end

mutual

/- Documents nest as deep in the canonical payload. -/
theorem Grammar.ParseTree.height_canonical :
    ∀ tree : ParseTree,
      tree.content.canonical.height = tree.height
| .scalar _ _ => rfl
| .document fields => by
    rw [ParseTree.content, Content.canonical,
      ParseTree.height, ParseTree.height,
      bodyHeight_canonicalFields fields]
| .array fields => by
    rw [ParseTree.content, Content.canonical,
      ParseTree.height, ParseTree.height,
      bodyHeight_canonicalItems 0 fields]
| .code _ _ scope => by
    rw [ParseTree.content, Content.canonical,
      ParseTree.height, ParseTree.height,
      bodyHeight_canonicalFields scope]

theorem bodyHeight_canonicalFields :
    ∀ fields : List ParseField,
      bodyHeight (canonicalFields (members fields)) =
        bodyHeight fields
| [] => rfl
| ⟨_, tree⟩ :: rest => by
    rw [members, canonicalFields, bodyHeight, bodyHeight,
      tree.height_canonical,
      bodyHeight_canonicalFields rest]

theorem bodyHeight_canonicalItems
    (index : Nat) :
    ∀ fields : List ParseField,
      bodyHeight (canonicalItems index (items fields)) =
        bodyHeight fields
| [] => rfl
| ⟨_, tree⟩ :: rest => by
    rw [items, canonicalItems, bodyHeight, bodyHeight,
      tree.height_canonical,
      bodyHeight_canonicalItems (index + 1) rest]

end

end BsonView
