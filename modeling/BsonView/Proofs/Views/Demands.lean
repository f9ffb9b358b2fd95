import BsonView.Proofs.Views.Content

/-
  Demands on the parts of a content.

  A demand says what scalars, keys and codes have to be. A
  content meets it when all of its parts do, at every depth.
  Keys in arrays are no part of a content, so nothing can be
  demanded of them. Whatever a view says meets the demand of
  the format.

  Main declarations:
    * `Demand`
    * `Content.Meets`
    * `Demand.format`
    * `Content.Meets.weaken`
    * `Document.meets_format_of_holds`
-/

------------------------------------------------------------
-- Demands
------------------------------------------------------------

namespace BsonView

/-
  What scalars of a type, keys in documents and codes have
  to be. Nothing is demanded unless it is said.
-/
structure Demand where
  scalar : Tag → Bytes → Prop := fun _ _ => True
  key : Bytes → Prop := fun _ => True
  code : Bytes → Prop := fun _ => True

mutual

/- All parts of a content are as demanded. -/
def Content.Meets
    (demand : Demand) : Content → Prop
| .scalar tag bytes => demand.scalar tag bytes
| .document members => membersMeet demand members
| .array items => itemsMeet demand items
| .code text scope =>
    demand.code text ∧ membersMeet demand scope

/- The elements have keys and contents as demanded. -/
def membersMeet
    (demand : Demand) : List Member → Prop
| [] => True
| ⟨key, content⟩ :: rest =>
    demand.key key ∧ content.Meets demand ∧
      membersMeet demand rest

/- The values have contents as demanded. -/
def itemsMeet
    (demand : Demand) : List Content → Prop
| [] => True
| content :: rest =>
    content.Meets demand ∧ itemsMeet demand rest

end

/- What is demanded is also demanded by the other. -/
structure Demand.Implies
    (strict loose : Demand) : Prop where
  scalar :
    ∀ {tag bytes},
      strict.scalar tag bytes → loose.scalar tag bytes
  key : ∀ {key}, strict.key key → loose.key key
  code : ∀ {text}, strict.code text → loose.code text

mutual

/- A content that meets a demand meets what it implies. -/
theorem Content.Meets.weaken
    {strict loose : Demand}
    (hImplies : strict.Implies loose) :
    ∀ {content : Content},
      content.Meets strict → content.Meets loose
| .scalar _ _, hMeets => hImplies.scalar hMeets
| .document _, hMeets => membersMeet_weaken hImplies hMeets
| .array _, hMeets => itemsMeet_weaken hImplies hMeets
| .code _ _, ⟨hText, hScope⟩ =>
    ⟨hImplies.code hText,
      membersMeet_weaken hImplies hScope⟩

theorem membersMeet_weaken
    {strict loose : Demand}
    (hImplies : strict.Implies loose) :
    ∀ {said : List Member},
      membersMeet strict said → membersMeet loose said
| [], _ => trivial
| ⟨_, _⟩ :: _, ⟨hKey, hContent, hRest⟩ =>
    ⟨hImplies.key hKey, hContent.weaken hImplies,
      membersMeet_weaken hImplies hRest⟩

theorem itemsMeet_weaken
    {strict loose : Demand}
    (hImplies : strict.Implies loose) :
    ∀ {said : List Content},
      itemsMeet strict said → itemsMeet loose said
| [], _ => trivial
| _ :: _, ⟨hContent, hRest⟩ =>
    ⟨hContent.weaken hImplies,
      itemsMeet_weaken hImplies hRest⟩

end

end BsonView

------------------------------------------------------------
-- The Demand Of The Format
------------------------------------------------------------

namespace BsonView

open Grammar

/-
  Scalars have the forms of their types, keys hold no null
  byte and codes fit their length fields.
-/
def Demand.format : Demand where
  scalar := ScalarForm
  key := fun key => 0 ∉ key
  code := fun text => text.length + 1 ≤ Word.maxLength

mutual

/- What is of the format says what it demands. -/
theorem Grammar.ParseTree.meets_format :
    ∀ {tree : ParseTree},
      tree.WellFormed → tree.content.Meets .format
| .scalar _ _, hTree => hTree
| .document _, hTree => members_meet_format hTree.1
| .array _, hTree => items_meet_format hTree.1
| .code _ _ _, ⟨_, hText, hScope, _⟩ =>
    ⟨hText, members_meet_format hScope⟩

theorem Grammar.members_meet_format :
    ∀ {fields : List ParseField},
      BodyWellFormed fields →
      membersMeet .format (members fields)
| [], _ => trivial
| ⟨_, _⟩ :: _, ⟨hKey, hTree, hRest⟩ =>
    ⟨hKey, ParseTree.meets_format hTree,
      members_meet_format hRest⟩

theorem Grammar.items_meet_format :
    ∀ {fields : List ParseField},
      BodyWellFormed fields →
      itemsMeet .format (items fields)
| [], _ => trivial
| ⟨_, _⟩ :: _, ⟨_, hTree, hRest⟩ =>
    ⟨ParseTree.meets_format hTree,
      items_meet_format hRest⟩

end

mutual

/- What a value says is as the format demands. -/
theorem Value.meets_format_of_holds :
    ∀ {value : Value} {content : Content},
      value.Holds content → content.Meets .format
| ⟨_, _⟩, _, ⟨_, hPayload⟩ =>
    Payload.meets_format_of_holds hPayload

theorem Payload.meets_format_of_holds
    {rest : Bytes} :
    ∀ {payload : Payload} {content : Content},
      payload.Holds rest content → content.Meets .format
| .raw, _, ⟨_, hTree, _, hContent⟩ => by
    rw [hContent]
    exact ParseTree.meets_format hTree
| .document _, .document _, hHolds =>
    Document.meets_format_of_holds hHolds
| .document _, .code _ _, ⟨hText, _, hScope⟩ =>
    ⟨hText, Document.meets_format_of_holds hScope⟩
| .array _, .array _, hHolds =>
    ArrayDoc.meets_format_of_holds hHolds
| .document _, .scalar _ _, hHolds => hHolds.elim
| .document _, .array _, hHolds => hHolds.elim
| .array _, .scalar _ _, hHolds => hHolds.elim
| .array _, .document _, hHolds => hHolds.elim
| .array _, .code _ _, hHolds => hHolds.elim

/- What a document says is as the format demands. -/
theorem Document.meets_format_of_holds :
    ∀ {doc : Document} {said : List Member},
      doc.Holds said → membersMeet .format said
| ⟨_⟩, _, hHolds => elements_meet_format hHolds

/- What an array says is as the format demands. -/
theorem ArrayDoc.meets_format_of_holds :
    ∀ {array : ArrayDoc} {said : List Content},
      array.Holds said → itemsMeet .format said
| ⟨_⟩, _, hHolds => values_meet_format hHolds

theorem elements_meet_format :
    ∀ {elements : List Element} {said : List Member},
      elementsHold elements said →
      membersMeet .format said
| [], [], _ => trivial
| ⟨_⟩ :: _, ⟨_, _⟩ :: _, ⟨hKey, hContent, hRest⟩ =>
    ⟨(Place.keyBytes?_eq_some.mp hKey).2.2,
      Value.meets_format_of_holds hContent,
      elements_meet_format hRest⟩
| [], ⟨_, _⟩ :: _, hHold => hHold.elim
| ⟨_⟩ :: _, [], hHold => hHold.elim

theorem values_meet_format :
    ∀ {elements : List Element} {said : List Content},
      valuesHold elements said → itemsMeet .format said
| [], [], _ => trivial
| ⟨_⟩ :: _, _ :: _, ⟨hContent, hRest⟩ =>
    ⟨Value.meets_format_of_holds hContent,
      values_meet_format hRest⟩
| [], _ :: _, hHold => hHold.elim
| ⟨_⟩ :: _, [], hHold => hHold.elim

end

end BsonView
