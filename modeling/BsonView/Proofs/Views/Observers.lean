import BsonView.Datum
import BsonView.Display
import BsonView.Equality
import BsonView.Opening
import BsonView.Proofs.Reading.Containers
import BsonView.Proofs.Reading.Scalars
import BsonView.Proofs.Views.Content
import BsonView.Proofs.Views.Measuring

/-
  What readers see of a content.

  A snapshot is determined by what the value says: it is the
  same whether containers are opened or not, and wherever
  the bytes stand. Texts, data trees and comparisons follow
  snapshots, so none of them tells apart views that say the
  same.

  Main declarations:
    * `Content.snapshot`
    * `Value.snapshot_of_shows`
    * `Value.snapshot_of_holds`
    * `Document.entries_of_holds`
    * `ArrayDoc.snapshots_of_holds`
    * `Document.read_alike`
    * `observers_follow_content`
-/

------------------------------------------------------------
-- Snapshots Of Contents
------------------------------------------------------------

namespace BsonView

mutual

/-
  What is seen of a content. Code that is not a text cannot
  be read; its scope is not looked at then.
-/
def Content.snapshot : Content → Snapshot
| .scalar tag bytes =>
    match tag.layout with
    | .scalar read => .scalar tag (read bytes) (.ok bytes)
    | _ => .blank
| .document members => .document (memberEntries members)
| .array items => .array (itemSnapshots items)
| .code text scope =>
    match Bytes.text text with
    | .ok code => .code code (memberEntries scope)
    | .error error => .unreadable .codeWithScope error

/- What is seen of elements that say so. -/
def memberEntries : List Member → List Entry
| [] => []
| ⟨key, content⟩ :: rest =>
    ⟨key.text?, content.snapshot⟩ :: memberEntries rest

/- What is seen of values that say so. -/
def itemSnapshots : List Content → List Snapshot
| [] => []
| content :: rest =>
    content.snapshot :: itemSnapshots rest

end

/- Of elements taken as values no keys are seen. -/
theorem itemSnapshots_map
    (members : List Member) :
    itemSnapshots (members.map Member.content) =
      (memberEntries members).map Entry.value := by
  induction members with
  | nil => rfl
  | cons member rest ih =>
      rcases member with ⟨key, content⟩
      rw [List.map_cons, itemSnapshots, memberEntries,
        List.map_cons, ih]

end BsonView

------------------------------------------------------------
-- Values In Buffers
------------------------------------------------------------

namespace BsonView

open Grammar

/- The types of scalars have readers. -/
theorem Tag.exists_layout_of_isScalar
    {tag : Tag}
    (hScalar : tag.isScalar = true) :
    ∃ read, tag.layout = .scalar read := by
  cases tag <;> simp [isScalar] at hScalar <;>
    exact ⟨_, rfl⟩

/- The payload of a scalar is the form that it begins with. -/
theorem Place.payloadBytes_of_scalarForm
    {place : Place}
    {tag : Tag}
    {form : Bytes}
    (hTag : place.tag = .ok tag)
    (hForm : ScalarForm tag form)
    (hFront : form <+: place.rest) :
    place.payloadBytes = .ok form := by
  have hLength :=
    Framing.payloadLength_of_scalarLength
      (hForm.scalarLength hFront)
  rw [payloadBytes_eq hTag hLength,
    ← List.prefix_iff_eq_take.mp hFront]

/- A scalar is seen in its own bytes. -/
theorem Value.snapshot_of_scalarForm
    {value : Value}
    {tag : Tag}
    {form : Bytes}
    (hTag : value.tag = .ok tag)
    (hForm : ScalarForm tag form)
    (hFront : form <+: value.rest) :
    value.snapshot = (Content.scalar tag form).snapshot := by
  rcases Tag.exists_layout_of_isScalar hForm.isScalar with
    ⟨read, hLayout⟩
  have hOwn :=
    Framing.payloadLength_of_scalarLength
      (hForm.scalarLength (List.prefix_refl form))
  have hBytes :=
    Place.payloadBytes_of_scalarForm hTag hForm hFront
  rw [snapshot_of_scalar hTag hLayout, hBytes,
    Tag.read_of_front hLayout hFront hOwn,
    Content.snapshot, hLayout]

/-
  Code is seen as its text, and its scope with it, if it is
  a text.
-/
theorem Value.snapshot_of_openScope
    {value : Value}
    {text : Bytes}
    {scope : Document}
    {said : List Member}
    (hOpen : value.openScope = .ok scope)
    (hTag : value.tag = .ok .codeWithScope)
    (hText : text.length + 1 ≤ Word.maxLength)
    (hString : stringForm text <+: value.rest.drop 4)
    (hEntries : scope.entries = memberEntries said) :
    value.snapshot = (Content.code text said).snapshot := by
  have hCode : value.code = Bytes.text text :=
    Scalar.readString_of_form hText hString
  have hBoth := asCodeWithScope_of_openScope hOpen
  rw [hCode] at hBoth
  rw [Content.snapshot]
  cases hWhole : Bytes.text text with
  | error error =>
      rw [hWhole] at hBoth
      exact snapshot_of_asCodeWithScope_error hTag hBoth
  | ok code =>
      rw [hWhole] at hBoth
      rw [snapshot_of_asCodeWithScope hTag hBoth, hEntries]

/- The key of an element is seen as a text, if it is one. -/
theorem Element.entry_of_key
    {value : Value}
    {key : Bytes}
    (hKey : value.keyBytes? = some key) :
    (⟨value⟩ : Element).entry =
      ⟨key.text?, value.snapshot⟩ := by
  rw [entry, key?, hKey]
  rfl

mutual

/- What a value shows is seen in it. -/
theorem Value.snapshot_of_shows :
    ∀ {tree : ParseTree} {value : Value},
      value.Shows tree →
      value.snapshot = tree.content.snapshot
| .scalar _ _, _, hShows =>
    Value.snapshot_of_scalarForm hShows.tag_eq
      hShows.wellFormed hShows.front
| .document fields, value, hShows => by
    rcases hShows.openDocument with ⟨doc, hOpen, hShow⟩
    rw [Value.snapshot_of_asDocument hShows.tag_eq
        (Value.asDocument_of_openDocument hOpen),
      Document.entries, entries_of_show hShow,
      ParseTree.content, Content.snapshot]
| .array fields, value, hShows => by
    rcases hShows.openArray with ⟨array, hOpen, hShow⟩
    have hValues :=
      congrArg (List.map Entry.value)
        (entries_of_show hShow)
    rw [← itemSnapshots_map, content_members,
      List.map_map] at hValues
    rw [Value.snapshot_of_asArray hShows.tag_eq
        (Value.asArray_of_openArray hOpen),
      ArrayDoc.snapshots, ArrayDoc.values, List.map_map,
      ParseTree.content, Content.snapshot, ← hValues]
    rfl
| .code outer text scope, value, hShows => by
    rcases hShows.openScope with
      ⟨hText, hString, scope, hOpen, hShow⟩
    exact
      Value.snapshot_of_openScope hOpen hShows.tag_eq hText
        hString (entries_of_show hShow)

/- What elements show is seen in them. -/
theorem entries_of_show :
    ∀ {fields : List ParseField} {elements : List Element},
      elementsShow elements fields →
      elements.map Element.entry =
        memberEntries (members fields)
| [], [], _ => rfl
| ⟨key, tree⟩ :: fields, ⟨value⟩ :: rest,
    ⟨hKey, hShows, hMore⟩ => by
    rw [List.map_cons, Element.entry_of_key hKey,
      Value.snapshot_of_shows hShows, entries_of_show hMore]
    rfl
| [], ⟨_⟩ :: _, hShow => hShow.elim
| ⟨_, _⟩ :: _, [], hShow => hShow.elim

end

end BsonView

------------------------------------------------------------
-- Values Of Any Form
------------------------------------------------------------

namespace BsonView

open Grammar

mutual

/- What a value says is seen in it, however it is held. -/
theorem Value.snapshot_of_holds :
    ∀ {value : Value} {content : Content},
      value.Holds content →
      value.snapshot = content.snapshot
| ⟨_, _⟩, _, ⟨hTag, hPayload⟩ =>
    Payload.snapshot_of_holds hTag hPayload

theorem Payload.snapshot_of_holds
    {place : Place} :
    ∀ {payload : Payload} {content : Content},
      place.tag = .ok content.tag →
      payload.Holds place.rest content →
      (⟨place, payload⟩ : Value).snapshot =
        content.snapshot
| .raw, _, hTag, hHolds => by
    rcases hHolds with ⟨tree, hTree, hFront, rfl⟩
    rw [ParseTree.tag_content] at hTag
    exact
      Value.snapshot_of_shows ⟨rfl, hTag, hTree, hFront⟩
| .document doc, .document said, hTag, hHolds => by
    have hOpen :
        (⟨place, .document doc⟩ : Value).openDocument =
          .ok doc := Value.openDocument_of_opened rfl hTag
    rw [Value.snapshot_of_asDocument hTag
        (Value.asDocument_of_openDocument hOpen),
      Document.entries_of_holds hHolds, Content.snapshot]
| .document doc, .code text said, hTag,
    ⟨hText, hString, hScope⟩ => by
    have hOpen :
        (⟨place, .document doc⟩ : Value).openScope =
          .ok doc := Value.openScope_of_opened rfl hTag
    exact
      Value.snapshot_of_openScope hOpen hTag hText hString
        (Document.entries_of_holds hScope)
| .array array, .array said, hTag, hHolds => by
    have hOpen :
        (⟨place, .array array⟩ : Value).openArray =
          .ok array := Value.openArray_of_opened rfl hTag
    rw [Value.snapshot_of_asArray hTag
        (Value.asArray_of_openArray hOpen),
      ArrayDoc.snapshots_of_holds hHolds, Content.snapshot]
| .document _, .scalar _ _, _, hHolds => hHolds.elim
| .document _, .array _, _, hHolds => hHolds.elim
| .array _, .scalar _ _, _, hHolds => hHolds.elim
| .array _, .document _, _, hHolds => hHolds.elim
| .array _, .code _ _, _, hHolds => hHolds.elim

/- What a document says is seen in it. -/
theorem Document.entries_of_holds :
    ∀ {doc : Document} {said : List Member},
      doc.Holds said → doc.entries = memberEntries said
| ⟨_⟩, _, hHolds => entries_of_hold hHolds

/- What an array says is seen in it. -/
theorem ArrayDoc.snapshots_of_holds :
    ∀ {array : ArrayDoc} {said : List Content},
      array.Holds said →
      array.snapshots = itemSnapshots said
| ⟨elements⟩, _, hHolds => by
    rw [ArrayDoc.snapshots, ArrayDoc.values, List.map_map]
    exact snapshots_of_hold hHolds

theorem entries_of_hold :
    ∀ {elements : List Element} {said : List Member},
      elementsHold elements said →
      elements.map Element.entry = memberEntries said
| [], [], _ => rfl
| ⟨value⟩ :: rest, ⟨key, content⟩ :: said,
    ⟨hKey, hContent, hSaid⟩ => by
    rw [List.map_cons, Element.entry_of_key hKey,
      Value.snapshot_of_holds hContent,
      entries_of_hold hSaid, memberEntries]
| [], ⟨_, _⟩ :: _, hHold => hHold.elim
| ⟨_⟩ :: _, [], hHold => hHold.elim

theorem snapshots_of_hold :
    ∀ {elements : List Element} {said : List Content},
      valuesHold elements said →
      elements.map (Value.snapshot ∘ Element.value) =
        itemSnapshots said
| [], [], _ => rfl
| ⟨value⟩ :: rest, content :: said, ⟨hContent, hSaid⟩ => by
    rw [List.map_cons, snapshots_of_hold hSaid,
      itemSnapshots, ← Value.snapshot_of_holds hContent]
    rfl
| [], _ :: _, hHold => hHold.elim
| ⟨_⟩ :: _, [], hHold => hHold.elim

end

end BsonView

------------------------------------------------------------
-- Observers
------------------------------------------------------------

namespace BsonView

open Grammar

variable {limits : Limits} {n : Nat}

/- A valid value says something. -/
theorem Value.exists_holds
    {value : Value}
    (hValid : value.validateWith limits = .ok n) :
    ∃ content, value.Holds content := by
  rcases (Value.measure_eq_ok (Nat.zero_le _)).mp hValid
    with ⟨tree, hTree, _⟩
  exact ⟨tree.content, Value.holds_of_encodes hTree⟩

/- A valid element says something. -/
theorem Element.exists_holds
    {element : Element}
    (hValid : element.validateWith limits = .ok n) :
    ∃ member, element.Holds member := by
  rcases (Element.measure_eq_ok (Nat.zero_le _)).mp hValid
    with ⟨field, hField, _⟩
  exact
    ⟨⟨field.key, field.tree.content⟩, hField.1,
      Value.holds_of_encodes hField.2⟩

/- A valid document says something. -/
theorem Document.exists_holds
    {doc : Document}
    (hValid : doc.validateWith limits = .ok n) :
    ∃ said, doc.Holds said := by
  rcases Document.measure_eq_ok.mp hValid with
    ⟨fields, hFields, _⟩
  exact ⟨members fields, Document.holds_of_encodes hFields⟩

/- A valid array says something. -/
theorem ArrayDoc.exists_holds
    {array : ArrayDoc}
    (hValid : array.validateWith limits = .ok n) :
    ∃ said, array.Holds said := by
  rcases ArrayDoc.measure_eq_ok.mp hValid with
    ⟨fields, hFields, _⟩
  exact ⟨items fields, ArrayDoc.holds_of_encodes hFields⟩

/- What an element says is seen in it. -/
theorem Element.entry_of_holds
    {element : Element}
    {member : Member}
    (hHolds : element.Holds member) :
    element.entry =
      ⟨member.key.text?, member.content.snapshot⟩ := by
  rcases element with ⟨value⟩
  rcases hHolds with ⟨hKey, hContent⟩
  rw [entry_of_key hKey, Value.snapshot_of_holds hContent]

/- Values that say the same are read the same. -/
theorem Value.read_alike
    {a b : Value}
    {content : Content}
    (hA : a.Holds content)
    (hB : b.Holds content) :
    a.text = b.text ∧ a.datum = b.datum ∧
      ∀ other, a.equal other = b.equal other := by
  have hSeen : a.snapshot = b.snapshot := by
    rw [snapshot_of_holds hA, snapshot_of_holds hB]
  unfold text datum equal
  rw [hSeen]
  exact ⟨rfl, rfl, fun _ => rfl⟩

/- Elements that say the same are read the same. -/
theorem Element.read_alike
    {a b : Element}
    {member : Member}
    (hA : a.Holds member)
    (hB : b.Holds member) :
    a.text = b.text ∧ a.datum = b.datum ∧
      ∀ other, a.equal other = b.equal other := by
  have hSeen : a.entry = b.entry := by
    rw [entry_of_holds hA, entry_of_holds hB]
  have hKey : a.key? = b.key? := congrArg Entry.key? hSeen
  have hTag : a.value.tag = b.value.tag := by
    rw [Value.tag_of_holds hA.2, Value.tag_of_holds hB.2]
  rcases Value.read_alike hA.2 hB.2 with
    ⟨hText, _, hEqual⟩
  unfold text datum equal
  rw [hSeen, hKey, hTag, hText]
  refine ⟨rfl, rfl, ?_⟩
  intro other
  rw [hEqual]

/- Documents that say the same are read the same. -/
theorem Document.read_alike
    {a b : Document}
    {said : List Member}
    (hA : a.Holds said)
    (hB : b.Holds said) :
    a.text = b.text ∧ a.datum = b.datum ∧
      ∀ other, a.equal other = b.equal other := by
  have hSeen : a.entries = b.entries := by
    rw [entries_of_holds hA, entries_of_holds hB]
  unfold text datum equal
  rw [hSeen]
  exact ⟨rfl, rfl, fun _ => rfl⟩

/- Arrays that say the same are read the same. -/
theorem ArrayDoc.read_alike
    {a b : ArrayDoc}
    {said : List Content}
    (hA : a.Holds said)
    (hB : b.Holds said) :
    a.text = b.text ∧ a.datum = b.datum ∧
      ∀ other, a.equal other = b.equal other := by
  have hSeen : a.snapshots = b.snapshots := by
    rw [snapshots_of_holds hA, snapshots_of_holds hB]
  unfold text datum equal
  rw [hSeen]
  exact ⟨rfl, rfl, fun _ => rfl⟩

/-
  Readers go by what views say and not by how it is held. A
  valid view and another one that says the same have the
  same text, the same data or the same reason for having
  none, and are equal to the same views. It makes no
  difference which containers are opened, which buffers the
  parts are in, what keys arrays have there and what the
  outer lengths of codes with scope are.
-/
theorem observers_follow_content :
    (∀ (a b : Value) (limits : Limits) (n : Nat),
      a.validateWith limits = .ok n →
        (∀ held, a.Holds held ↔ b.Holds held) →
          a.text = b.text ∧ a.datum = b.datum ∧
            ∀ other, a.equal other = b.equal other) ∧
      (∀ (a b : Element) (limits : Limits) (n : Nat),
        a.validateWith limits = .ok n →
          (∀ held, a.Holds held ↔ b.Holds held) →
            a.text = b.text ∧ a.datum = b.datum ∧
              ∀ other, a.equal other = b.equal other) ∧
      (∀ (a b : Document) (limits : Limits) (n : Nat),
        a.validateWith limits = .ok n →
          (∀ held, a.Holds held ↔ b.Holds held) →
            a.text = b.text ∧ a.datum = b.datum ∧
              ∀ other, a.equal other = b.equal other) ∧
      ∀ (a b : ArrayDoc) (limits : Limits) (n : Nat),
        a.validateWith limits = .ok n →
          (∀ held, a.Holds held ↔ b.Holds held) →
            a.text = b.text ∧ a.datum = b.datum ∧
              ∀ other, a.equal other = b.equal other := by
  refine ⟨?_, ?_, ?_, ?_⟩
  · intro a b limits n hValid hSame
    rcases Value.exists_holds hValid with ⟨content, hSaid⟩
    exact Value.read_alike hSaid ((hSame content).mp hSaid)
  · intro a b limits n hValid hSame
    rcases Element.exists_holds hValid with ⟨member, hSaid⟩
    exact Element.read_alike hSaid ((hSame member).mp hSaid)
  · intro a b limits n hValid hSame
    rcases Document.exists_holds hValid with ⟨said, hSaid⟩
    exact Document.read_alike hSaid ((hSame said).mp hSaid)
  · intro a b limits n hValid hSame
    rcases ArrayDoc.exists_holds hValid with ⟨said, hSaid⟩
    exact ArrayDoc.read_alike hSaid ((hSame said).mp hSaid)

/-
  An array with a key of its own in a buffer, and one made
  anew. Both are shown as an array of one null, both are a
  sequence of one unit, and they are equal.
-/
theorem opened_array_reads_the_same :
    let kept : Document :=
      ⟨[⟨⟨⟨[4, 97, 0, 8, 0, 0, 0, 10, 55, 0, 0], 0, 3⟩,
        .raw⟩⟩]⟩
    let made : Document :=
      ⟨[⟨⟨⟨[4, 97, 0], 0, 3⟩,
        .array ⟨[⟨⟨⟨[10, 48, 0], 0, 3⟩, .raw⟩⟩]⟩⟩⟩]⟩
    let shown :=
      "bson.Document\x7bbson.Element\x7b[array]\"a\": " ++
        "bson.Array[null]\x7d\x7d"
    let offered := Datum.map [("a", .sequence [.unit])]
    kept.text = shown ∧ made.text = shown ∧
      kept.datum = .ok offered ∧ made.datum = .ok offered ∧
      kept.equal made = true := by
  intro kept made shown offered
  have hNull : ScalarForm .null [] := .fixed (by decide) rfl
  have hItems : IsDocument [⟨[55], .scalar .null []⟩] :=
    ⟨⟨by decide, hNull, trivial⟩, by decide⟩
  have hKept :
      kept.Holds [⟨[97], .array [.scalar .null []]⟩] :=
    ⟨rfl, ⟨rfl, .array [⟨[55], .scalar .null []⟩],
      hItems, by decide, rfl⟩, trivial⟩
  have hMade :
      made.Holds [⟨[97], .array [.scalar .null []]⟩] :=
    ⟨rfl, ⟨rfl, ⟨rfl, .scalar .null [], hNull, by decide,
      rfl⟩, trivial⟩, trivial⟩
  have hValid : kept.validateWith .standard = .ok 16 := by
    decide
  rcases observers_follow_content.2.2.1 kept made .standard
      16 hValid
      (fun held =>
        (Document.holds_iff hKept held).trans
          (Document.holds_iff hMade held).symm) with
    ⟨hText, hDatum, hEqual⟩
  have hKey : Bytes.text? [97] = some "a" :=
    Bytes.text?_ofText "a"
  have hSeen :
      made.entries =
        [⟨some "a",
          .array [.scalar .null (.ok .null) (.ok [])]⟩] := by
    rw [Document.entries_of_holds hMade, memberEntries, hKey]
    rfl
  have hShown : made.text = shown := by
    rw [Document.text, hSeen]
    decide +kernel
  have hOffered : made.datum = .ok offered := by
    rw [Document.datum, hSeen]
    rfl
  refine ⟨hText.trans hShown, hShown,
    hDatum.trans hOffered, hOffered, ?_⟩
  rw [hEqual made, Document.equal, hSeen]
  decide

end BsonView
