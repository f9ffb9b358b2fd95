import BsonView.Proofs.Views.Demands
import BsonView.Proofs.Views.Observers

/-
  What equality tells apart.

  Equality goes by what can be read. So it is a relation
  between contents, however they are held: keys that are not
  texts are not told apart, and code that is not a text is
  not the same as any, not even as itself. Scalars are
  compared as bytes, texts or not.

  Main declarations:
    * `Bytes.IsText`
    * `Content.Alike`
    * `Snapshot.tag_eq_of_same`
    * `Content.same_snapshot_iff`
    * `Value.equal_iff`
    * `Element.equal_iff`
    * `Document.equal_iff`
    * `ArrayDoc.equal_iff`
-/

------------------------------------------------------------
-- Texts
------------------------------------------------------------

namespace BsonView

namespace Bytes

/- The bytes are the UTF-8 encoding of a text. -/
def IsText (bytes : Bytes) : Prop :=
  ∃ text : String, bytes = ofText text

variable {a b : Bytes}

/- Bytes that are a text are told from all others. -/
theorem IsText.eq_of_text?_eq
    (hText : a.IsText)
    (hSame : a.text? = b.text?) :
    a = b := by
  rcases hText with ⟨text, rfl⟩
  rw [text?_ofText] at hSame
  exact (text?_eq_some.mp hSame.symm).symm

end Bytes

end BsonView

------------------------------------------------------------
-- Contents That Are Alike
------------------------------------------------------------

namespace BsonView

mutual

/-
  Two contents are of one form with the same scalars and the
  same codes, which are texts. Keys are compared as texts,
  or not at all where neither of them is one.
-/
def Content.Alike : Content → Content → Prop
| .scalar tag bytes, .scalar tag' bytes' =>
    tag = tag' ∧ bytes = bytes'
| .document members, .document members' =>
    membersAlike members members'
| .array items, .array items' => itemsAlike items items'
| .code text scope, .code text' scope' =>
    text = text' ∧ text.IsText ∧ membersAlike scope scope'
| _, _ => False

/- The elements are alike one by one. -/
def membersAlike : List Member → List Member → Prop
| [], [] => True
| ⟨key, content⟩ :: rest, ⟨key', content'⟩ :: rest' =>
    key.text? = key'.text? ∧ content.Alike content' ∧
      membersAlike rest rest'
| _, _ => False

/- The values are alike one by one. -/
def itemsAlike : List Content → List Content → Prop
| [], [] => True
| content :: rest, content' :: rest' =>
    content.Alike content' ∧ itemsAlike rest rest'
| _, _ => False

end

/- Lists of elements that are alike are of one length. -/
theorem length_eq_of_membersAlike :
    ∀ {a b : List Member},
      membersAlike a b → a.length = b.length
| [], [], _ => rfl
| ⟨_, _⟩ :: _, ⟨_, _⟩ :: _, ⟨_, _, hRest⟩ => by
    rw [List.length_cons, List.length_cons,
      length_eq_of_membersAlike hRest]
| [], ⟨_, _⟩ :: _, hAlike => hAlike.elim
| ⟨_, _⟩ :: _, [], hAlike => hAlike.elim

end BsonView

------------------------------------------------------------
-- Snapshots That Are The Same
------------------------------------------------------------

namespace BsonView

open Grammar

/- What is seen of a scalar is its bytes. -/
theorem Content.exists_snapshot_scalar
    {tag : Tag}
    {bytes : Bytes}
    (hForm : ScalarForm tag bytes) :
    ∃ read, (Content.scalar tag bytes).snapshot =
      .scalar tag read (.ok bytes) := by
  rcases Tag.exists_layout_of_isScalar hForm.isScalar with
    ⟨read, hLayout⟩
  refine ⟨read bytes, ?_⟩
  rw [snapshot, hLayout]

/- What is seen of a content is of its type. -/
theorem Content.tag_snapshot
    {content : Content}
    (hFormat : content.Meets .format) :
    content.snapshot.tag = .ok content.tag := by
  cases content with
  | scalar tag bytes =>
      rcases exists_snapshot_scalar hFormat with
        ⟨read, hSeen⟩
      rw [hSeen]
      rfl
  | document said =>
      rw [snapshot]
      rfl
  | array said =>
      rw [snapshot]
      rfl
  | code text scope =>
      rw [snapshot]
      cases Bytes.text text <;> rfl

/- What is seen of the same is of one type. -/
theorem Snapshot.tag_eq_of_same
    {a b : Snapshot}
    (hSame : a.same b = true) :
    a.tag = b.tag := by
  cases a <;> cases b <;> simp_all [same, tag]

/- The type of a scalar is no type of containers. -/
theorem Grammar.ScalarForm.tag_ne
    {tag other : Tag}
    {bytes : Bytes}
    (hForm : ScalarForm tag bytes)
    (hOther : other.isScalar = false) :
    tag ≠ other := by
  rintro rfl
  rw [hForm.isScalar] at hOther
  cases hOther

/- Contents of two types are not seen as the same. -/
theorem Content.same_snapshot_iff_of_tag_ne
    {a b : Content}
    {p : Prop}
    (hA : a.Meets .format)
    (hB : b.Meets .format)
    (hTag : a.tag ≠ b.tag)
    (hFalse : ¬p) :
    a.snapshot.same b.snapshot = true ↔ p := by
  refine iff_of_false ?_ hFalse
  intro hSame
  have hTags := Snapshot.tag_eq_of_same hSame
  rw [tag_snapshot hA, tag_snapshot hB] at hTags
  exact hTag (Except.ok.inj hTags)

/- Codes are seen as the same when they are alike. -/
theorem Content.same_snapshot_code_iff
    {a b : Bytes}
    {scopeA scopeB : List Member}
    (hScopes :
      sameEntries (memberEntries scopeA)
          (memberEntries scopeB) = true ↔
        membersAlike scopeA scopeB) :
    (Content.code a scopeA).snapshot.same
        (Content.code b scopeB).snapshot = true ↔
      a = b ∧ a.IsText ∧ membersAlike scopeA scopeB := by
  rw [snapshot, snapshot]
  cases hA : Bytes.text a with
  | error error =>
      refine iff_of_false Bool.false_ne_true ?_
      intro hBoth
      rcases hBoth with ⟨_, ⟨text, hText⟩, _⟩
      rw [Bytes.text_eq_ok.mpr hText] at hA
      cases hA
  | ok textA =>
      have hTextA := Bytes.text_eq_ok.mp hA
      cases hB : Bytes.text b with
      | error error =>
          refine iff_of_false Bool.false_ne_true ?_
          intro hBoth
          rw [← hBoth.1, hA] at hB
          cases hB
      | ok textB =>
          have hTextB := Bytes.text_eq_ok.mp hB
          simp only [Snapshot.same, Bool.and_eq_true,
            beq_iff_eq, hScopes]
          constructor
          · intro hBoth
            rcases hBoth with ⟨rfl, hAlike⟩
            exact
              ⟨hTextA.trans hTextB.symm, ⟨_, hTextA⟩,
                hAlike⟩
          · intro hBoth
            rcases hBoth with ⟨rfl, _, hAlike⟩
            rw [hA] at hB
            exact ⟨Except.ok.inj hB, hAlike⟩

mutual

/- Contents are seen as the same when they are alike. -/
theorem Content.same_snapshot_iff :
    ∀ {a b : Content},
      a.Meets .format → b.Meets .format →
      (a.snapshot.same b.snapshot = true ↔ a.Alike b)
| .scalar tag bytes, b, hA, hB => by
    cases b with
    | scalar tag' bytes' =>
        rcases Content.exists_snapshot_scalar hA with
          ⟨read, hSeenA⟩
        rcases Content.exists_snapshot_scalar hB with
          ⟨read', hSeenB⟩
        rw [hSeenA, hSeenB]
        simp [Snapshot.same, sameBytes, Content.Alike]
    | _ =>
        apply Content.same_snapshot_iff_of_tag_ne hA hB
        · exact ScalarForm.tag_ne hA rfl
        · exact id
| .document a, b, hA, hB => by
    cases b with
    | document b =>
        rw [Content.snapshot, Content.snapshot]
        exact sameEntries_iff hA hB
    | scalar tag bytes =>
        apply Content.same_snapshot_iff_of_tag_ne hA hB
        · exact (ScalarForm.tag_ne hB rfl).symm
        · exact id
    | _ =>
        exact Content.same_snapshot_iff_of_tag_ne hA hB
          nofun id
| .array a, b, hA, hB => by
    cases b with
    | array b =>
        rw [Content.snapshot, Content.snapshot]
        exact sameSnapshots_iff hA hB
    | scalar tag bytes =>
        apply Content.same_snapshot_iff_of_tag_ne hA hB
        · exact (ScalarForm.tag_ne hB rfl).symm
        · exact id
    | _ =>
        exact Content.same_snapshot_iff_of_tag_ne hA hB
          nofun id
| .code a scope, b, hA, hB => by
    cases b with
    | code b scope' =>
        apply Content.same_snapshot_code_iff
        exact sameEntries_iff hA.2 hB.2
    | scalar tag bytes =>
        apply Content.same_snapshot_iff_of_tag_ne hA hB
        · exact (ScalarForm.tag_ne hB rfl).symm
        · exact id
    | _ =>
        exact Content.same_snapshot_iff_of_tag_ne hA hB
          nofun id

/- So are elements. -/
theorem sameEntries_iff :
    ∀ {a b : List Member},
      membersMeet .format a → membersMeet .format b →
      (sameEntries (memberEntries a) (memberEntries b) =
          true ↔
        membersAlike a b)
| [], [], _, _ => by
    simp [memberEntries, sameEntries, membersAlike]
| ⟨keyA, contentA⟩ :: a, ⟨keyB, contentB⟩ :: b,
    ⟨_, hContentA, hA⟩, ⟨_, hContentB, hB⟩ => by
    simp only [memberEntries, sameEntries, membersAlike,
      Bool.and_eq_true, beq_iff_eq, and_assoc,
      Content.same_snapshot_iff hContentA hContentB,
      sameEntries_iff hA hB]
| [], ⟨_, _⟩ :: _, _, _ => by
    simp [memberEntries, sameEntries, membersAlike]
| ⟨_, _⟩ :: _, [], _, _ => by
    simp [memberEntries, sameEntries, membersAlike]

/- So are values. -/
theorem sameSnapshots_iff :
    ∀ {a b : List Content},
      itemsMeet .format a → itemsMeet .format b →
      (sameSnapshots (itemSnapshots a) (itemSnapshots b) =
          true ↔
        itemsAlike a b)
| [], [], _, _ => by
    simp [itemSnapshots, sameSnapshots, itemsAlike]
| contentA :: a, contentB :: b, ⟨hContentA, hA⟩,
    ⟨hContentB, hB⟩ => by
    simp only [itemSnapshots, sameSnapshots, itemsAlike,
      Bool.and_eq_true,
      Content.same_snapshot_iff hContentA hContentB,
      sameSnapshots_iff hA hB]
| [], _ :: _, _, _ => by
    simp [itemSnapshots, sameSnapshots, itemsAlike]
| _ :: _, [], _, _ => by
    simp [itemSnapshots, sameSnapshots, itemsAlike]

end

end BsonView

------------------------------------------------------------
-- Views That Are Equal
------------------------------------------------------------

namespace BsonView

/- Values are equal when what they say is alike. -/
theorem Value.equal_iff
    {a b : Value}
    {saidA saidB : Content}
    (hA : a.Holds saidA)
    (hB : b.Holds saidB) :
    a.equal b = true ↔ saidA.Alike saidB := by
  rw [equal, snapshot_of_holds hA, snapshot_of_holds hB]
  apply Content.same_snapshot_iff
  · exact meets_format_of_holds hA
  · exact meets_format_of_holds hB

/- The key of an element is a text where its bytes are. -/
theorem Element.key?_of_holds
    {element : Element}
    {member : Member}
    (hHolds : element.Holds member) :
    element.key? = member.key.text? :=
  congrArg Entry.key? (entry_of_holds hHolds)

/-
  Elements are equal when their keys are read the same and
  what they say is alike.
-/
theorem Element.equal_iff
    {a b : Element}
    {saidA saidB : Member}
    (hA : a.Holds saidA)
    (hB : b.Holds saidB) :
    a.equal b = true ↔
      saidA.key.text? = saidB.key.text? ∧
        saidA.content.Alike saidB.content := by
  rw [equal, key?_of_holds hA, key?_of_holds hB,
    Bool.and_eq_true, beq_iff_eq,
    Value.equal_iff hA.2 hB.2]

/- Documents are equal when their elements are alike. -/
theorem Document.equal_iff
    {a b : Document}
    {saidA saidB : List Member}
    (hA : a.Holds saidA)
    (hB : b.Holds saidB) :
    a.equal b = true ↔ membersAlike saidA saidB := by
  rw [equal, entries_of_holds hA, entries_of_holds hB]
  apply sameEntries_iff
  · exact meets_format_of_holds hA
  · exact meets_format_of_holds hB

/- Arrays are equal when their values are alike. -/
theorem ArrayDoc.equal_iff
    {a b : ArrayDoc}
    {saidA saidB : List Content}
    (hA : a.Holds saidA)
    (hB : b.Holds saidB) :
    a.equal b = true ↔ itemsAlike saidA saidB := by
  rw [equal, snapshots_of_holds hA, snapshots_of_holds hB]
  apply sameSnapshots_iff
  · exact meets_format_of_holds hA
  · exact meets_format_of_holds hB

end BsonView
