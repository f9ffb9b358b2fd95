import BsonView.Proofs.Equality.Likeness
import BsonView.Proofs.Reading.Measures
import BsonView.Proofs.RoundTrip

/-
  Where equality is exact.

  On texts equality is the sameness of contents: elements
  whose keys and codes are all texts are equal when they say
  the same. Where keys are not texts, documents can be equal
  that differ in such keys, and in nothing else. Where code
  is not a text, nothing is equal to what holds it, not even
  what is read out of its own encoding.

  Main declarations:
    * `Content.alike_self_iff`
    * `Content.Alike.eq_of_textKeys`
    * `Element.Legible`
    * `equality_is_exact_on_texts`
    * `equal_documents_differ_in_unread_keys`
    * `encoding_is_equal_where_codes_are_texts`
-/

------------------------------------------------------------
-- Contents Of Texts
------------------------------------------------------------

namespace BsonView

/- All keys in documents are texts. -/
def Demand.textKeys : Demand where
  key := Bytes.IsText

/- All codes with scope have texts for code. -/
def Demand.textCodes : Demand where
  code := Bytes.IsText

/- All keys and all codes are texts. -/
def Demand.texts : Demand where
  key := Bytes.IsText
  code := Bytes.IsText

theorem Demand.texts_implies_textKeys :
    Demand.texts.Implies .textKeys :=
  ⟨fun _ => trivial, id, fun _ => trivial⟩

theorem Demand.texts_implies_textCodes :
    Demand.texts.Implies .textCodes :=
  ⟨fun _ => trivial, fun _ => trivial, id⟩

mutual

/- A content is like itself when its codes are texts. -/
theorem Content.alike_self_iff :
    ∀ content : Content,
      content.Alike content ↔ content.Meets .textCodes
| .scalar _ _ =>
    iff_of_true ⟨rfl, rfl⟩ trivial
| .document members => membersAlike_self_iff members
| .array items => itemsAlike_self_iff items
| .code text scope => by
    have hScope := membersAlike_self_iff scope
    constructor
    · intro hAlike
      exact ⟨hAlike.2.1, hScope.mp hAlike.2.2⟩
    · intro hMeets
      exact ⟨rfl, hMeets.1, hScope.mpr hMeets.2⟩

theorem membersAlike_self_iff :
    ∀ members : List Member,
      membersAlike members members ↔
        membersMeet .textCodes members
| [] => Iff.rfl
| ⟨_, content⟩ :: rest =>
    and_congr (iff_of_true rfl trivial)
      (and_congr (Content.alike_self_iff content)
        (membersAlike_self_iff rest))

theorem itemsAlike_self_iff :
    ∀ items : List Content,
      itemsAlike items items ↔ itemsMeet .textCodes items
| [] => Iff.rfl
| content :: rest =>
    and_congr (Content.alike_self_iff content)
      (itemsAlike_self_iff rest)

end

mutual

/- Alike contents are the same if the keys are texts. -/
theorem Content.Alike.eq_of_textKeys :
    ∀ {a b : Content},
      a.Alike b → a.Meets .textKeys → a = b
| .scalar _ _, b, hAlike, _ => by
    cases b with
    | scalar tag bytes => rw [hAlike.1, hAlike.2]
    | _ => exact hAlike.elim
| .document a, b, hAlike, hKeys => by
    cases b with
    | document b =>
        rw [membersAlike_eq_of_textKeys hAlike hKeys]
    | _ => exact hAlike.elim
| .array a, b, hAlike, hKeys => by
    cases b with
    | array b =>
        rw [itemsAlike_eq_of_textKeys hAlike hKeys]
    | _ => exact hAlike.elim
| .code a scopeA, b, hAlike, hKeys => by
    cases b with
    | code b scopeB =>
        rw [hAlike.1,
          membersAlike_eq_of_textKeys hAlike.2.2 hKeys.2]
    | _ => exact hAlike.elim

theorem membersAlike_eq_of_textKeys :
    ∀ {a b : List Member},
      membersAlike a b → membersMeet .textKeys a → a = b
| [], [], _, _ => rfl
| ⟨_, _⟩ :: _, ⟨_, _⟩ :: _, ⟨hKey, hContent, hAlike⟩,
    ⟨hText, hMeets, hKeys⟩ => by
    rw [hText.eq_of_text?_eq hKey,
      hContent.eq_of_textKeys hMeets,
      membersAlike_eq_of_textKeys hAlike hKeys]
| [], ⟨_, _⟩ :: _, hAlike, _ => hAlike.elim
| ⟨_, _⟩ :: _, [], hAlike, _ => hAlike.elim

theorem itemsAlike_eq_of_textKeys :
    ∀ {a b : List Content},
      itemsAlike a b → itemsMeet .textKeys a → a = b
| [], [], _, _ => rfl
| _ :: _, _ :: _, ⟨hContent, hAlike⟩, ⟨hMeets, hKeys⟩ => by
    rw [hContent.eq_of_textKeys hMeets,
      itemsAlike_eq_of_textKeys hAlike hKeys]
| [], _ :: _, hAlike, _ => hAlike.elim
| _ :: _, [], hAlike, _ => hAlike.elim

end

/- On texts to be alike is to be the same. -/
theorem Content.alike_iff_eq
    {a b : Content}
    (hTexts : a.Meets .texts) :
    a.Alike b ↔ a = b := by
  constructor
  · intro hAlike
    apply hAlike.eq_of_textKeys
    exact hTexts.weaken Demand.texts_implies_textKeys
  · rintro rfl
    apply (alike_self_iff a).mpr
    exact hTexts.weaken Demand.texts_implies_textCodes

end BsonView

------------------------------------------------------------
-- Equality On Texts
------------------------------------------------------------

namespace BsonView

open Grammar

/-
  A valid element whose keys and codes are texts, at every
  depth. The keys of arrays do not have to be.
-/
structure Element.Legible (element : Element) : Prop where
  valid :
    ∃ limits n, element.validateWith limits = .ok n
  texts :
    ∀ {member},
      element.Holds member →
        member.key.IsText ∧ member.content.Meets .texts

/- A legible element says something, and in texts. -/
theorem Element.Legible.exists_holds
    {element : Element}
    (hLegible : element.Legible) :
    ∃ member, element.Holds member ∧
      member.key.IsText ∧ member.content.Meets .texts := by
  rcases hLegible.valid with ⟨limits, n, hValid⟩
  rcases Element.exists_holds hValid with ⟨member, hSaid⟩
  exact ⟨member, hSaid, hLegible.texts hSaid⟩

/- Elements of texts are equal when they say the same. -/
theorem Element.equal_iff_eq
    {a b : Element}
    {said found : Member}
    (hA : a.Holds said)
    (hB : b.Holds found)
    (hKey : said.key.IsText)
    (hTexts : said.content.Meets .texts) :
    a.equal b = true ↔ said = found := by
  rcases said with ⟨key, content⟩
  rcases found with ⟨key', content'⟩
  rw [Element.equal_iff hA hB, Content.alike_iff_eq hTexts,
    Member.mk.injEq]
  apply and_congr_left'
  constructor
  · exact hKey.eq_of_text?_eq
  · exact congrArg Bytes.text?

/- Legible elements are equal when they hold the same. -/
theorem Element.Legible.equal_iff
    {a b : Element}
    (hLegibleA : a.Legible)
    (hLegibleB : b.Legible) :
    a.equal b = true ↔
      ∀ held, a.Holds held ↔ b.Holds held := by
  rcases hLegibleA.exists_holds with
    ⟨said, hA, hKey, hTexts⟩
  rcases hLegibleB.exists_holds with ⟨found, hB, _⟩
  rw [Element.equal_iff_eq hA hB hKey hTexts]
  constructor
  · rintro rfl held
    rw [Element.holds_iff hA, Element.holds_iff hB]
  · intro hSame
    apply (Element.holds_iff hB said).mp
    exact (hSame said).mp hA

/-
  On texts equality is exact. Valid elements with texts for
  keys and codes are equal when they say the same: the same
  key with the same content, where scalars are their types
  and bytes, documents their keys and contents in order,
  arrays their contents in order and codes with scope their
  codes and scopes. How they are held is of no account. So
  equality is an equivalence of such elements.
-/
theorem equality_is_exact_on_texts :
    (∀ a b : Element, a.Legible → b.Legible →
      (a.equal b = true ↔
        ∀ held, a.Holds held ↔ b.Holds held)) ∧
      Equivalence
        fun a b : { element : Element // element.Legible } =>
          a.val.equal b.val = true := by
  refine ⟨?_, ?_, ?_, ?_⟩
  · intro a b hA hB
    exact hA.equal_iff hB
  · intro a
    apply (a.property.equal_iff a.property).mpr
    intro held
    rfl
  · intro a b hEqual
    have hSame :=
      (a.property.equal_iff b.property).mp hEqual
    apply (b.property.equal_iff a.property).mpr
    intro held
    exact (hSame held).symm
  · intro a b c hFirst hLast
    have hToMiddle :=
      (a.property.equal_iff b.property).mp hFirst
    have hFromMiddle :=
      (b.property.equal_iff c.property).mp hLast
    apply (a.property.equal_iff c.property).mpr
    intro held
    exact (hToMiddle held).trans (hFromMiddle held)

/- A code in its bytes, and one with its scope opened. -/
theorem opened_scope_is_equal :
    let kept : Element :=
      ⟨⟨⟨[15, 97, 0, 0, 0, 0, 0, 2, 0, 0, 0, 120, 0, 5, 0,
        0, 0, 0], 0, 3⟩, .raw⟩⟩
    let made : Element :=
      ⟨⟨⟨[15, 97, 0, 9, 9, 9, 9, 2, 0, 0, 0, 120, 0], 0, 3⟩,
        .document ⟨[]⟩⟩⟩
    kept.Legible ∧ made.Legible ∧
      kept.equal made = true := by
  intro kept made
  have hText : Bytes.IsText [120] := ⟨"x", rfl⟩
  have hKey : Bytes.IsText [97] := ⟨"a", rfl⟩
  have hKept : kept.Holds ⟨[97], .code [120] []⟩ :=
    ⟨rfl, rfl, .code [0, 0, 0, 0] [120] [],
      ⟨rfl, by decide, trivial, by decide⟩, by decide, rfl⟩
  have hMade : made.Holds ⟨[97], .code [120] []⟩ :=
    ⟨rfl, rfl, by decide, by decide, trivial⟩
  have hLegible (element : Element)
      (hValid : element.validate = .ok 18)
      (hHolds : element.Holds ⟨[97], .code [120] []⟩) :
      element.Legible := by
    refine ⟨⟨_, _, hValid⟩, ?_⟩
    intro member hSaid
    rw [(Element.holds_iff hHolds member).mp hSaid]
    exact ⟨hKey, hText, trivial⟩
  have hKeptLegible := hLegible kept (by decide) hKept
  have hMadeLegible := hLegible made (by decide) hMade
  refine ⟨hKeptLegible, hMadeLegible, ?_⟩
  apply
    (equality_is_exact_on_texts.1 kept made hKeptLegible
      hMadeLegible).mpr
  intro held
  rw [Element.holds_iff hKept, Element.holds_iff hMade]

end BsonView

------------------------------------------------------------
-- Keys That Are Not Texts
------------------------------------------------------------

namespace BsonView

open Grammar

/-
  Equal documents differ in nothing but keys that are not
  texts. Two valid documents are equal when their elements
  are alike one by one. So they are of one length then, and
  say the same if all keys in one of them are texts, at any
  depth. It makes no difference what strings and codes are.
-/
theorem equal_documents_differ_in_unread_keys :
    ∀ (a b : Document) (limits others : Limits) (m n : Nat),
      a.validateWith limits = .ok m →
        b.validateWith others = .ok n →
          ∃ said found,
            (∀ held, a.Holds held ↔ held = said) ∧
              (∀ held, b.Holds held ↔ held = found) ∧
              (a.equal b = true ↔
                membersAlike said found) ∧
              (a.equal b = true →
                said.length = found.length ∧
                  (membersMeet .textKeys said →
                    said = found)) := by
  intro a b limits others m n hValidA hValidB
  rcases Document.exists_holds hValidA with ⟨said, hA⟩
  rcases Document.exists_holds hValidB with ⟨found, hB⟩
  refine
    ⟨said, found, Document.holds_iff hA,
      Document.holds_iff hB, Document.equal_iff hA hB, ?_⟩
  intro hEqual
  have hAlike := (Document.equal_iff hA hB).mp hEqual
  constructor
  · exact length_eq_of_membersAlike hAlike
  · intro hKeys
    exact membersAlike_eq_of_textKeys hAlike hKeys

/- A string that is not a text is the same elsewhere. -/
theorem moved_string_is_equal :
    let front : Document :=
      ⟨[⟨⟨⟨[2, 120, 0, 2, 0, 0, 0, 255, 0], 0, 3⟩, .raw⟩⟩]⟩
    let later : Document :=
      ⟨[⟨⟨⟨[7, 2, 120, 0, 2, 0, 0, 0, 255, 0], 1, 4⟩,
        .raw⟩⟩]⟩
    front.equal later = true := by
  intro front later
  have hString : ScalarForm .string (stringForm [255]) :=
    .text rfl (by decide)
  have hFront :
      front.Holds
        [⟨[120], .scalar .string (stringForm [255])⟩] :=
    ⟨rfl, ⟨rfl, .scalar .string _, hString, by decide,
      rfl⟩, trivial⟩
  have hLater :
      later.Holds
        [⟨[120], .scalar .string (stringForm [255])⟩] :=
    ⟨rfl, ⟨rfl, .scalar .string _, hString, by decide,
      rfl⟩, trivial⟩
  rcases equal_documents_differ_in_unread_keys front later
      .standard .standard 14 14 (by decide) (by decide) with
    ⟨said, found, hSaid, hFound, hEqual, _⟩
  apply hEqual.mpr
  rw [← (hSaid _).mp hFront, ← (hFound _).mp hLater]
  exact ⟨rfl, ⟨rfl, rfl⟩, trivial⟩

/-
  Keys that are not texts are not told apart. Two documents
  with one null each are valid and equal, and their keys
  differ.
-/
theorem unread_keys_are_not_told_apart :
    ∃ a b,
      Document.read [8, 0, 0, 0, 10, 255, 0, 0] = .ok a ∧
        Document.read [8, 0, 0, 0, 10, 254, 0, 0] = .ok b ∧
        a.validate = .ok 8 ∧
        b.validate = .ok 8 ∧
        a.equal b = true ∧
        a.Holds [⟨[255], .scalar .null []⟩] ∧
        ¬b.Holds [⟨[255], .scalar .null []⟩] := by
  have hNull : ScalarForm .null [] := .fixed (by decide) rfl
  have hFields :
      IsDocument [⟨[255], .scalar .null []⟩] :=
    ⟨⟨by decide, hNull, trivial⟩, by decide⟩
  have hOthers :
      IsDocument [⟨[254], .scalar .null []⟩] :=
    ⟨⟨by decide, hNull, trivial⟩, by decide⟩
  rcases Document.read_of_isDocument hFields with
    ⟨a, hReadA, hA⟩
  rcases Document.read_of_isDocument hOthers with
    ⟨b, hReadB, hB⟩
  refine ⟨a, b, hReadA, hReadB, ?_, ?_, ?_, hA, ?_⟩
  · unfold Document.validate
    rw [Document.validateWith_of_read hReadA]
    decide
  · unfold Document.validate
    rw [Document.validateWith_of_read hReadB]
    decide
  · apply (Document.equal_iff hA hB).mpr
    exact ⟨by decide, ⟨rfl, rfl⟩, trivial⟩
  · intro hSame
    cases Document.holds_unique hSame hB

------------------------------------------------------------
-- Codes That Are Not Texts
------------------------------------------------------------

/-
  What an element is encoded as reads as an element with the
  same key that holds the same. The two are equal when the
  codes with scope in the content have texts for code, at
  any depth, and not otherwise. It makes no difference what
  keys and strings are.
-/
theorem encoding_is_equal_where_codes_are_texts :
    ∀ (element : Element) (bytes : Bytes),
      element.encode = .ok bytes →
        ∃ again member,
          Element.read bytes = .ok again ∧
            again.key? = element.key? ∧
            (∀ held,
              element.Holds held ↔ held = member) ∧
            (∀ held, again.Holds held ↔ held = member) ∧
            (again.equal element = true ↔
              member.content.Meets .textCodes) := by
  intro element bytes hEncode
  rcases Element.read_encode hEncode with
    ⟨again, member, hRead, hElement, hAgain⟩
  refine
    ⟨again, member, hRead, ?_, Element.holds_iff hElement,
      Element.holds_iff hAgain, ?_⟩
  · rw [Element.key?_of_holds hAgain,
      Element.key?_of_holds hElement]
  · rw [Element.equal_iff hAgain hElement,
      Content.alike_self_iff]
    exact and_iff_right rfl

/- A key and a string that are not texts are read again. -/
theorem unread_string_reads_again :
    let element : Element :=
      ⟨⟨⟨[2, 255, 0, 2, 0, 0, 0, 254, 0], 0, 3⟩, .raw⟩⟩
    ∃ again,
      Element.read [2, 255, 0, 2, 0, 0, 0, 254, 0] =
          .ok again ∧
        again.key? = element.key? ∧
        again.equal element = true := by
  intro element
  have hString : ScalarForm .string (stringForm [254]) :=
    .text rfl (by decide)
  have hElement :
      element.Holds
        ⟨[255], .scalar .string (stringForm [254])⟩ :=
    ⟨rfl, rfl, .scalar .string _, hString, by decide, rfl⟩
  rcases encoding_is_equal_where_codes_are_texts element _
      rfl with
    ⟨again, member, hRead, hKey, hSaid, _, hEqual⟩
  refine ⟨again, hRead, hKey, hEqual.mpr ?_⟩
  rw [← (hSaid _).mp hElement]
  trivial

/-
  A code with scope whose code is not a text is valid, and
  it is read out of its own encoding. It is not equal to
  itself.
-/
theorem unread_code_is_not_equal_to_itself :
    let bytes : Bytes :=
      [15, 0, 15, 0, 0, 0, 2, 0, 0, 0, 255, 0, 5, 0, 0, 0,
        0]
    let element : Element := ⟨⟨⟨bytes, 0, 2⟩, .raw⟩⟩
    Element.read bytes = .ok element ∧
      element.validate = .ok 17 ∧
      element.encode = .ok bytes ∧
      element.key? = some "" ∧
      element.equal element = false := by
  intro bytes element
  have hElement : element.Holds ⟨[], .code [255] []⟩ :=
    ⟨rfl, rfl, .code [15, 0, 0, 0] [255] [],
      ⟨rfl, by decide, trivial, by decide⟩, by decide, rfl⟩
  refine ⟨rfl, by decide, by decide, rfl, ?_⟩
  rw [← Bool.not_eq_true,
    Element.equal_iff hElement hElement,
    Content.alike_self_iff]
  rintro ⟨_, hCode, _⟩
  rcases hCode with ⟨text, hText⟩
  cases Bytes.text?_eq_some.mpr hText

end BsonView
