import BsonView.Opening
import BsonView.Proofs.Reading.Containers
import BsonView.Proofs.Reading.Measures
import BsonView.Proofs.RoundTrip
import BsonView.Proofs.Views.Canonical

/-
  Opening everything.

  Where a document is valid, all containers in it can be
  opened. Then nothing is copied from its buffer but keys,
  scalars and code: what is written is the canonical
  encoding of what the document says, whatever keys its
  arrays had and whatever its outer lengths were.

  Main declarations:
    * `Content.containers`
    * `Document.AllOpen`
    * `Value.openAll_of_shows`
    * `Document.openAll_of_read`
    * `openAll_encodes_content`
-/

------------------------------------------------------------
-- Containers
------------------------------------------------------------

namespace BsonView

mutual

/- How many containers there are in what a value says. -/
def Content.containers : Content → Nat
| .scalar _ _ => 0
| .document members => memberContainers members + 1
| .array items => itemContainers items + 1
| .code _ scope => memberContainers scope + 1

/- How many there are in what elements say. -/
def memberContainers : List Member → Nat
| [] => 0
| ⟨_, content⟩ :: rest =>
    content.containers + memberContainers rest

/- How many there are in what values say. -/
def itemContainers : List Content → Nat
| [] => 0
| content :: rest =>
    content.containers + itemContainers rest

end

/- Elements have no containers beside their values'. -/
theorem itemContainers_map
    (members : List Member) :
    itemContainers (members.map Member.content) =
      memberContainers members := by
  induction members with
  | nil => rfl
  | cons member rest ih =>
      rcases member with ⟨key, content⟩
      rw [List.map_cons, itemContainers, memberContainers,
        ih]

mutual

/- No container in the value is still in its buffer. -/
def Value.AllOpen : Value → Prop
| ⟨place, payload⟩ => payload.AllOpen place

/- A payload that is still in its buffer is a scalar. -/
def Payload.AllOpen
    (place : Place) : Payload → Prop
| .raw =>
    ∃ tag, place.tag = .ok tag ∧ tag.isScalar = true
| .document doc => doc.AllOpen
| .array array => array.AllOpen

/- No container in the document is still in its buffer. -/
def Document.AllOpen : Document → Prop
| ⟨elements⟩ => elementsAllOpen elements

/- No container in the array is still in its buffer. -/
def ArrayDoc.AllOpen : ArrayDoc → Prop
| ⟨elements⟩ => elementsAllOpen elements

/- No container in the elements is still in its buffer. -/
def elementsAllOpen : List Element → Prop
| [] => True
| ⟨value⟩ :: rest => value.AllOpen ∧ elementsAllOpen rest

end

end BsonView

------------------------------------------------------------
-- All Of Them Opened
------------------------------------------------------------

namespace BsonView

open Grammar

/- Elements that are taken as values get new keys. -/
theorem valuesEncode_of_elements :
    ∀ {elements : List Element} {found : List Member},
      elementsEncode elements (canonicalFields found) →
      ∀ index,
        valuesEncode index elements
          (canonicalItems index
            (found.map Member.content))
| [], [], _, _ => trivial
| ⟨_⟩ :: _, ⟨key, _⟩ :: _, ⟨hKey, hValue, hRest⟩, index =>
    ⟨rfl, ⟨key, hKey⟩, hValue,
      valuesEncode_of_elements hRest (index + 1)⟩
| [], ⟨_, _⟩ :: _, hEncode, _ => hEncode.elim
| ⟨_⟩ :: _, [], hEncode, _ => hEncode.elim

mutual

/-
  All containers of a value are opened, which is written
  canonically then.
-/
theorem Value.openAll_of_shows :
    ∀ {tree : ParseTree} {value : Value},
      value.Shows tree →
      ∃ opened : Value,
        value.openAll =
            (.ok tree.content.containers, opened) ∧
          opened.toPlace = value.toPlace ∧
          opened.AllOpen ∧
          opened.Encodes tree.content.canonical
| .scalar tag bytes, value, hShows => by
    rcases value with ⟨place, payload⟩
    rcases hShows with ⟨rfl, hTag, hWell, hFront⟩
    have hScalar := ScalarForm.isScalar hWell
    refine ⟨_, ?_, rfl, ?_, ?_⟩
    · exact Value.openAll_of_isScalar hTag hScalar
    · exact ⟨tag, hTag, hScalar⟩
    · exact ⟨hTag, _, hWell, hFront, rfl⟩
| .document fields, value, hShows => by
    rcases hShows.openDocument with
      ⟨⟨elements⟩, hOpen, hShow⟩
    rcases openAll_of_show hShow with
      ⟨opened, hOpened, hAll, hEncode⟩
    refine
      ⟨value.holding (.document ⟨opened⟩), ?_, rfl, hAll,
        hShows.tag_eq, hEncode⟩
    rw [Value.openAll_of_openDocument hShows.tag_eq hOpen,
      Document.openAll, hOpened]
    rfl
| .array fields, value, hShows => by
    rcases hShows.openArray with
      ⟨⟨elements⟩, hOpen, hShow⟩
    rcases openAll_of_show hShow with
      ⟨opened, hOpened, hAll, hEncode⟩
    have hValues := valuesEncode_of_elements hEncode 0
    rw [content_members] at hValues
    refine
      ⟨value.holding (.array ⟨opened⟩), ?_, rfl, hAll,
        hShows.tag_eq, hValues⟩
    rw [Value.openAll_of_openArray hShows.tag_eq hOpen,
      ArrayDoc.openAll, hOpened, ParseTree.content,
      Content.containers, ← content_members,
      itemContainers_map]
    rfl
| .code outer text scope, value, hShows => by
    rcases hShows.openScope with
      ⟨hText, hString, ⟨elements⟩, hOpen, hShow⟩
    rcases openAll_of_show hShow with
      ⟨opened, hOpened, hAll, hEncode⟩
    refine
      ⟨value.holding (.document ⟨opened⟩), ?_, rfl, hAll,
        hShows.tag_eq, rfl, hText, hString, hEncode⟩
    rw [Value.openAll_of_openScope hShows.tag_eq hOpen,
      Document.openAll, hOpened]
    rfl

/- So are all containers of elements, one by one. -/
theorem openAll_of_show :
    ∀ {fields : List ParseField} {elements : List Element},
      elementsShow elements fields →
      ∃ opened : List Element,
        visitAll Element.openAll id elements =
            (.ok (memberContainers (members fields)),
              opened) ∧
          elementsAllOpen opened ∧
          elementsEncode opened
            (canonicalFields (members fields))
| [], [], _ => ⟨[], rfl, trivial, trivial⟩
| ⟨key, tree⟩ :: fields, ⟨value⟩ :: rest,
    ⟨hKey, hShows, hMore⟩ => by
    rcases Value.openAll_of_shows hShows with
      ⟨first, hFirst, hPlace, hOpen, hEncodes⟩
    rcases openAll_of_show hMore with
      ⟨others, hOthers, hAll, hRest⟩
    have hSameKey : first.keyBytes? = some key := by
      rw [hPlace]
      exact hKey
    refine
      ⟨⟨first⟩ :: others, ?_, ⟨hOpen, hAll⟩, hSameKey,
        hEncodes, hRest⟩
    rw [visitAll, Element.openAll, hFirst]
    simp only [hOthers]
    rfl
| [], ⟨_⟩ :: _, hShow => hShow.elim
| ⟨_, _⟩ :: _, [], hShow => hShow.elim

end

end BsonView

------------------------------------------------------------
-- Canonical Encodings
------------------------------------------------------------

namespace BsonView

open Grammar

/-
  The canonical elements that say so are the only ones.
-/
theorem eq_canonicalFields_iff
    {found : List Member}
    {fields : List ParseField} :
    BodyCanonical fields ∧ members fields = found ↔
      fields = canonicalFields found := by
  constructor
  · intro hBoth
    rcases hBoth with ⟨hFields, rfl⟩
    exact hFields.eq_canonicalFields.symm
  · rintro rfl
    exact
      ⟨canonicalFields_canonical found,
        members_canonicalFields found⟩

/-
  A valid document in some bytes can be opened altogether.
  It is written canonically then, and says what it did.
-/
theorem Document.openAll_of_read
    {bytes : Bytes}
    {doc : Document}
    {n : Nat}
    (hRead : read bytes = .ok doc)
    (hValid : doc.validate = .ok n) :
    ∃ found opened,
      doc.Holds found ∧
        doc.openAll =
          (.ok (memberContainers found), opened) ∧
        opened.AllOpen ∧
        opened.Encodes (canonicalFields found) ∧
        bodyHeight (canonicalFields found) ≤
          Limits.standard.maxDepth := by
  rcases show_of_read hRead hValid with
    ⟨fields, _, _, hHeight, hShow⟩
  rcases openAll_of_show hShow with
    ⟨opened, hOpened, hAll, hEncode⟩
  rcases doc with ⟨elements⟩
  refine
    ⟨members fields, ⟨opened⟩, elementsHold_of_show hShow,
      ?_, hAll, hEncode, ?_⟩
  · rw [openAll, hOpened]
  · rw [bodyHeight_canonicalFields]
    exact hHeight

/-
  The encoding of a document reads as a document that is
  written the same when all of it is opened, if the encoding
  is canonical.
-/
theorem Document.openAll_of_canonical
    {found : List Member}
    (hFields : IsDocument (canonicalFields found))
    (hHeight :
      bodyHeight (canonicalFields found) ≤
        Limits.standard.maxDepth) :
    ∃ again opened,
      read (documentBytes (canonicalFields found)) =
          .ok again ∧
        again.openAll =
          (.ok (memberContainers found), opened) ∧
        opened.encode =
          .ok (documentBytes (canonicalFields found)) := by
  rcases read_show_of_isDocument hFields with
    ⟨⟨elements⟩, hRead, hShow⟩
  rcases openAll_of_show hShow with
    ⟨opened, hOpened, _, hEncode⟩
  rw [members_canonicalFields] at hOpened hEncode
  refine ⟨⟨elements⟩, ⟨opened⟩, hRead, ?_, ?_⟩
  · rw [openAll, hOpened]
  · exact Document.encode_eq_ok.mpr
      ⟨_, hEncode, hHeight, hFields.2, rfl⟩

/-
  Opening everything makes an encoding canonical. All
  containers in a valid document that was read can be
  opened, and the document goes on saying what it did. It
  measures as the one canonical encoding that says so: the
  keys of arrays are their indices, and all lengths are
  those of what they count. If that is not too long for its
  length field, the document encodes as it, and so does what
  is read out of it once all of that is opened. So two
  documents that say the same encode as the same bytes.
-/
theorem openAll_encodes_content :
    (∀ (bytes : Bytes) (doc : Document) (n : Nat),
      Document.read bytes = .ok doc →
        doc.validate = .ok n →
          ∃ found fields opened,
            (∀ held, doc.Holds held ↔ held = found) ∧
              (∀ written,
                BodyCanonical written ∧
                    members written = found ↔
                  written = fields) ∧
              doc.openAll =
                (.ok (memberContainers found), opened) ∧
              opened.AllOpen ∧
              (∀ held, opened.Holds held ↔ held = found) ∧
              opened.validate =
                .ok (documentBytes fields).length ∧
              ((documentBytes fields).length ≤
                  Word.maxLength →
                opened.encode = .ok (documentBytes fields) ∧
                  ∃ again reopened,
                    Document.read (documentBytes fields) =
                        .ok again ∧
                      again.openAll =
                        (.ok (memberContainers found),
                          reopened) ∧
                      reopened.encode =
                        .ok (documentBytes fields))) ∧
      ∀ (a b : Bytes) (docA docB : Document) (m n : Nat),
        Document.read a = .ok docA →
          docA.validate = .ok m →
            Document.read b = .ok docB →
              docB.validate = .ok n →
                (∀ held,
                  docA.Holds held ↔ docB.Holds held) →
                  ∀ bytes,
                    docA.openAll.2.encode = .ok bytes ↔
                      docB.openAll.2.encode = .ok bytes := by
  constructor
  · intro bytes doc n hRead hValid
    rcases Document.openAll_of_read hRead hValid with
      ⟨found, opened, hHolds, hOpened, hAll, hEncodes,
        hHeight⟩
    have hSame := Document.holds_of_encodes hEncodes
    rw [members_canonicalFields] at hSame
    refine
      ⟨found, canonicalFields found, opened,
        Document.holds_iff hHolds,
        fun _ => eq_canonicalFields_iff, hOpened, hAll,
        Document.holds_iff hSame,
        (Document.validateWith_eq_ok hEncodes).mpr
          ⟨rfl, hHeight⟩, ?_⟩
    intro hSmall
    have hFields :=
      Document.isDocument_of_encodes hEncodes hSmall
    exact
      ⟨Document.encode_eq_ok.mpr
          ⟨_, hEncodes, hHeight, hSmall, rfl⟩,
        Document.openAll_of_canonical hFields hHeight⟩
  · intro a b docA docB m n hReadA hValidA hReadB hValidB
      hSame bytes
    rcases Document.openAll_of_read hReadA hValidA with
      ⟨found, openedA, hHoldsA, hOpenedA, _, hEncodesA, _⟩
    rcases Document.openAll_of_read hReadB hValidB with
      ⟨held, openedB, hHoldsB, hOpenedB, _, hEncodesB, _⟩
    have hOne : found = held :=
      Document.holds_unique ((hSame found).mp hHoldsA)
        hHoldsB
    rw [hOne] at hEncodesA
    rw [hOpenedA, hOpenedB, Document.encode_eq_ok,
      Document.encode_eq_ok]
    simp only [Document.encodes_iff hEncodesA,
      Document.encodes_iff hEncodesB]

/- A key of an array that is not its index is not kept. -/
theorem stale_key_is_rewritten :
    ∃ doc,
      Document.read
          [16, 0, 0, 0, 4, 97, 0, 8, 0, 0, 0, 10, 55, 0, 0,
            0] = .ok doc ∧
        doc.openAll.1 = .ok 1 ∧
        doc.openAll.2.encode =
          .ok [16, 0, 0, 0, 4, 97, 0, 8, 0, 0, 0, 10, 48, 0,
            0, 0] := by
  have hNull : ScalarForm .null [] := .fixed (by decide) rfl
  have hFields :
      IsDocument
        [⟨[97], .array [⟨[55], .scalar .null []⟩]⟩] :=
    ⟨⟨by decide, ⟨⟨by decide, hNull, trivial⟩, by decide⟩,
      trivial⟩, by decide⟩
  have hDigits : Index.digits 0 = [48] :=
    Index.digits_of_lt (by decide)
  have hCanonical :
      BodyCanonical
        [⟨[97], .array [⟨[48], .scalar .null []⟩]⟩] :=
    ⟨⟨hDigits.symm, trivial, trivial⟩, trivial⟩
  rcases Document.read_of_isDocument hFields with
    ⟨doc, hRead, hHolds⟩
  have hValid : doc.validate = .ok 16 := by
    unfold Document.validate
    rw [Document.validateWith_of_read hRead]
    decide
  rcases openAll_encodes_content.1 _ doc 16 hRead
      hValid with
    ⟨found, fields, opened, hFound, hOnly, hOpened, _, _, _,
      hWritten⟩
  have hSays := (hFound _).mp hHolds
  have hOne := (hOnly _).mp ⟨hCanonical, hSays⟩
  rw [← hOne] at hWritten
  rcases hWritten (by decide) with ⟨hEncode, _⟩
  refine ⟨doc, hRead, ?_, ?_⟩
  · rw [hOpened, ← hSays]
    rfl
  · rw [hOpened]
    exact hEncode

end BsonView
