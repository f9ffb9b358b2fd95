import BsonView.Proofs.Opening.Paths
import BsonView.Proofs.Reading.Containers
import BsonView.Proofs.Reading.Measures
import BsonView.Proofs.Views.Canonical
import BsonView.Proofs.Writing.Exactness

/-
  Opening what is canonical.

  A container that is opened is written anew, and one that
  is not is copied. Where the keys of arrays are their
  indices and outer lengths agree, both give the same bytes,
  so no one can tell from an encoding what has been opened.

  Main declarations:
    * `Value.Shows.encodes`
    * `elementsEncode_of_show`
    * `valuesEncode_of_show`
    * `View.WrittenAs`
    * `View.writtenAs_of_opens`
    * `canonical_bytes_survive_opening`
-/

------------------------------------------------------------
-- Containers In Buffers
------------------------------------------------------------

namespace BsonView

open Grammar

/- What a value shows is what it is written as. -/
theorem Value.Shows.encodes
    {value : Value}
    {tree : ParseTree}
    (hShows : value.Shows tree)
    (hTree : tree.Canonical) :
    value.Encodes tree := by
  rw [← hTree.agreeing_eq]
  exact hShows.encodes_agreeing

/- Elements are written as they show in a buffer. -/
theorem elementsEncode_of_show :
    ∀ {elements : List Element} {fields : List ParseField},
      elementsShow elements fields →
      BodyCanonical fields →
      elementsEncode elements fields
| [], [], _, _ => trivial
| ⟨_⟩ :: _, ⟨_, _⟩ :: _, ⟨hKey, hShows, hMore⟩,
    ⟨hTree, hRest⟩ =>
    ⟨hKey, hShows.encodes hTree,
      elementsEncode_of_show hMore hRest⟩
| [], ⟨_, _⟩ :: _, hShow, _ => hShow.elim
| ⟨_⟩ :: _, [], hShow, _ => hShow.elim

/- So are values if their indices are their keys. -/
theorem valuesEncode_of_show
    {index : Nat} :
    ∀ {elements : List Element} {fields : List ParseField},
      elementsShow elements fields →
      ItemsCanonical index fields →
      valuesEncode index elements fields
| [], [], _, _ => trivial
| ⟨_⟩ :: _, ⟨_, _⟩ :: _, ⟨hOwn, hShows, hMore⟩,
    ⟨hKey, hTree, hRest⟩ =>
    ⟨hKey, ⟨_, hOwn⟩, hShows.encodes hTree,
      valuesEncode_of_show hMore hRest⟩
| [], ⟨_, _⟩ :: _, hShow, _ => hShow.elim
| ⟨_⟩ :: _, [], hShow, _ => hShow.elim

end BsonView

------------------------------------------------------------
-- One Container
------------------------------------------------------------

namespace BsonView

open Grammar

namespace Value

variable {value : Value} {tree : ParseTree}

/-
  A value with a canonical encoding keeps it when its
  document is opened and keeps its own.
-/
theorem encodes_of_openDocument
    {doc changed : Document}
    (hOpen : value.openDocument = .ok doc)
    (hTree : tree.Canonical)
    (hValue : value.Encodes tree)
    (hChanged :
      ∀ fields, BodyCanonical fields →
        doc.Encodes fields → changed.Encodes fields) :
    (value.holding (.document changed)).Encodes tree := by
  rcases value with ⟨place, payload⟩
  rcases bind_eq_ok.mp hOpen with ⟨⟨⟩, hCheck, hFound⟩
  have hTag := Place.checkTag_eq_ok.mp hCheck
  rcases hValue with ⟨hOwn, hPayload⟩
  have hSame := Except.ok.inj (hTag.symm.trans hOwn)
  cases payload with
  | raw =>
      rcases hPayload with ⟨found, hWell, hFront, rfl⟩
      rw [ParseTree.tag_agreeing] at hSame
      rcases hWell.document_of_tag hSame.symm with
        ⟨fields, rfl⟩
      rcases Shows.openDocument
          ⟨rfl, hTag, hWell, hFront⟩ with
        ⟨⟨elements⟩, hThere, hShow⟩
      cases hOpen.symm.trans hThere
      exact
        ⟨hTag, hChanged fields hTree
          (elementsEncode_of_show hShow hTree)⟩
  | document opened =>
      cases hFound
      cases tree with
      | document fields =>
          exact ⟨hTag, hChanged fields hTree hPayload⟩
      | code outer text scope => cases hSame
      | scalar tag bytes => exact hPayload.elim
      | array fields => exact hPayload.elim
  | array opened => cases hFound

/- So it does when its array is opened. -/
theorem encodes_of_openArray
    {array changed : ArrayDoc}
    (hOpen : value.openArray = .ok array)
    (hTree : tree.Canonical)
    (hValue : value.Encodes tree)
    (hChanged :
      ∀ fields, ItemsCanonical 0 fields →
        array.Encodes fields → changed.Encodes fields) :
    (value.holding (.array changed)).Encodes tree := by
  rcases value with ⟨place, payload⟩
  rcases bind_eq_ok.mp hOpen with ⟨⟨⟩, hCheck, hFound⟩
  have hTag := Place.checkTag_eq_ok.mp hCheck
  rcases hValue with ⟨hOwn, hPayload⟩
  have hSame := Except.ok.inj (hTag.symm.trans hOwn)
  cases payload with
  | raw =>
      rcases hPayload with ⟨found, hWell, hFront, rfl⟩
      rw [ParseTree.tag_agreeing] at hSame
      rcases hWell.array_of_tag hSame.symm with
        ⟨fields, rfl⟩
      rcases Shows.openArray
          ⟨rfl, hTag, hWell, hFront⟩ with
        ⟨⟨elements⟩, hThere, hShow⟩
      cases hOpen.symm.trans hThere
      exact
        ⟨hTag, hChanged fields hTree
          (valuesEncode_of_show hShow hTree)⟩
  | array opened =>
      cases hFound
      cases tree with
      | array fields =>
          exact ⟨hTag, hChanged fields hTree hPayload⟩
      | scalar tag bytes => exact hPayload.elim
      | document fields => exact hPayload.elim
      | code outer text scope => exact hPayload.elim
  | document opened => cases hFound

/- So it does when its scope is opened. -/
theorem encodes_of_openScope
    {scope changed : Document}
    (hOpen : value.openScope = .ok scope)
    (hTree : tree.Canonical)
    (hValue : value.Encodes tree)
    (hChanged :
      ∀ fields, BodyCanonical fields →
        scope.Encodes fields → changed.Encodes fields) :
    (value.holding (.document changed)).Encodes tree := by
  rcases value with ⟨place, payload⟩
  rcases bind_eq_ok.mp hOpen with ⟨⟨⟩, hCheck, hFound⟩
  have hTag := Place.checkTag_eq_ok.mp hCheck
  rcases hValue with ⟨hOwn, hPayload⟩
  have hSame := Except.ok.inj (hTag.symm.trans hOwn)
  cases payload with
  | raw =>
      rcases hPayload with ⟨found, hWell, hFront, rfl⟩
      rw [ParseTree.tag_agreeing] at hSame
      rcases hWell.code_of_tag hSame.symm with
        ⟨outer, text, fields, rfl⟩
      rcases Shows.openScope
          ⟨rfl, hTag, hWell, hFront⟩ with
        ⟨hText, hString, ⟨elements⟩, hThere, hShow⟩
      cases hOpen.symm.trans hThere
      exact
        ⟨hTag, rfl, hText, hString,
          hChanged fields hTree.2
            (elementsEncode_of_show hShow hTree.2)⟩
  | document opened =>
      cases hFound
      cases tree with
      | code outer text fields =>
          rcases hPayload with
            ⟨hOuter, hText, hString, hScope⟩
          exact
            ⟨hTag, hOuter, hText, hString,
              hChanged fields hTree.2 hScope⟩
      | document fields => cases hSame
      | scalar tag bytes => exact hPayload.elim
      | array fields => exact hPayload.elim
  | array opened => cases hFound

end Value

end BsonView

------------------------------------------------------------
-- Openings Inside Views
------------------------------------------------------------

namespace BsonView

open Grammar

/-
  In place of an element goes one with its key that encodes
  what it does.
-/
theorem elementsEncode_set
    {value changed : Value}
    (hPlace : changed.toPlace = value.toPlace)
    (hEncodes :
      ∀ tree : ParseTree, tree.Canonical →
        value.Encodes tree → changed.Encodes tree) :
    ∀ {elements : List Element} {fields : List ParseField}
      {index : Nat},
      elements[index]? = some ⟨value⟩ →
      BodyCanonical fields →
      elementsEncode elements fields →
      elementsEncode (elements.set index ⟨changed⟩) fields
| [], _, _, hElement, _, _ => by cases hElement
| ⟨first⟩ :: rest, ⟨key, tree⟩ :: fields, index, hElement,
    ⟨hTree, hRest⟩, ⟨hKey, hFirst, hMore⟩ => by
    cases index with
    | zero =>
        cases hElement
        have hSameKey : changed.keyBytes? = some key := by
          rw [hPlace]
          exact hKey
        exact ⟨hSameKey, hEncodes tree hTree hFirst, hMore⟩
    | succ index =>
        exact
          ⟨hKey, hFirst,
            elementsEncode_set hPlace hEncodes hElement
              hRest hMore⟩
| ⟨_⟩ :: _, [], _, _, _, hMore => hMore.elim

/- So it is among the values of an array. -/
theorem valuesEncode_set
    {value changed : Value}
    (hPlace : changed.toPlace = value.toPlace)
    (hEncodes :
      ∀ tree : ParseTree, tree.Canonical →
        value.Encodes tree → changed.Encodes tree) :
    ∀ {elements : List Element} {fields : List ParseField}
      {place index : Nat},
      elements[place]? = some ⟨value⟩ →
      ItemsCanonical index fields →
      valuesEncode index elements fields →
      valuesEncode index (elements.set place ⟨changed⟩)
        fields
| [], _, _, _, hElement, _, _ => by cases hElement
| ⟨first⟩ :: rest, ⟨key, tree⟩ :: fields, place, index,
    hElement, ⟨_, hTree, hRest⟩,
    ⟨hKey, ⟨own, hOwn⟩, hFirst, hMore⟩ => by
    cases place with
    | zero =>
        cases hElement
        have hSameKey : changed.keyBytes? = some own := by
          rw [hPlace]
          exact hOwn
        exact
          ⟨hKey, ⟨own, hSameKey⟩,
            hEncodes tree hTree hFirst, hMore⟩
    | succ place =>
        exact
          ⟨hKey, ⟨own, hOwn⟩, hFirst,
            valuesEncode_set hPlace hEncodes hElement hRest
              hMore⟩
| ⟨_⟩ :: _, [], _, _, _, _, hMore => hMore.elim

namespace View

/- What a view is written as, its own key apart. -/
def Encodes : View → ParseTree → Prop
| .document d, .document fields => d.Encodes fields
| .array a, .array fields => a.Encodes fields
| .element e, tree => e.value.Encodes tree
| .value v, tree => v.Encodes tree
| _, _ => False

/-
  Two views are at the same place, if at any, and what is
  canonical about the first is about the second.
-/
structure WrittenAs (view changed : View) : Prop where
  place_eq : changed.place? = view.place?
  encodes :
    ∀ tree : ParseTree, tree.Canonical →
      view.Encodes tree → changed.Encodes tree

/-
  Opening containers inside a view that has a canonical
  encoding keeps that encoding.
-/
theorem writtenAs_of_opens
    {Allowed : ArrayDoc → Prop}
    {view changed : View}
    (hOpens : Opens Allowed view changed) :
    view.WrittenAs changed := by
  induction hOpens with
  | unchanged view => exact ⟨rfl, fun _ _ => id⟩
  | @member doc index element changed hElement _ ih =>
      refine ⟨rfl, ?_⟩
      intro tree hTree hDoc
      rcases doc with ⟨elements⟩
      rcases element with ⟨value⟩
      rcases changed with ⟨other⟩
      cases tree with
      | document fields =>
          exact
            elementsEncode_set (Option.some.inj ih.place_eq)
              ih.encodes hElement hTree hDoc
      | _ => exact hDoc.elim
  | @item array index value changed hValue _ ih =>
      refine ⟨rfl, ?_⟩
      intro tree hTree hArray
      rcases array with ⟨elements⟩
      rcases Option.map_eq_some_iff.mp hValue with
        ⟨⟨own⟩, hElement, rfl⟩
      cases tree with
      | array fields =>
          exact
            valuesEncode_set (Option.some.inj ih.place_eq)
              ih.encodes hElement hTree hArray
      | _ => exact hArray.elim
  | element _ ih => exact ⟨ih.place_eq, ih.encodes⟩
  | document hOpen _ ih =>
      refine ⟨rfl, ?_⟩
      intro tree hTree hValue
      exact
        Value.encodes_of_openDocument hOpen hTree hValue
          (fun fields => ih.encodes (.document fields))
  | array hOpen _ _ ih =>
      refine ⟨rfl, ?_⟩
      intro tree hTree hValue
      exact
        Value.encodes_of_openArray hOpen hTree hValue
          (fun fields => ih.encodes (.array fields))
  | scope hOpen _ ih =>
      refine ⟨rfl, ?_⟩
      intro tree hTree hValue
      exact
        Value.encodes_of_openScope hOpen hTree hValue
          (fun fields => ih.encodes (.document fields))

end View

/-
  Opening keeps canonical bytes. Bytes that are read as a
  document, a valid one, are the encoding of one. If that is
  canonical, with indices for keys in all arrays and outer
  lengths that agree in all codes with scope, the document
  encodes as the same bytes whatever containers in it are
  opened, along any paths in any order.
-/
theorem canonical_bytes_survive_opening :
    ∀ (bytes : Bytes) (doc : Document) (n : Nat),
      Document.read bytes = .ok doc →
        doc.validate = .ok n →
          (∃ fields,
            IsDocument fields ∧
              documentBytes fields = bytes) ∧
            ∀ fields,
              IsDocument fields →
                documentBytes fields = bytes →
                  BodyCanonical fields →
                    ∀ paths, ∃ opened,
                      (View.document doc).openEach paths =
                          .document opened ∧
                        opened.encode = .ok bytes := by
  intro bytes doc n hRead hValid
  rcases Document.show_of_read hRead hValid with
    ⟨own, hOwn, hBytes, hHeight, hShow⟩
  refine ⟨⟨own, hOwn, hBytes⟩, ?_⟩
  intro fields hFields hSame hCanonical paths
  have hOne : own = fields :=
    hOwn.eq_of_fronts hFields (List.prefix_refl _)
      (by
        rw [hSame, hBytes])
  rw [hOne] at hHeight hShow
  have hDoc : doc.Encodes fields := by
    rcases doc with ⟨elements⟩
    exact elementsEncode_of_show hShow hCanonical
  have hStep {found changed : Document}
      (hOpens :
        View.Opens (fun _ => True) (.document found)
          (.document changed))
      (hFound : found.Encodes fields) :
      changed.Encodes fields :=
    (View.writtenAs_of_opens hOpens).encodes
      (.document fields) hCanonical hFound
  have hAll :=
    View.decodesOnlyEach_of_forall
      (fun _ : ArrayDoc => trivial) paths (.document doc)
  rcases View.openEach_document hStep hAll hDoc with
    ⟨opened, hOpened, hEncodes⟩
  refine ⟨opened, hOpened, ?_⟩
  exact Document.encode_eq_ok.mpr
    ⟨fields, hEncodes, hHeight, hFields.2, hSame.symm⟩

/- An array that is opened in a document is written back. -/
theorem array_bytes_survive_opening :
    ∃ doc opened,
      Document.read
          [16, 0, 0, 0, 4, 97, 0, 8, 0, 0, 0, 10, 48, 0, 0,
            0] = .ok doc ∧
        (View.document doc).openEach
            [[.index 0, .array]] = .document opened ∧
        opened.encode =
          .ok [16, 0, 0, 0, 4, 97, 0, 8, 0, 0, 0, 10, 48, 0,
            0, 0] := by
  have hNull : ScalarForm .null [] := .fixed (by decide) rfl
  have hFields :
      IsDocument
        [⟨[97], .array [⟨[48], .scalar .null []⟩]⟩] :=
    ⟨⟨by decide, ⟨⟨by decide, hNull, trivial⟩, by decide⟩,
      trivial⟩, by decide⟩
  have hDigits : Index.digits 0 = [48] :=
    Index.digits_of_lt (by decide)
  have hCanonical :
      BodyCanonical
        [⟨[97], .array [⟨[48], .scalar .null []⟩]⟩] :=
    ⟨⟨hDigits.symm, trivial, trivial⟩, trivial⟩
  rcases Document.read_show_of_isDocument hFields with
    ⟨doc, hRead, _⟩
  have hValid : doc.validate = .ok 16 := by
    unfold Document.validate
    rw [Document.validateWith_of_read hRead]
    decide
  rcases (canonical_bytes_survive_opening _ doc 16 hRead
      hValid).2 _ hFields rfl hCanonical
      [[.index 0, .array]] with
    ⟨opened, hOpened, hEncode⟩
  exact ⟨doc, opened, hRead, hOpened, hEncode⟩

end BsonView
