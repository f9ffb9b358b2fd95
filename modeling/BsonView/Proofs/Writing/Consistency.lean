import BsonView.Proofs.Opening.Steps
import BsonView.Proofs.Views.Observers
import BsonView.Proofs.Writing.Rewriting

/-
  Outer lengths in what is written.

  A code with scope is written with an outer length that
  agrees with its string and its scope, also where that of
  its buffer does not, if it is an element of the document
  or of a container that is held opened. What is not opened
  is copied as it stands, with all that is inside it.

  Main declarations:
    * `Value.OuterAgrees`
    * `Value.WrittenAs`
    * `View.EntersOpened`
    * `View.ReadAs`
    * `View.readAs_of_follow`
    * `written_outer_lengths_agree`
    * `unopened_code_keeps_outer_length`
-/

------------------------------------------------------------
-- Values That Are Written
------------------------------------------------------------

namespace BsonView

open Grammar

namespace Value

/-
  The outer length of a code with scope is four, the length
  of its string and that of its scope taken together.
-/
def OuterAgrees (value : Value) : Prop :=
  ∃ code scope,
    Framing.stringLength (value.rest.drop 4) = .ok code ∧
      Framing.documentLength (value.rest.drop (4 + code)) =
        .ok scope ∧
      Word.readLength value.rest = .ok (4 + code + scope)

/-
  How a value is found in what is written: with its type,
  and with an outer length that agrees if that is a code
  with scope. If it is not opened all bytes of its payload
  are there as they were, but for an outer length.
-/
structure WrittenAs (value copy : Value) : Prop where
  tag_eq : copy.tag = value.tag
  agrees :
    copy.tag = .ok .codeWithScope → copy.OuterAgrees
  verbatim :
    value.payload = .raw →
      ∃ tag own,
        value.tag = .ok tag ∧
          value.payloadBytes = .ok own ∧
          copy.payloadBytes =
            .ok (if tag = .codeWithScope then
              Word.ofLength own.length ++ own.drop 4
            else own)

/-
  A code with scope agrees where the one it shows does and
  fits.
-/
theorem outerAgrees_of_shows
    {value : Value}
    {outer text : Bytes}
    {scope : List ParseField}
    (hShows : value.Shows (.code outer text scope))
    (hFits : (ParseTree.code outer text scope).Fits)
    (hOuter : outer = outerField text scope) :
    value.OuterAgrees := by
  rcases hShows.code_parts with ⟨hFront, hString, hScope⟩
  have hSmall := hFits.length_le rfl
  rw [length_code_bytes hShows.wellFormed.1] at hSmall
  rw [hOuter] at hFront
  exact
    ⟨_, _, hString, hScope,
      Word.readLength_eq_ok.mpr ⟨hSmall, hFront⟩⟩

/-
  Where the outer length of a code with scope is made to
  agree it is written over the first four bytes.
-/
theorem bytes_agreeing
    {tree : ParseTree}
    (hTree : tree.WellFormed) :
    tree.agreeing.bytes =
      if tree.tag = .codeWithScope then
        Word.ofLength tree.bytes.length ++
          tree.bytes.drop 4
      else tree.bytes := by
  cases tree with
  | code outer text scope =>
      have hTag :
          (ParseTree.code outer text scope).tag =
            .codeWithScope := rfl
      rw [if_pos hTag, length_code_bytes hTree.1,
        ParseTree.agreeing, ParseTree.bytes,
        ParseTree.bytes, List.drop_left' hTree.1]
      rfl
  | scalar tag bytes =>
      have hScalar : tag.isScalar = true :=
        ScalarForm.isScalar hTree
      rw [if_neg]
      · rfl
      · rintro rfl
        cases hScalar
  | document fields => rfl
  | array fields => rfl

/-
  A value is found as a copy that shows what the value
  encodes.
-/
theorem writtenAs_of_shows
    {value copy : Value}
    {tree : ParseTree}
    (hValue : value.Encodes tree)
    (hCopy : copy.Shows tree)
    (hFits : tree.Fits) :
    value.WrittenAs copy := by
  have hTag := tag_of_encodes hValue
  refine ⟨hCopy.tag_eq.trans hTag.symm, ?_, ?_⟩
  · intro hCode
    rcases hCopy.wellFormed.code_of_tag
        (Except.ok.inj (hCopy.tag_eq.symm.trans hCode)) with
      ⟨outer, text, scope, rfl⟩
    have hOuter := agreeing_of_encodes hValue
    rw [ParseTree.agreeing] at hOuter
    injection hOuter with hOuter
    exact outerAgrees_of_shows hCopy hFits hOuter.symm
  · intro hRaw
    rcases value with ⟨place, payload⟩
    cases hRaw
    rcases hValue with ⟨_, found, hFound, hFront, rfl⟩
    rw [ParseTree.tag_agreeing] at hTag
    have hOwn : Shows ⟨place, .raw⟩ found :=
      ⟨rfl, hTag, hFound, hFront⟩
    refine
      ⟨found.tag, found.bytes, hTag, hOwn.payloadBytes, ?_⟩
    rw [hCopy.payloadBytes, bytes_agreeing hFound]

end Value

end BsonView

------------------------------------------------------------
-- Opened Containers
------------------------------------------------------------

namespace BsonView

open Grammar

namespace Value

variable
  {value : Value}
  {tree : ParseTree}
  (hEncodes : value.Encodes tree)
  (hOpened : value.payload ≠ .raw)

include hEncodes hOpened

/- What is held opened is written as what it encodes. -/
theorem document_of_encodes
    {doc : Document}
    (hOpen : value.openDocument = .ok doc) :
    ∃ fields, tree = .document fields ∧
      doc.Encodes fields := by
  rcases value with ⟨place, payload⟩
  rcases bind_eq_ok.mp hOpen with ⟨⟨⟩, hCheck, hFound⟩
  have hTag := Place.checkTag_eq_ok.mp hCheck
  rcases hEncodes with ⟨hOwn, hPayload⟩
  have hSame := Except.ok.inj (hTag.symm.trans hOwn)
  cases payload with
  | raw => exact absurd rfl hOpened
  | document own =>
      cases hFound
      cases tree with
      | document fields => exact ⟨fields, rfl, hPayload⟩
      | code outer text scope => cases hSame
      | scalar tag bytes => exact hPayload.elim
      | array fields => exact hPayload.elim
  | array own => cases hFound

theorem array_of_encodes
    {array : ArrayDoc}
    (hOpen : value.openArray = .ok array) :
    ∃ fields, tree = .array fields ∧
      array.Encodes fields := by
  rcases value with ⟨place, payload⟩
  rcases bind_eq_ok.mp hOpen with ⟨⟨⟩, _, hFound⟩
  rcases hEncodes with ⟨_, hPayload⟩
  cases payload with
  | raw => exact absurd rfl hOpened
  | array own =>
      cases hFound
      cases tree with
      | array fields => exact ⟨fields, rfl, hPayload⟩
      | _ => exact hPayload.elim
  | document own => cases hFound

theorem scope_of_encodes
    {scope : Document}
    (hOpen : value.openScope = .ok scope) :
    ∃ outer text fields, tree = .code outer text fields ∧
      scope.Encodes fields := by
  rcases value with ⟨place, payload⟩
  rcases bind_eq_ok.mp hOpen with ⟨⟨⟩, hCheck, hFound⟩
  have hTag := Place.checkTag_eq_ok.mp hCheck
  rcases hEncodes with ⟨hOwn, hPayload⟩
  have hSame := Except.ok.inj (hTag.symm.trans hOwn)
  cases payload with
  | raw => exact absurd rfl hOpened
  | document own =>
      cases hFound
      cases tree with
      | code outer text fields =>
          rcases hPayload with ⟨_, _, _, hScope⟩
          exact ⟨outer, text, fields, rfl, hScope⟩
      | document fields => cases hSame
      | scalar tag bytes => exact hPayload.elim
      | array fields => exact hPayload.elim
  | array own => cases hFound

end Value

end BsonView

------------------------------------------------------------
-- Elements In Pairs
------------------------------------------------------------

namespace BsonView

open Grammar

/- An element of a document is written as its field. -/
theorem elementsEncode_getElem? :
    ∀ {elements : List Element} {fields : List ParseField}
      {index : Nat} {element : Element},
      elementsEncode elements fields →
      elements[index]? = some element →
      ∃ field, fields[index]? = some field ∧
        element.value.Encodes field.tree
| ⟨value⟩ :: rest, ⟨key, tree⟩ :: fields, 0, _,
    ⟨_, hTree, _⟩, hElement => by
    cases hElement
    exact ⟨⟨key, tree⟩, rfl, hTree⟩
| ⟨_⟩ :: rest, ⟨_, _⟩ :: fields, index + 1, _,
    ⟨_, _, hMore⟩, hElement => by
    rw [List.getElem?_cons_succ] at hElement ⊢
    exact elementsEncode_getElem? hMore hElement
| [], _, _, _, _, hElement => by cases hElement
| ⟨_⟩ :: _, [], _, _, hEncode, _ => hEncode.elim

/- So is a value of an array. -/
theorem valuesEncode_getElem? :
    ∀ {elements : List Element} {fields : List ParseField}
      {first index : Nat} {element : Element},
      valuesEncode first elements fields →
      elements[index]? = some element →
      ∃ field, fields[index]? = some field ∧
        element.value.Encodes field.tree
| ⟨value⟩ :: rest, ⟨key, tree⟩ :: fields, _, 0, _,
    ⟨_, _, hTree, _⟩, hElement => by
    cases hElement
    exact ⟨⟨key, tree⟩, rfl, hTree⟩
| ⟨_⟩ :: rest, ⟨_, _⟩ :: fields, _, index + 1, _,
    ⟨_, _, _, hMore⟩, hElement => by
    rw [List.getElem?_cons_succ] at hElement ⊢
    exact valuesEncode_getElem? hMore hElement
| [], _, _, _, _, _, hElement => by cases hElement
| ⟨_⟩ :: _, [], _, _, _, hEncode, _ => hEncode.elim

/- A field shows in an element that is read. -/
theorem elementsShow_getElem? :
    ∀ {elements : List Element} {fields : List ParseField}
      {index : Nat} {field : ParseField},
      elementsShow elements fields →
      fields[index]? = some field →
      ∃ element, elements[index]? = some element ∧
        element.value.Shows field.tree
| ⟨value⟩ :: rest, ⟨key, tree⟩ :: fields, 0, _,
    ⟨_, hTree, _⟩, hField => by
    cases hField
    exact ⟨⟨value⟩, rfl, hTree⟩
| ⟨_⟩ :: rest, ⟨_, _⟩ :: fields, index + 1, _,
    ⟨_, _, hMore⟩, hField => by
    rw [List.getElem?_cons_succ] at hField ⊢
    exact elementsShow_getElem? hMore hField
| _, [], _, _, _, hField => by cases hField
| [], ⟨_, _⟩ :: _, _, _, hShow, _ => hShow.elim

/- Elements are read with the keys they are written with. -/
theorem keys_of_encode_of_show
    {elements others : List Element}
    {fields : List ParseField}
    (hEncode : elementsEncode elements fields)
    (hShow : elementsShow others fields) :
    others.map Element.key? = elements.map Element.key? := by
  have hEntries :=
    (entries_of_show hShow).trans
      (entries_of_hold (elementsHold_of_encode hEncode)).symm
  have hKeys := congrArg (List.map Entry.key?) hEntries
  rw [List.map_map, List.map_map] at hKeys
  exact hKeys

/- A key is found where it is among the keys. -/
theorem Document.position?_congr
    {a b : Document}
    (hKeys :
      a.elements.map Element.key? =
        b.elements.map Element.key?)
    (key : String) :
    a.position? key = b.position? key := by
  have hMap (doc : Document) :
      doc.position? key =
        (doc.elements.map Element.key?).findIdx?
          (· == some key) := by
    rw [List.findIdx?_map]
    rfl
  rw [hMap, hMap, hKeys]

end BsonView

------------------------------------------------------------
-- Paths Through Opened Containers
------------------------------------------------------------

namespace BsonView

open Grammar

namespace PathStep

/- The step leads into a container. -/
def entersContainer : PathStep → Bool
| .document | .array | .scope => true
| _ => false

end PathStep

namespace View

/- Every container on the path is held opened. -/
def EntersOpened : List PathStep → View → Prop
| [], _ => True
| step :: rest, view =>
    (step.entersContainer = true →
      ∀ value, view.value? = some value →
        value.payload ≠ .raw) ∧
    ∀ inner putBack,
      view.follow step = .ok (inner, putBack) →
        EntersOpened rest inner

/-
  The second view is read where the first one is written:
  both go with the same part of the encoding.
-/
def ReadAs : View → View → Prop
| .document doc, .document again =>
    ∃ fields, doc.Encodes fields ∧ IsDocument fields ∧
      elementsShow again.elements fields
| .array items, .array again =>
    ∃ fields, items.Encodes fields ∧ IsDocument fields ∧
      elementsShow again.elements fields
| .element e, .element again =>
    ∃ tree : ParseTree, e.value.Encodes tree ∧ tree.Fits ∧
      again.value.Shows tree
| .value v, .value again =>
    ∃ tree : ParseTree, v.Encodes tree ∧ tree.Fits ∧
      again.Shows tree
| _, _ => False

variable {view again : View}

/- The value of a view is read where the view is. -/
theorem ReadAs.value?
    {value : Value}
    (hRead : view.ReadAs again)
    (hValue : view.value? = some value) :
    ∃ copy tree, again.value? = some copy ∧
      value.Encodes tree ∧ tree.Fits ∧ copy.Shows tree := by
  rcases value?_eq_some.mp hValue with rfl | rfl
  · cases again with
    | value other =>
        rcases hRead with ⟨tree, hTree, hFits, hShows⟩
        exact ⟨other, tree, rfl, hTree, hFits, hShows⟩
    | _ => exact hRead.elim
  · cases again with
    | element other =>
        rcases hRead with ⟨tree, hTree, hFits, hShows⟩
        exact
          ⟨other.value, tree, rfl, hTree, hFits, hShows⟩
    | _ => exact hRead.elim

/- The element at a position is read at that position. -/
theorem ReadAs.element
    {doc : Document}
    {index : Nat}
    {element : Element}
    (hRead : (View.document doc).ReadAs again)
    (hElement : doc.elements[index]? = some element) :
    ∃ copy other,
      again = .document other ∧
        other.elements.map Element.key? =
          doc.elements.map Element.key? ∧
        other.elements[index]? = some copy ∧
        (View.element element).ReadAs (.element copy) := by
  cases again with
  | document other =>
      rcases doc with ⟨elements⟩
      rcases hRead with ⟨fields, hDoc, hFields, hShow⟩
      rcases elementsEncode_getElem? hDoc hElement with
        ⟨field, hField, hTree⟩
      rcases elementsShow_getElem? hShow hField with
        ⟨copy, hCopy, hShows⟩
      have hFits :=
        bodyFits_of_document hFields.2 field
          (List.mem_of_getElem? hField)
      exact
        ⟨copy, other, rfl,
          keys_of_encode_of_show hDoc hShow, hCopy,
          field.tree, hTree, hFits, hShows⟩
  | _ => exact hRead.elim

/- So is the value at an index. -/
theorem ReadAs.item
    {array : ArrayDoc}
    {index : Nat}
    {value : Value}
    (hRead : (View.array array).ReadAs again)
    (hValue : array.get? index = some value) :
    ∃ copy other,
      again = .array other ∧
        other.get? index = some copy ∧
        (View.value value).ReadAs (.value copy) := by
  cases again with
  | array other =>
      rcases array with ⟨elements⟩
      rcases hRead with ⟨fields, hArray, hFields, hShow⟩
      rcases Option.map_eq_some_iff.mp hValue with
        ⟨element, hElement, rfl⟩
      rcases valuesEncode_getElem? hArray hElement with
        ⟨field, hField, hTree⟩
      rcases elementsShow_getElem? hShow hField with
        ⟨copy, hCopy, hShows⟩
      have hFits :=
        bodyFits_of_document hFields.2 field
          (List.mem_of_getElem? hField)
      exact
        ⟨copy.value, other, rfl,
          Option.map_eq_some_iff.mpr ⟨copy, hCopy, rfl⟩,
          field.tree, hTree, hFits, hShows⟩
  | _ => exact hRead.elim

/- No other step enters a container. -/
theorem entersContainer_of_enter
    {step : PathStep}
    {value : Value}
    {inner : View}
    (hEnter : enter step value = .ok inner) :
    step.entersContainer = true := by
  cases step with
  | document | array | scope => rfl
  | key | index | value => cases hEnter

/- A container is entered through the value of a view. -/
theorem follow_of_enters
    {step : PathStep}
    (hEnters : step.entersContainer = true)
    (view : View) :
    view.follow step =
      match view.value? with
      | some v => do
          let inner ← enter step v
          return (inner, putContainer view v)
      | none => .error (.missing step) := by
  cases step with
  | document | array | scope => rfl
  | key | index | value => cases hEnters

/- What is held opened is read where it is written. -/
theorem readAs_of_enter
    {step : PathStep}
    {value copy : Value}
    {tree : ParseTree}
    {inner : View}
    (hValue : value.Encodes tree)
    (hCopy : copy.Shows tree)
    (hOpened : value.payload ≠ .raw)
    (hEnter : enter step value = .ok inner) :
    ∃ other, enter step copy = .ok other ∧
      inner.ReadAs other := by
  have hWell := hCopy.wellFormed
  unfold enter at hEnter ⊢
  split at hEnter
  · rcases bind_eq_ok.mp (mapError_eq_ok.mp hEnter) with
      ⟨doc, hOpen, hDone⟩
    cases hDone
    rcases Value.document_of_encodes hValue hOpened hOpen
      with ⟨fields, rfl, hDoc⟩
    rcases hCopy.openDocument with ⟨other, hOther, hShow⟩
    refine ⟨.document other, ?_, fields, hDoc, hWell, hShow⟩
    rw [hOther]
    rfl
  · rcases bind_eq_ok.mp (mapError_eq_ok.mp hEnter) with
      ⟨array, hOpen, hDone⟩
    cases hDone
    rcases Value.array_of_encodes hValue hOpened hOpen with
      ⟨fields, rfl, hArray⟩
    rcases hCopy.openArray with ⟨other, hOther, hShow⟩
    refine ⟨.array other, ?_, fields, hArray, hWell, hShow⟩
    rw [hOther]
    rfl
  · rcases bind_eq_ok.mp (mapError_eq_ok.mp hEnter) with
      ⟨scope, hOpen, hDone⟩
    cases hDone
    rcases Value.scope_of_encodes hValue hOpened hOpen with
      ⟨outer, text, fields, rfl, hScope⟩
    rcases hCopy.openScope with ⟨_, _, other, hOther, hShow⟩
    refine
      ⟨.document other, ?_, fields, hScope, hWell.2.2,
        hShow⟩
    rw [hOther]
    rfl
  · cases hEnter

/-
  A step that enters no container but opened ones can be
  taken in what is read, too, and leads to what is read
  there.
-/
theorem readAs_of_follow
    {step : PathStep}
    {inner : View}
    {putBack : View → View}
    (hRead : view.ReadAs again)
    (hOpened :
      step.entersContainer = true →
        ∀ value, view.value? = some value →
          value.payload ≠ .raw)
    (hFollow : view.follow step = .ok (inner, putBack)) :
    ∃ other otherBack,
      again.follow step = .ok (other, otherBack) ∧
        inner.ReadAs other := by
  unfold follow at hFollow
  split at hFollow
  next key doc =>
    split at hFollow
    next index element hIndex hFind =>
      cases hFollow
      rw [Document.find?, hIndex] at hFind
      rcases hRead.element hFind with
        ⟨copy, other, rfl, hKeys, hCopy, hRest⟩
      have hSame :=
        (Document.position?_congr hKeys key).trans hIndex
      refine
        ⟨.element copy, putElement other index, ?_, hRest⟩
      have hFound : other.find? key = some copy := by
        rw [Document.find?, hSame]
        exact hCopy
      rw [follow, hSame, hFound]
    · cases hFollow
  next index doc =>
    split at hFollow
    next element hElement =>
      cases hFollow
      rcases hRead.element hElement with
        ⟨copy, other, rfl, _, hCopy, hRest⟩
      refine
        ⟨.element copy, putElement other index, ?_, hRest⟩
      rw [follow, hCopy]
    · cases hFollow
  next index array =>
    split at hFollow
    next value hValue =>
      cases hFollow
      rcases hRead.item hValue with
        ⟨copy, other, rfl, hCopy, hRest⟩
      refine ⟨.value copy, putValue other index, ?_, hRest⟩
      rw [follow, hCopy]
    · cases hFollow
  next =>
    split at hFollow
    next value hValue =>
      cases hFollow
      rcases hRead.value? hValue with
        ⟨copy, tree, hCopy, hTree, hFits, hShows⟩
      refine
        ⟨.value copy, putHeld again, ?_, tree, hTree, hFits,
          hShows⟩
      rw [follow, hCopy]
      rfl
    · cases hFollow
  next =>
    split at hFollow
    next value hValue =>
      rcases bind_eq_ok.mp hFollow with
        ⟨entered, hEnter, hDone⟩
      cases hDone
      rcases hRead.value? hValue with
        ⟨copy, tree, hCopy, hTree, _, hShows⟩
      have hEnters := entersContainer_of_enter hEnter
      rcases readAs_of_enter hTree hShows
          (hOpened hEnters value hValue) hEnter with
        ⟨other, hOther, hInner⟩
      refine ⟨other, putContainer again copy, ?_, hInner⟩
      rw [follow_of_enters hEnters, hCopy]
      dsimp only
      rw [hOther]
      rfl
    · cases hFollow

/- So can a whole path. -/
theorem readAs_of_lookAlong
    {path : List PathStep}
    {inner : View}
    (hRead : view.ReadAs again)
    (hOpened : view.EntersOpened path)
    (hLook : view.lookAlong path = .ok inner) :
    ∃ other, again.lookAlong path = .ok other ∧
      inner.ReadAs other := by
  induction path generalizing view again with
  | nil =>
      cases hLook
      exact ⟨again, rfl, hRead⟩
  | cons step rest ih =>
      rcases hOpened with ⟨hFirst, hMore⟩
      rcases bind_eq_ok.mp hLook with
        ⟨⟨next, putBack⟩, hFollow, hRest⟩
      rcases readAs_of_follow hRead hFirst hFollow with
        ⟨other, otherBack, hOther, hNext⟩
      have hAfter := hMore next putBack hFollow
      rcases ih hNext hAfter hRest with
        ⟨found, hFound, hInner⟩
      exact
        ⟨found, (lookAlong_cons hOther rest).trans hFound,
          hInner⟩

end View

end BsonView

------------------------------------------------------------
-- Consistency
------------------------------------------------------------

namespace BsonView

open Grammar

/-
  What a document is encoded as is read again, and along
  every path that enters only containers that are held
  opened each value is found there as it is written. So
  every code with scope that is an element, or one of an
  opened container at any depth, has an outer length that
  agrees, whatever it was before, and what is not opened has
  the bytes it had.
-/
theorem written_outer_lengths_agree
    {doc : Document}
    {bytes : Bytes}
    (hEncode : doc.encode = .ok bytes) :
    ∃ again, Document.read bytes = .ok again ∧
      ∀ path inner value,
        (View.document doc).EntersOpened path →
          (View.document doc).lookAlong path = .ok inner →
            inner.value? = some value →
              ∃ other copy,
                (View.document again).lookAlong path =
                    .ok other ∧
                  other.value? = some copy ∧
                  value.WrittenAs copy := by
  rcases Document.encode_eq_ok.mp hEncode with
    ⟨fields, hDoc, _, hSmall, rfl⟩
  have hFields := Document.isDocument_of_encodes hDoc hSmall
  rcases Document.read_show_of_isDocument hFields with
    ⟨again, hAgain, hShow⟩
  refine ⟨again, hAgain, ?_⟩
  intro path inner value hOpened hLook hValue
  have hRead :
      (View.document doc).ReadAs (.document again) :=
    ⟨fields, hDoc, hFields, hShow⟩
  rcases View.readAs_of_lookAlong hRead hOpened hLook with
    ⟨other, hOther, hInner⟩
  rcases hInner.value? hValue with
    ⟨copy, tree, hCopy, hTree, hFits, hShows⟩
  exact
    ⟨other, copy, hOther, hCopy,
      Value.writtenAs_of_shows hTree hShows hFits⟩

/-
  A code with scope of outer length zero that is nested in
  a document that is held opened.
-/
theorem opened_code_has_its_outer_length :
    let code :=
      Element.ofPositions
        [15, 0, 0, 0, 0, 0, 1, 0, 0, 0, 0, 5, 0, 0, 0, 0]
        0 2
    let outer :=
      (Value.ofDocument ⟨[code]⟩ : Value)
    let doc : Document := ⟨[⟨outer⟩]⟩
    let path : List PathStep :=
      [.index 0, .document, .index 0]
    (∃ bytes, doc.encode = .ok bytes ∧
        ∃ again other copy,
          Document.read bytes = .ok again ∧
            (View.document again).lookAlong path =
              .ok other ∧
            other.value? = some copy ∧
            copy.OuterAgrees) ∧
      ¬ code.value.OuterAgrees := by
  intro code outer doc path
  have hCode : code.value.tag = .ok .codeWithScope := rfl
  have hWell :
      (ParseTree.code [0, 0, 0, 0] [] []).WellFormed :=
    ⟨rfl, by decide, trivial, by decide⟩
  have hInner :
      code.value.Encodes
        (ParseTree.code [0, 0, 0, 0] [] []).agreeing :=
    ⟨rfl, _, hWell, by decide, rfl⟩
  have hDoc :
      doc.Encodes
        [⟨[], .document [⟨[], ParseTree.agreeing
          (.code [0, 0, 0, 0] [] [])⟩]⟩] :=
    ⟨rfl, ⟨rfl, rfl, hInner, trivial⟩, trivial⟩
  have hEncode :=
    Document.encode_eq_ok.mpr
      ⟨_, hDoc, by decide, by decide, rfl⟩
  have hLook :
      (View.document doc).lookAlong path =
        .ok (.element code) := rfl
  have hOpened : (View.document doc).EntersOpened path := by
    refine ⟨fun hEnters => (by cases hEnters), ?_⟩
    intro found _ hFound
    cases hFound
    refine ⟨?_, ?_⟩
    · intro _ value hValue hRaw
      cases hValue
      cases hRaw
    intro inside _ hInside
    refine ⟨fun hEnters => (by cases hEnters), ?_⟩
    exact fun _ _ _ => trivial
  rcases written_outer_lengths_agree hEncode with
    ⟨again, hAgain, hPaths⟩
  rcases hPaths path _ code.value hOpened hLook rfl with
    ⟨other, copy, hOther, hCopy, hWritten⟩
  refine
    ⟨⟨_, hEncode, again, other, copy, hAgain, hOther, hCopy,
      hWritten.agrees (hWritten.tag_eq.trans hCode)⟩, ?_⟩
  rintro ⟨text, scope, _, _, hOuter⟩
  have hZero : Word.readLength code.value.rest = .ok 0 :=
    rfl
  have hTotal := Except.ok.inj (hZero.symm.trans hOuter)
  omega

/-
  A code with scope of outer length zero that is nested in
  a document that is not opened is copied, and still has
  that outer length when the document is read again.
-/
theorem unopened_code_keeps_outer_length :
    let data : Bytes :=
      [28, 0, 0, 0, 3, 0, 21, 0, 0, 0, 15, 0, 0, 0, 0, 0,
        1, 0, 0, 0, 0, 5, 0, 0, 0, 0, 0, 0]
    let code := Element.ofPositions data 10 12
    ∃ doc, Document.read data = .ok doc ∧
      doc.encode = .ok data ∧
      (View.document doc).lookAlong
          [.index 0, .document, .index 0] =
        .ok (.element code) ∧
      code.value.tag = .ok .codeWithScope ∧
      ¬ code.value.OuterAgrees := by
  intro data code
  have hItems :
      IsDocument [⟨[], .code [0, 0, 0, 0] [] []⟩] :=
    ⟨⟨by decide, ⟨rfl, by decide, trivial, by decide⟩,
      trivial⟩, by decide⟩
  have hFields :
      IsDocument
        [⟨[], .document
          [⟨[], .code [0, 0, 0, 0] [] []⟩]⟩] :=
    ⟨⟨by decide, hItems, trivial⟩, by decide⟩
  have hSpans : Document.spansFrom data 0 = .ok [⟨4, 6⟩] :=
    Document.spansFrom_of_front hFields
      (List.prefix_refl _)
  have hInner :
      Document.spansFrom data 6 = .ok [⟨10, 12⟩] :=
    Document.spansFrom_of_front hItems (by decide)
  let found := Element.ofPositions data 4 6
  have hRead : Document.read data = .ok ⟨[found]⟩ := by
    unfold Document.read Document.readFrom
    rw [hSpans]
    rfl
  have hOpen : found.value.openDocument = .ok ⟨[code]⟩ := by
    change Document.readFrom data 6 = _
    unfold Document.readFrom
    rw [hInner]
    rfl
  have hFound :
      found.value.Encodes
        (.document [⟨[], .code [0, 0, 0, 0] [] []⟩]) :=
    ⟨rfl, .document [⟨[], .code [0, 0, 0, 0] [] []⟩],
      hItems, by decide, rfl⟩
  have hDoc :
      Document.Encodes ⟨[found]⟩
        [⟨[], .document
          [⟨[], .code [0, 0, 0, 0] [] []⟩]⟩] :=
    ⟨rfl, hFound, trivial⟩
  have hEncode : Document.encode ⟨[found]⟩ = .ok data :=
    Document.encode_eq_ok.mpr
      ⟨_, hDoc, by decide, hFields.2, rfl⟩
  refine ⟨⟨[found]⟩, hRead, hEncode, ?_, rfl, ?_⟩
  · have hEnter :
        View.enter .document found.value =
          .ok (.document ⟨[code]⟩) := by
      unfold View.enter
      dsimp only
      rw [hOpen]
      rfl
    have hStep :
        (View.element found).follow .document =
          .ok (.document ⟨[code]⟩,
            View.putContainer (.element found)
              found.value) := by
      rw [View.follow_of_enters rfl]
      dsimp only [View.value?]
      rw [hEnter]
      rfl
    have hFirst :
        (View.document ⟨[found]⟩).follow (.index 0) =
          .ok (.element found,
            View.putElement ⟨[found]⟩ 0) := rfl
    rw [View.lookAlong_cons hFirst,
      View.lookAlong_cons hStep]
    rfl
  · rintro ⟨text, scope, _, _, hOuter⟩
    have hZero :
        Word.readLength code.value.rest = .ok 0 := rfl
    have hTotal := Except.ok.inj (hZero.symm.trans hOuter)
    omega

end BsonView
