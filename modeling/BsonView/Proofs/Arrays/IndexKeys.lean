import BsonView.Proofs.Depths.Nesting

/-
  The keys of written arrays.

  Whatever keys the elements of an array carry, what it is
  encoded as has for each value the text of its position as
  the key. It has the length that sizing has found, and
  reads again with the same contents in order. So has every
  opened array inside of what is written.

  Main declarations:
    * `ArrayDoc.WrittenByIndex`
    * `ArrayDoc.writtenByIndex_of_encode`
    * `View.Unopened`
    * `View.entersOpened_of_lookAlong`
    * `View.ArraysIndexedIn`
    * `View.ReadAs.arraysIndexedIn`
    * `ArrayDoc.arraysIndexedIn_of_encode`
    * `Document.arraysIndexedIn_of_encode`
    * `arrays_are_written_with_index_keys`
-/

------------------------------------------------------------
-- Arrays On Their Own
------------------------------------------------------------

namespace BsonView

open Grammar

/-
  The bytes are a document of the values of the array under
  the texts of their positions, and as long as the array has
  been sized.
-/
structure ArrayDoc.WrittenByIndex
    (array : ArrayDoc)
    (bytes : Bytes) : Prop where
  validate_eq : array.validate = .ok bytes.length
  reads :
    ∃ doc, Document.read bytes = .ok doc ∧
      doc.elements.length = array.elements.length ∧
      ∀ index element,
        doc.elements[index]? = some element →
          element.key? = some (Index.text index) ∧
            ∃ value content,
              array.get? index = some value ∧
                value.Holds content ∧
                element.value.Holds content

/- Values are read again under their positions. -/
theorem indexed_of_encode_of_show
    {first : Nat} :
    ∀ {elements others : List Element}
      {fields : List ParseField},
      valuesEncode first elements fields →
      elementsShow others fields →
      others.length = elements.length ∧
        ∀ index other, others[index]? = some other →
          other.key? = some (Index.text (first + index)) ∧
            ∃ element content,
              elements[index]? = some element ∧
                element.value.Holds content ∧
                other.value.Holds content
| [], [], [], _, _ => ⟨rfl, by simp⟩
| ⟨value⟩ :: rest, ⟨copy⟩ :: more, ⟨key, tree⟩ :: fields,
    ⟨hKey, _, hTree, hRest⟩, ⟨hCopy, hShows, hMore⟩ => by
    rcases indexed_of_encode_of_show hRest hMore with
      ⟨hLength, hIndexed⟩
    refine ⟨congrArg Nat.succ hLength, ?_⟩
    intro index other hOther
    cases index with
    | zero =>
        cases hOther
        refine
          ⟨?_, ⟨value⟩, tree.content, rfl,
            Value.holds_of_encodes hTree, hShows.holds⟩
        rw [Element.key?, hCopy, hKey, ← Index.ofText_text]
        exact Bytes.text?_ofText _
    | succ index =>
        rcases hIndexed index other hOther with
          ⟨hText, hContent⟩
        rw [Nat.add_assoc, Nat.add_comm 1] at hText
        exact ⟨hText, hContent⟩
| [], ⟨_⟩ :: _, [], _, hShow => hShow.elim
| ⟨_⟩ :: _, _, [], hEncode, _ => hEncode.elim
| [], _, _ :: _, hEncode, _ => hEncode.elim
| ⟨_⟩ :: _, [], _ :: _, _, hShow => hShow.elim

namespace ArrayDoc

variable
  {array : ArrayDoc}
  {fields : List ParseField}

/- What an array is encoded as has index keys. -/
theorem writtenByIndex_of_encode
    {bytes : Bytes}
    (hEncode : array.encode = .ok bytes) :
    array.WrittenByIndex bytes := by
  rcases encode_eq_ok.mp hEncode with
    ⟨fields, hFields, hHeight, hSmall, rfl⟩
  have hDocument := isDocument_of_encodes hFields hSmall
  rcases Document.read_show_of_isDocument hDocument with
    ⟨doc, hRead, hShow⟩
  rcases array with ⟨elements⟩
  rcases indexed_of_encode_of_show hFields hShow with
    ⟨hLength, hIndexed⟩
  refine
    ⟨(validateWith_eq_ok hFields).mpr ⟨rfl, hHeight⟩,
      doc, hRead, hLength, ?_⟩
  intro index other hOther
  rcases hIndexed index other hOther with
    ⟨hText, element, content, hElement, hHolds, hCopy⟩
  rw [Nat.zero_add] at hText
  exact
    ⟨hText, element.value, content,
      Option.map_eq_some_iff.mpr ⟨element, hElement, rfl⟩,
      hHolds, hCopy⟩

end ArrayDoc

end BsonView

------------------------------------------------------------
-- Paths To Opened Values
------------------------------------------------------------

namespace BsonView

namespace View

/- Nothing in the view is opened. -/
def Unopened : View → Prop
| .document d => ∀ e ∈ d.elements, e.value.payload = .raw
| .array a => ∀ e ∈ a.elements, e.value.payload = .raw
| .element e => e.value.payload = .raw
| .value v => v.payload = .raw

variable {view inner : View} {value : Value}

/- The value of a view that is not opened is not opened. -/
theorem Unopened.value?
    (hView : view.Unopened)
    (hValue : view.value? = some value) :
    value.payload = .raw := by
  rcases value?_eq_some.mp hValue with rfl | rfl
  · exact hView
  · exact hView

/- What is read from a buffer is not opened. -/
theorem unopened_of_readFrom
    {buffer : Bytes}
    {offset : Nat}
    {doc : Document}
    (hRead : Document.readFrom buffer offset = .ok doc) :
    (View.document doc).Unopened := by
  rcases bind_eq_ok.mp hRead with ⟨spans, _, hDoc⟩
  cases hDoc
  intro element hElement
  rcases List.mem_map.mp hElement with ⟨span, _, rfl⟩
  rfl

/- No step from what is not opened leads to what is. -/
theorem unopened_of_leads
    {step : PathStep}
    {putBack : View → View}
    (hLeads : Leads step view inner putBack)
    (hView : view.Unopened) :
    inner.Unopened := by
  cases hLeads with
  | member hElement =>
      exact hView _ (List.mem_of_getElem? hElement)
  | item hValue =>
      rcases Option.map_eq_some_iff.mp hValue with
        ⟨element, hElement, rfl⟩
      exact hView _ (List.mem_of_getElem? hElement)
  | value hValue => exact hView.value? hValue
  | document hValue hOpen =>
      have hTag := Value.tag_of_openDocument hOpen
      rw [Value.openDocument_of_raw (hView.value? hValue)
        hTag] at hOpen
      exact unopened_of_readFrom hOpen
  | array hValue hOpen =>
      have hTag := Value.tag_of_openArray hOpen
      rw [Value.openArray_of_raw (hView.value? hValue)
        hTag] at hOpen
      rcases bind_eq_ok.mp hOpen with ⟨doc, hDoc, hArray⟩
      cases hArray
      exact unopened_of_readFrom hDoc
  | scope hValue hOpen =>
      have hTag := Value.tag_of_openScope hOpen
      rw [Value.openScope_of_raw (hView.value? hValue)
        hTag] at hOpen
      rcases bind_eq_ok.mp hOpen with ⟨lead, _, hScope⟩
      exact unopened_of_readFrom hScope

/-
  A path to an opened value enters opened containers only.
-/
theorem entersOpened_of_lookAlong
    {path : List PathStep}
    (hLook : view.lookAlong path = .ok inner)
    (hValue : inner.value? = some value)
    (hOpened : value.payload ≠ .raw) :
    view.EntersOpened path := by
  induction path generalizing view with
  | nil => trivial
  | cons step rest ih =>
      rcases bind_eq_ok.mp hLook with
        ⟨⟨next, putBack⟩, hFollow, hRest⟩
      refine ⟨?_, ?_⟩
      · intro _ own hOwn hRaw
        -- Then nothing behind it would be opened either.
        have hView : view.Unopened := by
          rcases value?_eq_some.mp hOwn with rfl | rfl
          · exact hRaw
          · exact hRaw
        have hInner : inner.Unopened :=
          of_lookAlong unopened_of_leads hView hLook
        exact hOpened (hInner.value? hValue)
      · intro other otherBack hOther
        cases hFollow.symm.trans hOther
        exact ih hRest

end View

end BsonView

------------------------------------------------------------
-- Arrays In Containers
------------------------------------------------------------

namespace BsonView

open Grammar

namespace View

variable {view again : View} {k : Nat}

/-
  Each opened array inside of a view is found again at the
  end of the same path as what it is encoded as itself, with
  index keys.
-/
def ArraysIndexedIn (view again : View) : Prop :=
  ∀ path inner value array,
    view.lookAlong path = .ok inner →
      inner.value? = some value →
        value.payload = .array array →
          ∃ other copy bytes,
            again.lookAlong path = .ok other ∧
              other.value? = some copy ∧
              copy.payloadBytes = .ok bytes ∧
              array.encode = .ok bytes ∧
              array.WrittenByIndex bytes

/- What is read again of a view has indexed arrays. -/
theorem ReadAs.arraysIndexedIn
    (hRead : view.ReadAs again)
    (hHeight : view.HasHeight k)
    (hLimit : k ≤ Limits.standard.maxDepth) :
    view.ArraysIndexedIn again := by
  intro path inner value array hLook hValue hArray
  have hOpened : value.payload ≠ .raw := by
    rw [hArray]
    exact nofun
  have hEnters :=
    entersOpened_of_lookAlong hLook hValue hOpened
  rcases readAs_of_lookAlong hRead hEnters hLook with
    ⟨other, hOther, hInner⟩
  rcases hInner.value? hValue with
    ⟨copy, tree, hCopy, hTree, hFits, hShows⟩
  rcases hHeight.of_lookAlong hLook with ⟨j, hHigh, hLess⟩
  rcases hHigh.value? hValue with ⟨content, hHolds, rfl⟩
  cases Value.holds_unique hHolds
    (Value.holds_of_encodes hTree)
  rcases value with ⟨place, payload⟩
  cases hArray
  cases tree with
  | array fields =>
      have hOwn :
          bodyHeight fields ≤ Limits.standard.maxDepth := by
        rw [ParseTree.height_content,
          ParseTree.height] at hLess
        omega
      have hEncode :
          array.encode = .ok (documentBytes fields) :=
        ArrayDoc.encode_eq_ok.mpr
          ⟨fields, hTree.2, hOwn, hFits.length_le rfl, rfl⟩
      exact
        ⟨other, copy, documentBytes fields, hOther, hCopy,
          hShows.payloadBytes, hEncode,
          ArrayDoc.writtenByIndex_of_encode hEncode⟩
  | scalar tag bytes => exact hTree.2.elim
  | document fields => exact hTree.2.elim
  | code outer text scope => exact hTree.2.elim

end View

/- An array is read again with the arrays inside of it. -/
theorem ArrayDoc.arraysIndexedIn_of_encode
    {array : ArrayDoc}
    {bytes : Bytes}
    (hEncode : array.encode = .ok bytes) :
    ∃ again, ArrayDoc.read bytes = .ok again ∧
      (View.array array).ArraysIndexedIn
        (.array again) := by
  rcases encode_eq_ok.mp hEncode with
    ⟨fields, hFields, hHeight, hSmall, rfl⟩
  have hDocument := isDocument_of_encodes hFields hSmall
  rcases Document.read_show_of_isDocument hDocument with
    ⟨doc, hRead, hShow⟩
  have hAgain :
      read (documentBytes fields) = .ok ⟨doc.elements⟩ := by
    rw [read, hRead]
    rfl
  have hReadAs :
      (View.array array).ReadAs (.array ⟨doc.elements⟩) :=
    ⟨fields, hFields, hDocument, hShow⟩
  refine ⟨_, hAgain, hReadAs.arraysIndexedIn ?_ hHeight⟩
  exact
    ⟨_, holds_of_encodes hFields, itemsHeight_items fields⟩

/- So is a document. -/
theorem Document.arraysIndexedIn_of_encode
    {doc : Document}
    {bytes : Bytes}
    (hEncode : doc.encode = .ok bytes) :
    ∃ again, Document.read bytes = .ok again ∧
      (View.document doc).ArraysIndexedIn
        (.document again) := by
  rcases encode_eq_ok.mp hEncode with
    ⟨fields, hFields, hHeight, hSmall, rfl⟩
  have hDocument := isDocument_of_encodes hFields hSmall
  rcases read_show_of_isDocument hDocument with
    ⟨again, hRead, hShow⟩
  have hReadAs :
      (View.document doc).ReadAs (.document again) :=
    ⟨fields, hFields, hDocument, hShow⟩
  refine ⟨again, hRead, hReadAs.arraysIndexedIn ?_ hHeight⟩
  exact
    ⟨_, holds_of_encodes hFields,
      membersHeight_members fields⟩

/-
  Arrays are written with index keys. What an array is
  encoded as is a document of its values in order, the key
  of each being the text of its position, and it is as long
  as the array has been sized. So is every opened array in
  an array or a document that is encoded, at the end of any
  path: it is found again at the end of the same path, as
  what it is encoded as itself.
-/
theorem arrays_are_written_with_index_keys :
    (∀ (array : ArrayDoc) (bytes : Bytes),
      array.encode = .ok bytes →
        array.WrittenByIndex bytes ∧
          ∃ again, ArrayDoc.read bytes = .ok again ∧
            (View.array array).ArraysIndexedIn
              (.array again)) ∧
      ∀ (doc : Document) (bytes : Bytes),
        doc.encode = .ok bytes →
          ∃ again, Document.read bytes = .ok again ∧
            (View.document doc).ArraysIndexedIn
              (.document again) := by
  refine ⟨?_, ?_⟩
  · intro array bytes hEncode
    exact
      ⟨ArrayDoc.writtenByIndex_of_encode hEncode,
        ArrayDoc.arraysIndexedIn_of_encode hEncode⟩
  · intro doc bytes hEncode
    exact Document.arraysIndexedIn_of_encode hEncode

/-
  Eleven values with empty keys, in an array on its own and
  in one that is opened in a document.
-/
theorem eleven_values_are_written_by_index :
    let array : ArrayDoc :=
      ⟨List.replicate 11 ⟨.ofScalar .null⟩⟩
    let doc : Document :=
      ⟨[⟨⟨⟨[4, 97, 0], 0, 3⟩, .array array⟩⟩]⟩
    let written : Bytes :=
      [39, 0, 0, 0, 10, 48, 0, 10, 49, 0, 10, 50, 0, 10, 51,
        0, 10, 52, 0, 10, 53, 0, 10, 54, 0, 10, 55, 0, 10,
        56, 0, 10, 57, 0, 10, 49, 48, 0, 0]
    array.WrittenByIndex written ∧
      ∃ bytes again other copy,
        doc.encode = .ok bytes ∧
          Document.read bytes = .ok again ∧
          (View.document again).lookAlong [.index 0] =
            .ok other ∧
          other.value? = some copy ∧
          copy.payloadBytes = .ok written := by
  intro array doc written
  have hArray : array.encode = .ok written := by
    decide +kernel
  let header : Bytes := [47, 0, 0, 0, 4, 97, 0]
  have hDoc :
      doc.encode = .ok (header ++ written ++ [0]) := by
    decide +kernel
  refine
    ⟨(arrays_are_written_with_index_keys.1 array written
      hArray).1, ?_⟩
  rcases arrays_are_written_with_index_keys.2 doc _ hDoc
    with ⟨again, hAgain, hIndexed⟩
  rcases hIndexed [.index 0] _ _ array rfl rfl rfl with
    ⟨other, copy, bytes, hOther, hCopy, hBytes, hSame, _⟩
  cases hSame.symm.trans hArray
  exact
    ⟨_, again, other, copy, hDoc, hAgain, hOther, hCopy,
      hBytes⟩

end BsonView
