import BsonView.Proofs.Reading.Measures
import BsonView.Proofs.Writing.Exactness

/-
  Writing back what was read.

  The elements of a document that is read stand one after
  the other in its bytes, and each is written back where it
  stood. On the way the outer length of a code with scope is
  set anew if the code is an element of that document; what
  is nested deeper is copied. What has been written once is
  written the same again.

  Main declarations:
    * `Grammar.spanBehind`
    * `Grammar.mem_bodySpans`
    * `Grammar.ParseField.agreeing`
    * `Grammar.document_differs`
    * `Value.agreeing_of_encodes`
    * `Document.mem_elements_of_read`
    * `Document.encode_of_show`
    * `Document.encode_of_encode`
    * `rewriting_sets_outer_lengths`
-/

------------------------------------------------------------
-- Places Of Elements
------------------------------------------------------------

namespace BsonView

namespace Grammar

/- Elements after others are encoded behind them. -/
theorem bodyBytes_append
    (front back : List ParseField) :
    bodyBytes (front ++ back) =
      bodyBytes front ++ bodyBytes back := by
  induction front with
  | nil => simp [bodyBytes]
  | cons field front ih =>
      rcases field with ⟨key, tree⟩
      simp [bodyBytes, ih]

/- The span of an element behind others from a position. -/
def spanBehind
    (pos : Nat)
    (front : List ParseField)
    (field : ParseField) : Span :=
  let start := pos + (bodyBytes front).length
  ⟨start, start + (field.key.length + 2)⟩

/-
  The spans of a body are those of its elements, each behind
  the elements before it.
-/
theorem mem_bodySpans
    {fields : List ParseField}
    {pos : Nat}
    {span : Span} :
    span ∈ bodySpans pos fields ↔
      ∃ front field back,
        fields = front ++ field :: back ∧
          span = spanBehind pos front field := by
  induction fields generalizing pos with
  | nil => simp [bodySpans]
  | cons first rest ih =>
      rcases first with ⟨key, tree⟩
      have hShift (front : List ParseField) :
          pos + (key.length + 2) + tree.bytes.length +
              (bodyBytes front).length =
            pos +
              (bodyBytes (⟨key, tree⟩ :: front)).length := by
        rw [length_bodyBytes_cons]
        omega
      rw [bodySpans, List.mem_cons, ih]
      simp only [spanBehind, hShift]
      constructor
      · intro hEither
        rcases hEither with rfl | hLater
        · exact ⟨[], ⟨key, tree⟩, rest, rfl, rfl⟩
        · rcases hLater with
            ⟨front, field, back, rfl, rfl⟩
          exact
            ⟨⟨key, tree⟩ :: front, field, back, rfl, rfl⟩
      · intro hExists
        rcases hExists with
          ⟨front, field, back, hFields, rfl⟩
        cases front with
        | nil =>
            left
            cases hFields
            rfl
        | cons other front =>
            right
            rcases List.cons.inj hFields with ⟨rfl, rfl⟩
            exact ⟨front, field, back, rfl, rfl⟩

/- An element stands behind those before it. -/
theorem front_of_element
    (front back : List ParseField)
    (field : ParseField) :
    field.tree.tag.byte :: (field.key ++ [0]) ++
        field.tree.bytes <+:
      (documentBytes (front ++ field :: back)).drop
        (spanBehind 4 front field).start := by
  rcases field with ⟨key, tree⟩
  rw [spanBehind, documentBytes, documentForm,
    bodyBytes_append, bodyBytes_cons, ← List.drop_drop,
    List.drop_left' (Word.length_ofLength _)]
  simp only [List.append_assoc, List.drop_left]
  simp

end Grammar

end BsonView

------------------------------------------------------------
-- Outer Lengths Of Elements
------------------------------------------------------------

namespace BsonView

/-
  Where appended bytes differ, their first parts do or their
  last ones, if the first parts are of one length.
-/
theorem Bytes.append_differs
    {first second rest other : Bytes}
    {i : Nat}
    (hSame : first.length = second.length)
    (hDiffers :
      (first ++ rest)[i]? ≠ (second ++ other)[i]?) :
    (i < first.length ∧ first[i]? ≠ second[i]?) ∨
      (first.length ≤ i ∧
        rest[i - first.length]? ≠
          other[i - first.length]?) := by
  by_cases hFirst : i < first.length
  · left
    rw [List.getElem?_append_left hFirst,
      List.getElem?_append_left (by omega)] at hDiffers
    exact ⟨hFirst, hDiffers⟩
  · right
    rw [List.getElem?_append_right (by omega),
      List.getElem?_append_right (by omega), ← hSame]
      at hDiffers
    exact ⟨Nat.le_of_not_lt hFirst, hDiffers⟩

namespace Grammar

/- An element with an outer length that agrees, if any. -/
def ParseField.agreeing (field : ParseField) : ParseField :=
  ⟨field.key, field.tree.agreeing⟩

/- Elements are of the format where their parts are. -/
theorem bodyWellFormed_append
    {front back : List ParseField} :
    BodyWellFormed (front ++ back) ↔
      BodyWellFormed front ∧ BodyWellFormed back := by
  induction front with
  | nil => simp [BodyWellFormed]
  | cons field front ih =>
      rcases field with ⟨key, tree⟩
      simp [BodyWellFormed, ih, and_assoc]

/- They stay so when outer lengths are set. -/
theorem BodyWellFormed.agreeing
    {fields : List ParseField}
    (hWell : BodyWellFormed fields) :
    BodyWellFormed (fields.map ParseField.agreeing) := by
  induction fields with
  | nil => trivial
  | cons field rest ih =>
      rcases field with ⟨key, tree⟩
      rcases hWell with ⟨hKey, hTree, hRest⟩
      exact ⟨hKey, hTree.agreeing, ih hRest⟩

/- Nothing but an outer length is set anew. -/
theorem ParseTree.agreeing_differs
    {tree : ParseTree}
    {i : Nat}
    (hTree : tree.WellFormed)
    (hDiffers : tree.agreeing.bytes[i]? ≠ tree.bytes[i]?) :
    tree.tag = .codeWithScope ∧ i < 4 := by
  cases tree with
  | code outer text scope =>
      refine ⟨rfl, ?_⟩
      have hSame :
          (outerField text scope).length = outer.length := by
        rw [length_outerField, hTree.1]
      rw [agreeing, bytes, bytes] at hDiffers
      rcases Bytes.append_differs hSame hDiffers with
        ⟨hFirst, _⟩ | ⟨_, hRest⟩
      · rw [length_outerField] at hFirst
        exact hFirst
      · exact absurd rfl hRest
  | _ => exact absurd rfl hDiffers

/- Elements keep their length when outer lengths are set. -/
theorem length_bodyBytes_agreeing
    {fields : List ParseField}
    (hWell : BodyWellFormed fields) :
    (bodyBytes (fields.map ParseField.agreeing)).length =
      (bodyBytes fields).length := by
  induction fields with
  | nil => rfl
  | cons field rest ih =>
      rcases field with ⟨key, tree⟩
      rcases hWell with ⟨_, hTree, hRest⟩
      rw [List.map_cons, ParseField.agreeing,
        length_bodyBytes_cons, length_bodyBytes_cons,
        tree.length_agreeing hTree, ih hRest]

/- They stay where they are. -/
theorem spanBehind_agreeing
    {front : List ParseField}
    (hWell : BodyWellFormed front)
    (pos : Nat)
    (field : ParseField) :
    spanBehind pos (front.map ParseField.agreeing)
        field.agreeing =
      spanBehind pos front field := by
  simp only [spanBehind, ParseField.agreeing,
    length_bodyBytes_agreeing hWell]

/- They nest as deep as before. -/
theorem bodyHeight_agreeing
    (fields : List ParseField) :
    bodyHeight (fields.map ParseField.agreeing) =
      bodyHeight fields := by
  induction fields with
  | nil => rfl
  | cons field rest ih =>
      rcases field with ⟨key, tree⟩
      rw [List.map_cons, ParseField.agreeing, bodyHeight,
        bodyHeight, ih, ParseTree.height_agreeing]

/-
  Elements in which outer lengths are set differ from what
  they were in those lengths only.
-/
theorem body_differs
    {fields : List ParseField}
    {i : Nat}
    (hWell : BodyWellFormed fields)
    (hDiffers :
      (bodyBytes (fields.map ParseField.agreeing))[i]? ≠
        (bodyBytes fields)[i]?)
    (pos : Nat) :
    ∃ front field back,
      fields = front ++ field :: back ∧
        field.tree.tag = .codeWithScope ∧
        (spanBehind pos front field).offset ≤ pos + i ∧
        pos + i <
          (spanBehind pos front field).offset + 4 := by
  induction fields generalizing i with
  | nil => exact absurd rfl hDiffers
  | cons field rest ih =>
      rcases field with ⟨key, tree⟩
      rcases hWell with ⟨_, hTree, hRest⟩
      have hHeader :
          (tree.tag.byte :: (key ++ [0])).length =
            key.length + 2 := by
        simp
      rw [List.map_cons, ParseField.agreeing,
        bodyBytes_cons, bodyBytes_cons,
        ParseTree.tag_agreeing] at hDiffers
      -- the header is kept, the payload is that of the
      -- element or what follows it
      rcases Bytes.append_differs rfl hDiffers with
        ⟨_, hNothing⟩ | ⟨hBehind, hPayload⟩
      · exact absurd rfl hNothing
      rw [hHeader] at hBehind hPayload
      rcases Bytes.append_differs
          (tree.length_agreeing hTree) hPayload with
        ⟨_, hOwn⟩ | ⟨hPast, hLater⟩
      · rcases tree.agreeing_differs hTree hOwn with
          ⟨hTag, hField⟩
        refine ⟨[], ⟨key, tree⟩, rest, rfl, hTag, ?_⟩
        simp only [spanBehind, bodyBytes, List.length_nil]
        omega
      · rw [tree.length_agreeing hTree] at hPast hLater
        rcases ih hRest hLater with
          ⟨front, field, back, rfl, hTag, hSpan⟩
        refine
          ⟨⟨key, tree⟩ :: front, field, back, rfl, hTag, ?_⟩
        simp only [spanBehind] at hSpan ⊢
        rw [length_bodyBytes_cons]
        omega

/- So does their document, whose length field is kept. -/
theorem document_differs
    {fields : List ParseField}
    {i : Nat}
    (hWell : BodyWellFormed fields)
    (hDiffers :
      (documentBytes
          (fields.map ParseField.agreeing))[i]? ≠
        (documentBytes fields)[i]?) :
    ∃ front field back,
      fields = front ++ field :: back ∧
        field.tree.tag = .codeWithScope ∧
        (spanBehind 4 front field).offset ≤ i ∧
        i < (spanBehind 4 front field).offset + 4 := by
  have hLength := length_bodyBytes_agreeing hWell
  rw [documentBytes, documentBytes, documentForm,
    documentForm, hLength] at hDiffers
  rcases Bytes.append_differs rfl hDiffers with
    ⟨_, hNothing⟩ | ⟨hBehind, hBody⟩
  · exact absurd rfl hNothing
  rw [Word.length_ofLength] at hBehind hBody
  rcases Bytes.append_differs hLength hBody with
    ⟨_, hElements⟩ | ⟨_, hNothing⟩
  · have hThere := body_differs hWell hElements 4
    rw [Nat.add_sub_cancel' hBehind] at hThere
    exact hThere
  · exact absurd rfl hNothing

end Grammar

end BsonView

------------------------------------------------------------
-- Documents Written Back
------------------------------------------------------------

namespace BsonView

open Grammar

/- Elements are written as they show, but for lengths. -/
theorem elementsEncode_agreeing :
    ∀ {elements : List Element} {fields : List ParseField},
      elementsShow elements fields →
      elementsEncode elements
        (fields.map ParseField.agreeing)
| [], [], _ => trivial
| ⟨_⟩ :: _, ⟨_, _⟩ :: _, ⟨hKey, hShows, hMore⟩ =>
    ⟨hKey, Value.Shows.encodes_agreeing hShows,
      elementsEncode_agreeing hMore⟩
| [], ⟨_, _⟩ :: _, hShow => hShow.elim
| ⟨_⟩ :: _, [], hShow => hShow.elim

/- The outer length that a value is written with agrees. -/
theorem Value.agreeing_of_encodes :
    ∀ {value : Value} {tree : ParseTree},
      value.Encodes tree → tree.agreeing = tree
| ⟨_, .raw⟩, _, ⟨_, found, _, _, hFound⟩ => by
    rw [hFound]
    cases found <;> rfl
| ⟨_, .document _⟩, .code _ _ _, ⟨_, hOuter, _⟩ => by
    rw [ParseTree.agreeing, hOuter]
| _, .scalar _ _, _ => rfl
| _, .document _, _ => rfl
| _, .array _, _ => rfl
| ⟨_, .array _⟩, .code _ _ _, ⟨_, hPayload⟩ =>
    hPayload.elim

/- So do those that elements are written with. -/
theorem agreeing_of_elementsEncode :
    ∀ {elements : List Element} {fields : List ParseField},
      elementsEncode elements fields →
      fields.map ParseField.agreeing = fields
| [], [], _ => rfl
| ⟨_⟩ :: _, ⟨_, _⟩ :: _, hEncode => by
    rcases hEncode with ⟨_, hTree, hMore⟩
    rw [List.map_cons, ParseField.agreeing,
      Value.agreeing_of_encodes hTree,
      agreeing_of_elementsEncode hMore]
| [], ⟨_, _⟩ :: _, hEncode => hEncode.elim
| ⟨_⟩ :: _, [], hEncode => hEncode.elim

namespace Document

/-
  The elements of a document that is read are found where
  they stand, each behind those before it.
-/
theorem mem_elements_of_read
    {fields : List ParseField}
    {doc : Document}
    (hFields : IsDocument fields)
    (hRead : read (documentBytes fields) = .ok doc)
    {element : Element} :
    element ∈ doc.elements ↔
      ∃ front field back,
        fields = front ++ field :: back ∧
          element =
            Element.ofSpan (documentBytes fields)
              (spanBehind 4 front field) := by
  have hSpans :
      spansFrom (documentBytes fields) 0 =
        .ok (bodySpans 4 fields) :=
    spansFrom_of_front hFields (List.prefix_refl _)
  have hFrom := (of_read_eq_ok hRead).1
  rw [readFrom, hSpans, ok_bind] at hFrom
  cases hFrom
  rw [List.mem_map]
  constructor
  · intro hExists
    rcases hExists with ⟨span, hSpan, rfl⟩
    rcases mem_bodySpans.mp hSpan with
      ⟨front, field, back, hSplit, rfl⟩
    exact ⟨front, field, back, hSplit, rfl⟩
  · intro hExists
    rcases hExists with ⟨front, field, back, hSplit, rfl⟩
    refine ⟨_, ?_, rfl⟩
    exact mem_bodySpans.mpr
      ⟨front, field, back, hSplit, rfl⟩

/-
  A document that shows elements is encoded as they are, but
  for outer lengths, if they are not nested too deep.
-/
theorem encode_of_show
    {fields : List ParseField}
    {doc : Document}
    (hFields : IsDocument fields)
    (hHeight :
      bodyHeight fields ≤ Limits.standard.maxDepth)
    (hShow : elementsShow doc.elements fields) :
    doc.encode =
      .ok (documentBytes
        (fields.map ParseField.agreeing)) := by
  rcases doc with ⟨elements⟩
  apply Document.encode_eq_ok.mpr
  refine
    ⟨fields.map ParseField.agreeing,
      elementsEncode_agreeing hShow, ?_, ?_, rfl⟩
  · rw [bodyHeight_agreeing]
    exact hHeight
  · have hSize := hFields.2
    rw [documentBytes, length_documentForm] at hSize ⊢
    rw [length_bodyBytes_agreeing hFields.1]
    exact hSize

/- What a document is encoded as is encoded as itself. -/
theorem encode_of_encode
    {doc : Document}
    {bytes : Bytes}
    (hEncode : doc.encode = .ok bytes) :
    ∃ again, read bytes = .ok again ∧
      again.encode = .ok bytes := by
  rcases Document.encode_eq_ok.mp hEncode with
    ⟨fields, hEncodes, hHeight, hSize, rfl⟩
  have hFields :=
    Document.isDocument_of_encodes hEncodes hSize
  rcases read_show_of_isDocument hFields with
    ⟨again, hRead, hShow⟩
  refine ⟨again, hRead, ?_⟩
  have hAgain := encode_of_show hFields hHeight hShow
  rcases doc with ⟨elements⟩
  rw [agreeing_of_elementsEncode hEncodes] at hAgain
  exact hAgain

end Document

end BsonView

------------------------------------------------------------
-- Codes With Scope Among Elements
------------------------------------------------------------

namespace BsonView

open Grammar

/- An element is found where it stands behind others. -/
theorem Element.shows_behind
    {front back : List ParseField}
    {field : ParseField}
    (hWell : BodyWellFormed (front ++ field :: back)) :
    (ofSpan (documentBytes (front ++ field :: back))
        (spanBehind 4 front field)).value.Shows
      field.tree := by
  rcases bodyWellFormed_append.mp hWell with ⟨_, hBehind⟩
  rcases field with ⟨key, tree⟩
  rcases hBehind with ⟨hKey, hTree, _⟩
  have hStands := front_of_element front back ⟨key, tree⟩
  exact (shows_of_front hKey hTree hStands).2

/-
  A code with scope that is an element has its parts where
  it stands.
-/
theorem Value.Shows.code_parts
    {value : Value}
    {outer text : Bytes}
    {scope : List ParseField}
    (hShows : value.Shows (.code outer text scope)) :
    outer <+: value.rest ∧
      Framing.stringLength (value.rest.drop 4) =
        .ok (stringForm text).length ∧
      Framing.documentLength
          (value.rest.drop
            (4 + (stringForm text).length)) =
        .ok (documentBytes scope).length := by
  rcases hShows.wellFormed with ⟨hOuter, hText, hScope⟩
  rcases (code_bytes_iff hOuter).mp hShows.front with
    ⟨hFront, hString, hBody⟩
  refine ⟨hFront, ?_, ?_⟩
  · exact Grammar.stringLength_eq_ok.mpr
      ⟨text, hText, hString, rfl⟩
  · exact documentLength_of_form hScope.2 hBody

/-
  The outer length of a code with scope that is an element
  of a document is written as that of its parts.
-/
theorem readLength_of_agreeing
    {front back : List ParseField}
    {key outer text : Bytes}
    {scope : List ParseField}
    (hFields :
      IsDocument
        (front ++ ⟨key, .code outer text scope⟩ :: back)) :
    Word.readLength
        ((documentBytes
          ((front ++ ⟨key, .code outer text scope⟩ ::
            back).map ParseField.agreeing)).drop
          (spanBehind 4 front
            ⟨key, .code outer text scope⟩).offset) =
      .ok
        (4 + (stringForm text).length +
          (documentBytes scope).length) := by
  rcases bodyWellFormed_append.mp hFields.1 with
    ⟨hFront, _, hCode, _⟩
  have hAgreeing := hFields.1.agreeing
  rw [List.map_append, List.map_cons] at hAgreeing ⊢
  have hShows := Element.shows_behind hAgreeing
  rw [spanBehind_agreeing hFront] at hShows
  have hFits :
      (ParseTree.code outer text scope).Fits :=
    bodyFits_of_document hFields.2
      ⟨key, .code outer text scope⟩
      (List.mem_append_right _ List.mem_cons_self)
  have hSize := hFits.length_le rfl
  rw [length_code_bytes hCode.1] at hSize
  exact Word.readLength_eq_ok.mpr
    ⟨hSize, hShows.code_parts.1⟩

/-
  A document that is read and written back keeps its bytes
  but for the outer lengths of the codes with scope that are
  its own elements. A valid document is encoded as many
  bytes as it was read from. Where they differ there is the
  outer length of such a code; it is written as four bytes
  more than its string and its scope have, whatever it was.
  And what any document is encoded as, opened and edited or
  not, reads as a document that is encoded as the same.
-/
theorem rewriting_sets_outer_lengths :
    (∀ (bytes : Bytes) (doc : Document) (n : Nat),
      Document.read bytes = .ok doc →
        doc.validate = .ok n →
          ∃ out, doc.encode = .ok out ∧
            out.length = bytes.length ∧
            (∀ i : Nat, out[i]? ≠ bytes[i]? →
              ∃ element ∈ doc.elements,
                element.value.tag = .ok .codeWithScope ∧
                  element.value.offset ≤ i ∧
                  i < element.value.offset + 4) ∧
            ∀ element ∈ doc.elements,
              element.value.tag = .ok .codeWithScope →
                ∃ string scope,
                  Framing.stringLength
                      (bytes.drop
                        (element.value.offset + 4)) =
                      .ok string ∧
                    Framing.documentLength
                        (bytes.drop
                          (element.value.offset +
                            (4 + string))) =
                      .ok scope ∧
                    Word.readLength
                        (out.drop element.value.offset) =
                      .ok (4 + string + scope)) ∧
      ∀ (doc : Document) (bytes : Bytes),
        doc.encode = .ok bytes →
          ∃ again, Document.read bytes = .ok again ∧
            again.encode = .ok bytes := by
  constructor
  · intro bytes doc n hRead hValid
    rcases Document.show_of_read hRead hValid with
      ⟨fields, hFields, rfl, hHeight, hShow⟩
    refine
      ⟨_, Document.encode_of_show hFields hHeight hShow, ?_,
        ?_, ?_⟩
    · rw [documentBytes, documentBytes,
        length_documentForm, length_documentForm,
        length_bodyBytes_agreeing hFields.1]
    · intro i hDiffers
      rcases document_differs hFields.1 hDiffers with
        ⟨front, field, back, rfl, hTag, hSpan⟩
      have hShows := Element.shows_behind hFields.1
      have hMem :=
        (Document.mem_elements_of_read hFields hRead).mpr
          ⟨front, field, back, rfl, rfl⟩
      refine ⟨_, hMem, ?_, hSpan⟩
      rw [hShows.tag_eq, hTag]
    · intro element hMem hTag
      rcases (Document.mem_elements_of_read hFields
          hRead).mp hMem with
        ⟨front, ⟨key, tree⟩, back, rfl, rfl⟩
      have hShows := Element.shows_behind hFields.1
      have hCode : tree.tag = .codeWithScope :=
        Except.ok.inj (hShows.tag_eq.symm.trans hTag)
      rcases hShows.wellFormed.code_of_tag hCode with
        ⟨outer, text, scope, rfl⟩
      rcases hShows.code_parts with ⟨_, hString, hScope⟩
      rw [Place.rest, List.drop_drop] at hString hScope
      exact
        ⟨_, _, hString, hScope,
          readLength_of_agreeing hFields⟩
  · intro doc bytes hEncode
    exact Document.encode_of_encode hEncode

/- An outer length of zero is set, and then stays. -/
theorem zero_outer_length_is_set :
    ∃ doc out again,
      Document.read
          [21, 0, 0, 0, 15, 0, 0, 0, 0, 0, 1, 0, 0, 0, 0, 5,
            0, 0, 0, 0, 0] = .ok doc ∧
        doc.encode = .ok out ∧
        Word.readLength (out.drop 6) = .ok 14 ∧
        Document.read out = .ok again ∧
        again.encode = .ok out := by
  have hFields :
      IsDocument [⟨[], .code [0, 0, 0, 0] [] []⟩] :=
    ⟨⟨by decide, ⟨rfl, by decide, trivial, by decide⟩,
      trivial⟩, by decide⟩
  rcases Document.read_of_isDocument hFields with
    ⟨doc, hRead, _⟩
  have hValid : doc.validate = .ok 21 := by
    unfold Document.validate
    rw [Document.validateWith_of_read hRead]
    decide
  have hMem :=
    (Document.mem_elements_of_read hFields hRead).mpr
      ⟨[], _, [], rfl, rfl⟩
  rcases rewriting_sets_outer_lengths with ⟨hOnce, hAgain⟩
  rcases hOnce _ doc 21 hRead hValid with
    ⟨out, hEncode, _, _, hCodes⟩
  rcases hCodes _ hMem rfl with
    ⟨string, scope, hString, hScope, hOuter⟩
  cases hString
  cases hScope
  rcases hAgain doc out hEncode with
    ⟨again, hReread, hSame⟩
  exact
    ⟨doc, out, again, hRead, hEncode, hOuter, hReread,
      hSame⟩

end BsonView
