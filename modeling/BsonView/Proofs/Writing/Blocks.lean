import BsonView.Proofs.Editing.Positions
import BsonView.Proofs.Writing.Rewriting
import Mathlib.Data.List.Forall2

/-
  Encodings are made of blocks.

  Between its length field and its null byte a document is
  encoded as its elements are, each on its own. An array is
  encoded as the types and payloads of its elements, each
  behind its position. Where one element is exchanged, the
  blocks of the others stay what they were.

  Main declarations:
    * `EncodeEach`
    * `Element.WritesPayload`
    * `WritePayloads`
    * `blocksFrom`
    * `encodeEach_of_encode`
    * `writePayloads_of_encode`
    * `Document.encode_exchanged`
    * `ArrayDoc.encode_exchanged`
    * `encoding_is_compositional`
-/

------------------------------------------------------------
-- Elements On Their Own
------------------------------------------------------------

namespace BsonView

open Grammar

/- Each part is the encoding of one element, in order. -/
def EncodeEach
    (elements : List Element)
    (parts : List Bytes) : Prop :=
  List.Forall₂
    (fun element part => element.encode = .ok part)
    elements parts

/-
  The element has the type, and without its key it is
  written as the payload, wherever it is written with the
  size that validation answers. There are positions for all
  of the payload.
-/
structure Element.WritesPayload
    (element : Element)
    (tag : Tag)
    (payload : Bytes) : Prop where
  tag_eq : element.value.tag = .ok tag
  length_lt : payload.length < positionLimit
  fills :
    ∃ size, element.validate = .ok size ∧
      Written.Fills
        (fun start => element.write false start size)
        payload

/- Each payload is that of one element, in order. -/
def WritePayloads
    (elements : List Element)
    (payloads : List (Tag × Bytes)) : Prop :=
  List.Forall₂
    (fun element payload =>
      element.WritesPayload payload.1 payload.2)
    elements payloads

/-
  Payloads with their types and with their positions for
  keys, from a position on.
-/
def blocksFrom (index : Nat) : List (Tag × Bytes) → Bytes
| [] => []
| (tag, payload) :: rest =>
    tag.byte ::
      (Bytes.ofText (Index.text index) ++
        0 :: (payload ++ blocksFrom (index + 1) rest))

namespace Grammar

/- The element can be encoded without its document. -/
structure ParseField.StandsAlone
    (field : ParseField) : Prop where
  height_le :
    field.tree.height ≤ Limits.standard.maxDepth
  length_le :
    (bodyBytes [field]).length ≤ Word.maxLength

theorem ParseField.StandsAlone.fits
    {field : ParseField}
    (hField : field.StandsAlone) :
    field.tree.Fits :=
  bodyFits_of_length hField.length_le field
    List.mem_cons_self

/- The elements of a document that can be encoded can be. -/
theorem standAlone_of_body
    {fields : List ParseField}
    (hHeight :
      bodyHeight fields ≤ Limits.standard.maxDepth)
    (hSmall : (bodyBytes fields).length ≤ Word.maxLength) :
    ∀ field ∈ fields, field.StandsAlone := by
  induction fields with
  | nil => exact List.forall_mem_nil _
  | cons field rest ih =>
      rcases field with ⟨key, tree⟩
      have hBody :=
        congrArg List.length
          (bodyBytes_append [⟨key, tree⟩] rest)
      rw [List.singleton_append, List.length_append] at hBody
      rw [bodyHeight, Nat.max_le] at hHeight
      exact
        List.forall_mem_cons.mpr
          ⟨⟨hHeight.1, by omega⟩, ih hHeight.2 (by omega)⟩

/- So can those of a document with its length. -/
theorem standAlone_of_document
    {fields : List ParseField}
    (hHeight :
      bodyHeight fields ≤ Limits.standard.maxDepth)
    (hSmall :
      (documentBytes fields).length ≤ Word.maxLength) :
    ∀ field ∈ fields, field.StandsAlone := by
  apply standAlone_of_body hHeight
  rw [documentBytes, length_documentForm] at hSmall
  omega

/- The length field of a document tells its length. -/
theorem documentBytes_eq
    (fields : List ParseField) :
    documentBytes fields =
      Word.ofLength (documentBytes fields).length ++
        bodyBytes fields ++ [0] := by
  rw [documentBytes, length_documentForm, documentForm,
    List.append_assoc]

end Grammar

end BsonView

------------------------------------------------------------
-- Documents
------------------------------------------------------------

namespace BsonView

open Grammar

namespace Element

variable {element : Element} {field : ParseField}

/- An element of a document is encoded on its own. -/
theorem encode_of_standsAlone
    (hField : element.Encodes field)
    (hAlone : field.StandsAlone) :
    element.encode = .ok (bodyBytes [field]) :=
  encode_eq_ok.mpr
    ⟨field, hField, hAlone.height_le, hAlone.fits,
      lt_positionLimit hAlone.length_le, rfl⟩

end Element

/- A body is what its elements are one by one. -/
theorem Grammar.bodyBytes_eq_flatten
    (fields : List ParseField) :
    bodyBytes fields =
      (fields.map fun field =>
        bodyBytes [field]).flatten := by
  induction fields with
  | nil => rfl
  | cons field rest ih =>
      rw [← List.singleton_append, bodyBytes_append, ih]
      rfl

/- Elements that stand alone are encoded one by one. -/
theorem encodeEach_of_encode :
    ∀ {elements : List Element} {fields : List ParseField},
      elementsEncode elements fields →
      (∀ field ∈ fields, field.StandsAlone) →
      EncodeEach elements
        (fields.map fun field => bodyBytes [field])
| [], [], _, _ => .nil
| ⟨_⟩ :: _, ⟨_, _⟩ :: _, ⟨hKey, hTree, hRest⟩, hAlone => by
    rcases List.forall_mem_cons.mp hAlone with
      ⟨hFirst, hLater⟩
    exact
      .cons
        (Element.encode_of_standsAlone ⟨hKey, hTree⟩ hFirst)
        (encodeEach_of_encode hRest hLater)
| [], ⟨_, _⟩ :: _, hEncode, _ => hEncode.elim
| ⟨_⟩ :: _, [], hEncode, _ => hEncode.elim

/-
  A document is encoded as its elements one by one, between
  its length and a null byte.
-/
theorem Document.exists_parts_of_encode
    {doc : Document}
    {bytes : Bytes}
    (hEncode : doc.encode = .ok bytes) :
    ∃ parts, EncodeEach doc.elements parts ∧
      bytes =
        Word.ofLength bytes.length ++ parts.flatten ++
          [0] := by
  rcases encode_eq_ok.mp hEncode with
    ⟨fields, hFields, hHeight, hSmall, rfl⟩
  rcases doc with ⟨elements⟩
  have hAlone :=
    standAlone_of_document hHeight hSmall
  refine ⟨_, encodeEach_of_encode hFields hAlone, ?_⟩
  rw [← bodyBytes_eq_flatten]
  exact documentBytes_eq fields

end BsonView

------------------------------------------------------------
-- Arrays
------------------------------------------------------------

namespace BsonView

open Grammar

/-
  An element whose payload is short enough is written as
  that payload, whatever its own key is.
-/
theorem Element.writesPayload_of_encodes
    {value : Value}
    {own : Bytes}
    {tree : ParseTree}
    (hOwn : value.keyBytes? = some own)
    (hTree : value.Encodes tree)
    (hHeight : tree.height ≤ Limits.standard.maxDepth)
    (hSmall : tree.bytes.length ≤ Word.maxLength) :
    (⟨value⟩ : Element).WritesPayload tree.tag
      tree.bytes where
  tag_eq := Value.tag_of_encodes hTree
  length_lt := lt_positionLimit hSmall
  fills := by
    have hField :
        (⟨value⟩ : Element).Encodes ⟨own, tree⟩ :=
      ⟨hOwn, hTree⟩
    rw [← Nat.zero_add tree.height] at hHeight
    have hValid :=
      (Element.measure_eq_ok (Nat.zero_le _)).mpr
        ⟨_, hField, rfl, hHeight⟩
    rw [(Element.lead_eq hOwn hTree).2] at hValid
    exact
      ⟨_, hValid, Element.fills_keyless hTree (.inr hSmall)⟩

/- The types and payloads of fields. -/
def Grammar.payloads
    (fields : List ParseField) : List (Tag × Bytes) :=
  fields.map fun field =>
    (field.tree.tag, field.tree.bytes)

/- The body of an array is its payloads behind positions. -/
theorem blocksFrom_payloads
    {index : Nat} :
    ∀ {elements : List Element} {fields : List ParseField},
      valuesEncode index elements fields →
      blocksFrom index (payloads fields) = bodyBytes fields
| [], [], _ => rfl
| ⟨_⟩ :: _, ⟨_, _⟩ :: _, ⟨hKey, ⟨_, _⟩, _, hRest⟩ => by
    rw [bodyBytes, ← blocksFrom_payloads hRest, hKey,
      ← Index.ofText_text]
    rfl
| [], ⟨_, _⟩ :: _, hEncode => hEncode.elim
| ⟨_⟩ :: _, [], hEncode => hEncode.elim

/- Values are written as their payloads one by one. -/
theorem writePayloads_of_encode
    {index : Nat} :
    ∀ {elements : List Element} {fields : List ParseField},
      valuesEncode index elements fields →
      (∀ field ∈ fields, field.StandsAlone) →
      WritePayloads elements (payloads fields)
| [], [], _, _ => .nil
| ⟨_⟩ :: _, ⟨_, _⟩ :: _, ⟨_, ⟨_, hOwn⟩, hTree, hRest⟩,
    hAlone => by
    rcases List.forall_mem_cons.mp hAlone with
      ⟨hFirst, hLater⟩
    have hLength := hFirst.length_le
    rw [length_bodyBytes_cons] at hLength
    have hSmall := Nat.le_of_add_right_le hLength
    exact
      .cons
        (Element.writesPayload_of_encodes hOwn hTree
          hFirst.height_le
          (Nat.le_of_add_left_le hSmall))
        (writePayloads_of_encode hRest hLater)
| [], ⟨_, _⟩ :: _, hEncode, _ => hEncode.elim
| ⟨_⟩ :: _, [], hEncode, _ => hEncode.elim

/-
  An array is encoded as its payloads behind their
  positions, between its length and a null byte.
-/
theorem ArrayDoc.exists_payloads_of_encode
    {array : ArrayDoc}
    {bytes : Bytes}
    (hEncode : array.encode = .ok bytes) :
    ∃ payloads, WritePayloads array.elements payloads ∧
      bytes =
        Word.ofLength bytes.length ++
          blocksFrom 0 payloads ++ [0] := by
  rcases encode_eq_ok.mp hEncode with
    ⟨fields, hFields, hHeight, hSmall, rfl⟩
  rcases array with ⟨elements⟩
  have hAlone := standAlone_of_document hHeight hSmall
  refine ⟨_, writePayloads_of_encode hFields hAlone, ?_⟩
  rw [blocksFrom_payloads hFields]
  exact documentBytes_eq fields

end BsonView

------------------------------------------------------------
-- Exchanges
------------------------------------------------------------

namespace BsonView

/- What is written is not two different things. -/
theorem Written.Fills.unique
    {write : Nat → Bytes → Written}
    {a b : Bytes}
    (hA : Written.Fills write a)
    (hB : Written.Fills write b)
    (hLengthA : a.length < positionLimit)
    (hLengthB : b.length < positionLimit) :
    a = b := by
  let dest : Bytes :=
    List.replicate (max a.length b.length) 0
  have hDest : dest.length = max a.length b.length :=
    List.length_replicate
  have hAddress : dest.length < positionLimit := by omega
  have hWrittenA := hA 0 dest hAddress (by omega)
  have hWrittenB := hB 0 dest hAddress (by omega)
  rcases Written.mk.inj
      (hWrittenA.symm.trans hWrittenB) with
    ⟨hLength, hBytes⟩
  have hSame := Except.ok.inj hLength
  simp only [Bytes.overwrite, List.take_zero,
    List.nil_append] at hBytes
  exact (List.append_inj hBytes hSame).1

/- An element is written as one payload. -/
theorem Element.WritesPayload.unique
    {element : Element}
    {tag other : Tag}
    {payload more : Bytes}
    (hFirst : element.WritesPayload tag payload)
    (hSecond : element.WritesPayload other more) :
    (tag, payload) = (other, more) := by
  have hTag :=
    Except.ok.inj (hFirst.tag_eq.symm.trans hSecond.tag_eq)
  rcases hFirst.fills with ⟨size, hSize, hFills⟩
  rcases hSecond.fills with ⟨again, hAgain, hOther⟩
  cases hSize.symm.trans hAgain
  rw [hTag,
    hFills.unique hOther hFirst.length_lt hSecond.length_lt]

section

variable
  {α β : Type}
  {R : α → β → Prop}
  {before old new after : List α}
  {parts others : List β}

/- What corresponds to two lists has two parts. -/
theorem forall₂_append
    {front back : List α}
    (hParts : List.Forall₂ R (front ++ back) parts) :
    ∃ first last, parts = first ++ last ∧
      List.Forall₂ R front first ∧
      List.Forall₂ R back last := by
  have hFirst := List.forall₂_take front.length hParts
  have hLast := List.forall₂_drop front.length hParts
  rw [List.take_left] at hFirst
  rw [List.drop_left] at hLast
  exact
    ⟨_, _, (List.take_append_drop _ _).symm, hFirst, hLast⟩

/-
  Where each item has one part, exchanging some items
  exchanges their parts and no others.
-/
theorem forall₂_exchanged
    (hUnique : Relator.RightUnique R)
    (hParts :
      List.Forall₂ R (before ++ old ++ after) parts)
    (hOthers :
      List.Forall₂ R (before ++ new ++ after) others) :
    ∃ front was now back,
      List.Forall₂ R before front ∧
        List.Forall₂ R old was ∧
        List.Forall₂ R new now ∧
        List.Forall₂ R after back ∧
        parts = front ++ was ++ back ∧
        others = front ++ now ++ back := by
  rcases forall₂_append hParts with
    ⟨left, back, rfl, hLeft, hBack⟩
  rcases forall₂_append hLeft with
    ⟨front, was, rfl, hFront, hWas⟩
  rcases forall₂_append hOthers with
    ⟨left, last, rfl, hLeft, hLast⟩
  rcases forall₂_append hLeft with
    ⟨start, now, rfl, hStart, hNow⟩
  cases List.right_unique_forall₂' hUnique hFront hStart
  cases List.right_unique_forall₂' hUnique hBack hLast
  exact
    ⟨front, was, now, back, hFront, hWas, hNow, hBack, rfl,
      rfl⟩

end

end BsonView

------------------------------------------------------------
-- Edits Of One Element
------------------------------------------------------------

namespace BsonView

/-
  One list of elements becomes the other where one element
  is changed, added or taken out.
-/
def DifferInOne (elements changed : List Element) : Prop :=
  ∃ before after, ∃ old new : Option Element,
    elements = before ++ old.toList ++ after ∧
      changed = before ++ new.toList ++ after

/- An edit of one element of a document. -/
inductive Document.EditedTo (doc : Document) :
    Document → Prop
| pushed (element : Element) :
    doc.EditedTo (doc.push element)
| assigned
    {key : String}
    {value : Value}
    {changed : Document}
    {replaced : Option Element}
    (hSet : doc.set key value = .ok (changed, replaced)) :
    doc.EditedTo changed
| erased
    {key : String}
    {changed : Document}
    {element : Element}
    (hErase : doc.erase? key = some (changed, element)) :
    doc.EditedTo changed
| replaced (index : Nat) (element : Element) :
    doc.EditedTo (doc.replaceAt index element)

/- An edit of one value of an array. -/
inductive ArrayDoc.EditedTo (array : ArrayDoc) :
    ArrayDoc → Prop
| pushed
    {value : Value}
    {changed : ArrayDoc}
    (hPush : array.push value = .ok changed) :
    array.EditedTo changed
| erased
    {index : Nat}
    {changed : ArrayDoc}
    {value : Value}
    (hErase : array.erase? index = some (changed, value)) :
    array.EditedTo changed
| replaced (index : Nat) (value : Value) :
    array.EditedTo (array.replaceAt index value)

/- One more element at the end is a difference in one. -/
theorem differInOne_push
    (elements : List Element)
    (element : Element) :
    DifferInOne elements (elements ++ [element]) :=
  ⟨elements, [], none, some element, by simp, by simp⟩

/- An element replaced at a position is one too, if any. -/
theorem differInOne_set
    (elements : List Element)
    (index : Nat)
    (element : Element) :
    DifferInOne elements (elements.set index element) := by
  by_cases hIndex : index < elements.length
  · refine
      ⟨elements.take index, elements.drop (index + 1),
        some elements[index], some element, ?_, ?_⟩
    · simp
    · rw [List.set_eq_take_append_cons_drop, if_pos hIndex]
      simp
  · rw [List.set_eq_of_length_le (by omega)]
    exact ⟨elements, [], none, none, by simp, by simp⟩

/- So is an element taken out. -/
theorem differInOne_eraseIdx
    (elements : List Element)
    (index : Nat) :
    DifferInOne elements (elements.eraseIdx index) := by
  by_cases hIndex : index < elements.length
  · refine
      ⟨elements.take index, elements.drop (index + 1),
        some elements[index], none, ?_, ?_⟩
    · simp
    · rw [List.eraseIdx_eq_take_drop_succ]
      simp
  · rw [List.eraseIdx_of_length_le (by omega)]
    exact ⟨elements, [], none, none, by simp, by simp⟩

theorem Document.EditedTo.differInOne
    {doc changed : Document}
    (hEdit : doc.EditedTo changed) :
    DifferInOne doc.elements changed.elements := by
  cases hEdit with
  | pushed element => exact differInOne_push _ element
  | @assigned key value _ replaced hSet =>
      unfold set at hSet
      split at hSet
      · split at hSet <;> cases hSet
      next made _ =>
        split at hSet
        next index _ =>
          cases hSet
          exact differInOne_set _ index made
        · cases hSet
          exact differInOne_push _ made
  | erased hErase =>
      rcases Option.bind_eq_some_iff.mp hErase with
        ⟨index, _, hRest⟩
      rcases Option.bind_eq_some_iff.mp hRest with
        ⟨_, _, hDone⟩
      cases hDone
      exact differInOne_eraseIdx _ index
  | replaced index element =>
      exact differInOne_set _ index element

theorem ArrayDoc.EditedTo.differInOne
    {array changed : ArrayDoc}
    (hEdit : array.EditedTo changed) :
    DifferInOne array.elements changed.elements := by
  cases hEdit with
  | pushed hPush =>
      unfold push at hPush
      split at hPush
      next made _ =>
        cases hPush
        exact differInOne_push _ made
      · cases hPush
  | @erased index _ _ hErase =>
      rcases Option.bind_eq_some_iff.mp hErase with
        ⟨_, _, hDone⟩
      cases hDone
      exact differInOne_eraseIdx _ index
  | replaced index value =>
      exact differInOne_set _ index ⟨value⟩

end BsonView

------------------------------------------------------------
-- Composition
------------------------------------------------------------

namespace BsonView

variable {before old new after : List Element}

/-
  Exchanging elements of a document exchanges their
  encodings, and leaves those of the others.
-/
theorem Document.encode_exchanged
    {bytes again : Bytes}
    (hEncode :
      encode ⟨before ++ old ++ after⟩ = .ok bytes)
    (hAgain : encode ⟨before ++ new ++ after⟩ = .ok again) :
    ∃ front was now back,
      EncodeEach before front ∧
        EncodeEach old was ∧
        EncodeEach new now ∧
        EncodeEach after back ∧
        bytes =
          Word.ofLength bytes.length ++
            (front ++ was ++ back).flatten ++ [0] ∧
        again =
          Word.ofLength again.length ++
            (front ++ now ++ back).flatten ++ [0] := by
  rcases exists_parts_of_encode hEncode with
    ⟨parts, hParts, hBytes⟩
  rcases exists_parts_of_encode hAgain with
    ⟨others, hOthers, hOther⟩
  have hUnique :
      Relator.RightUnique
        (fun (element : Element) (part : Bytes) =>
          element.encode = .ok part) := by
    intro element part other hPart hSame
    exact Except.ok.inj (hPart.symm.trans hSame)
  rcases forall₂_exchanged hUnique hParts hOthers with
    ⟨front, was, now, back, hFront, hWas, hNow, hBack, rfl,
      rfl⟩
  exact
    ⟨front, was, now, back, hFront, hWas, hNow, hBack,
      hBytes, hOther⟩

/-
  Exchanging elements of an array exchanges their payloads,
  and leaves those of the others. Keys are positions.
-/
theorem ArrayDoc.encode_exchanged
    {bytes again : Bytes}
    (hEncode :
      encode ⟨before ++ old ++ after⟩ = .ok bytes)
    (hAgain : encode ⟨before ++ new ++ after⟩ = .ok again) :
    ∃ front was now back,
      WritePayloads before front ∧
        WritePayloads old was ∧
        WritePayloads new now ∧
        WritePayloads after back ∧
        bytes =
          Word.ofLength bytes.length ++
            blocksFrom 0 (front ++ was ++ back) ++ [0] ∧
        again =
          Word.ofLength again.length ++
            blocksFrom 0 (front ++ now ++ back) ++
            [0] := by
  rcases exists_payloads_of_encode hEncode with
    ⟨parts, hParts, hBytes⟩
  rcases exists_payloads_of_encode hAgain with
    ⟨others, hOthers, hOther⟩
  have hUnique :
      Relator.RightUnique
        (fun (element : Element) (payload : Tag × Bytes) =>
          element.WritesPayload payload.1 payload.2) := by
    intro element payload other hPayload hSame
    exact hPayload.unique hSame
  rcases forall₂_exchanged hUnique hParts hOthers with
    ⟨front, was, now, back, hFront, hWas, hNow, hBack, rfl,
      rfl⟩
  exact
    ⟨front, was, now, back, hFront, hWas, hNow, hBack,
      hBytes, hOther⟩

/-
  Encodings are composed of those of their parts. A document
  that has an encoding has it of its elements one by one,
  between its length and a null byte; an array of the types
  and payloads of its elements, each behind the text of its
  position. So exchanging some elements for others leaves
  what the elements before and after them are written as,
  the keys in an array apart. Each edit of one element
  exchanges that one.
-/
theorem encoding_is_compositional :
    (∀ (doc : Document) (bytes : Bytes),
      doc.encode = .ok bytes →
        ∃ parts, EncodeEach doc.elements parts ∧
          bytes =
            Word.ofLength bytes.length ++ parts.flatten ++
              [0]) ∧
      (∀ (array : ArrayDoc) (bytes : Bytes),
        array.encode = .ok bytes →
          ∃ payloads,
            WritePayloads array.elements payloads ∧
              bytes =
                Word.ofLength bytes.length ++
                  blocksFrom 0 payloads ++ [0]) ∧
      (∀ (before old new after : List Element)
          (bytes again : Bytes),
        Document.encode ⟨before ++ old ++ after⟩ =
            .ok bytes →
          Document.encode ⟨before ++ new ++ after⟩ =
              .ok again →
            ∃ front was now back,
              EncodeEach before front ∧
                EncodeEach old was ∧
                EncodeEach new now ∧
                EncodeEach after back ∧
                bytes =
                  Word.ofLength bytes.length ++
                    (front ++ was ++ back).flatten ++ [0] ∧
                again =
                  Word.ofLength again.length ++
                    (front ++ now ++ back).flatten ++
                    [0]) ∧
      (∀ (before old new after : List Element)
          (bytes again : Bytes),
        ArrayDoc.encode ⟨before ++ old ++ after⟩ =
            .ok bytes →
          ArrayDoc.encode ⟨before ++ new ++ after⟩ =
              .ok again →
            ∃ front was now back,
              WritePayloads before front ∧
                WritePayloads old was ∧
                WritePayloads new now ∧
                WritePayloads after back ∧
                bytes =
                  Word.ofLength bytes.length ++
                    blocksFrom 0 (front ++ was ++ back) ++
                    [0] ∧
                again =
                  Word.ofLength again.length ++
                    blocksFrom 0 (front ++ now ++ back) ++
                    [0]) ∧
      (∀ doc changed : Document,
        doc.EditedTo changed →
          DifferInOne doc.elements changed.elements) ∧
      ∀ array changed : ArrayDoc,
        array.EditedTo changed →
          DifferInOne array.elements changed.elements := by
  refine ⟨?_, ?_, ?_, ?_, ?_, ?_⟩
  · intro doc bytes hEncode
    exact Document.exists_parts_of_encode hEncode
  · intro array bytes hEncode
    exact ArrayDoc.exists_payloads_of_encode hEncode
  · intro before old new after bytes again hEncode hAgain
    exact Document.encode_exchanged hEncode hAgain
  · intro before old new after bytes again hEncode hAgain
    exact ArrayDoc.encode_exchanged hEncode hAgain
  · intro doc changed hEdit
    exact hEdit.differInOne
  · intro array changed hEdit
    exact hEdit.differInOne

/-
  A code with scope between two others is erased, of which
  one is opened: the others are written as before, in a
  document and in an array.
-/
theorem neighbours_of_erased_are_written_again :
    let opened : Element :=
      ⟨⟨⟨[3, 97, 0, 9, 9], 0, 3⟩, .document ⟨[]⟩⟩⟩
    let code : Element :=
      ⟨⟨⟨[15, 99, 0, 0, 0, 0, 0, 1, 0, 0, 0, 0, 5, 0, 0, 0,
        0], 0, 3⟩, .raw⟩⟩
    let null : Element := ⟨⟨⟨[10, 98, 0], 0, 3⟩, .raw⟩⟩
    (∃ changed erased,
      Document.erase? ⟨[opened, code, null]⟩ "c" =
          some (changed, erased) ∧
        DifferInOne [opened, code, null]
          changed.elements) ∧
      (∃ front was back,
        EncodeEach [opened] front ∧
          EncodeEach [code] was ∧
          EncodeEach [null] back ∧
          Document.encode ⟨[opened, code, null]⟩ =
            .ok
              (Word.ofLength 33 ++
                (front ++ was ++ back).flatten ++ [0]) ∧
          Document.encode ⟨[opened, null]⟩ =
            .ok
              (Word.ofLength 16 ++
                (front ++ back).flatten ++ [0])) ∧
      ∃ front was back,
        WritePayloads [opened] front ∧
          WritePayloads [code] was ∧
          WritePayloads [null] back ∧
          ArrayDoc.encode ⟨[opened, code, null]⟩ =
            .ok
              (Word.ofLength 33 ++
                blocksFrom 0 (front ++ was ++ back) ++
                [0]) ∧
          ArrayDoc.encode ⟨[opened, null]⟩ =
            .ok
              (Word.ofLength 16 ++
                blocksFrom 0 (front ++ back) ++ [0]) := by
  intro opened code null
  have hDoc :
      Document.encode ⟨[opened] ++ [code] ++ [null]⟩ =
        .ok
          [33, 0, 0, 0, 3, 97, 0, 5, 0, 0, 0, 0, 15, 99, 0,
            14, 0, 0, 0, 1, 0, 0, 0, 0, 5, 0, 0, 0, 0, 10,
            98, 0, 0] := by
    decide +kernel
  have hDocLeft :
      Document.encode ⟨[opened] ++ [] ++ [null]⟩ =
        .ok
          [16, 0, 0, 0, 3, 97, 0, 5, 0, 0, 0, 0, 10, 98, 0,
            0] := by
    decide +kernel
  have hArray :
      ArrayDoc.encode ⟨[opened] ++ [code] ++ [null]⟩ =
        .ok
          [33, 0, 0, 0, 3, 48, 0, 5, 0, 0, 0, 0, 15, 49, 0,
            14, 0, 0, 0, 1, 0, 0, 0, 0, 5, 0, 0, 0, 0, 10,
            50, 0, 0] := by
    decide +kernel
  have hArrayLeft :
      ArrayDoc.encode ⟨[opened] ++ [] ++ [null]⟩ =
        .ok
          [16, 0, 0, 0, 3, 48, 0, 5, 0, 0, 0, 0, 10, 49, 0,
            0] := by
    decide +kernel
  have hErase :
      Document.erase? ⟨[opened, code, null]⟩ "c" =
        some (⟨[opened, null]⟩, code) := by
    have hOpened : opened.key? ≠ some "c" := by
      decide +kernel
    have hCode : code.key? = some "c" := by decide +kernel
    exact
      Document.erase?_of_firstWith
        ⟨rfl, hCode, List.forall_mem_singleton.mpr hOpened⟩
  rcases encoding_is_compositional with
    ⟨_, _, hDocs, hArrays, hEdits, _⟩
  rcases hDocs _ _ _ _ _ _ hDoc hDocLeft with
    ⟨front, was, now, back, hFront, hWas, hNow, hBack,
      hBytes, hLeft⟩
  rcases hArrays _ _ _ _ _ _ hArray hArrayLeft with
    ⟨first, gone, none, last, hFirst, hGone, hNone, hLast,
      hItems, hItemsLeft⟩
  cases hNow
  cases hNone
  rw [List.append_nil] at hLeft hItemsLeft
  refine
    ⟨⟨_, _, hErase, hEdits _ _ (.erased hErase)⟩,
      ⟨front, was, back, hFront, hWas, hBack, ?_, ?_⟩,
      ⟨first, gone, last, hFirst, hGone, hLast, ?_, ?_⟩⟩
  · exact hDoc.trans (congrArg Except.ok hBytes)
  · exact hDocLeft.trans (congrArg Except.ok hLeft)
  · exact hArray.trans (congrArg Except.ok hItems)
  · exact hArrayLeft.trans (congrArg Except.ok hItemsLeft)

end BsonView
