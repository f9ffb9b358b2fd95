import BsonView.Proofs.Reading.Bodies
import BsonView.Proofs.Writing.Exactness

/-
  Round trips.

  What a view encodes is the middle of a round trip: the
  view is written as the encoding of a tree, the encoding
  reads as a view of the same tree, and both hold what the
  tree says. The validator and the view agree about the
  encoding because both measure the tree.

  Main declarations:
    * `Validation.document_of_isDocument_eq_ok`
    * `Document.validateWith_eq_ok`
    * `ArrayDoc.validateWith_eq_ok`
    * `encode_read_round_trip`
-/

------------------------------------------------------------
-- Validity Of Encodings
------------------------------------------------------------

namespace BsonView

open Grammar

variable {limits : Limits} {n : Nat}

/- The encoding of a document is valid up to its height. -/
theorem Validation.document_of_isDocument_eq_ok
    {fields : List ParseField}
    (hFields : IsDocument fields) :
    Validation.document limits (documentBytes fields) 0 0 =
        .ok n ↔
      n = (documentBytes fields).length ∧
        bodyHeight fields ≤ limits.maxDepth := by
  have hOnly (found : List ParseField) :
      IsDocument found ∧
          documentBytes found <+: documentBytes fields ↔
        found = fields := by
    constructor
    · intro ⟨hFound, hFront⟩
      exact hFound.eq_of_fronts hFields hFront
        (List.prefix_refl _)
    · rintro rfl
      exact ⟨hFields, List.prefix_refl _⟩
  rw [document_eq_plain, Plain.document_eq_ok_iff]
  simp only [List.drop_zero, Nat.zero_add, ← and_assoc,
    hOnly]
  simp only [and_assoc, exists_eq_left]

/- A document is valid up to the height of its elements. -/
theorem Document.validateWith_eq_ok
    {doc : Document}
    {fields : List ParseField}
    (hFields : doc.Encodes fields) :
    doc.validateWith limits = .ok n ↔
      n = (documentBytes fields).length ∧
        bodyHeight fields ≤ limits.maxDepth := by
  unfold validateWith
  rw [Document.measure_eq_ok]
  simp only [Document.encodes_iff hFields, exists_eq_left,
    Nat.zero_add]

/- An array is valid up to the height of its values. -/
theorem ArrayDoc.validateWith_eq_ok
    {array : ArrayDoc}
    {fields : List ParseField}
    (hFields : array.Encodes fields) :
    array.validateWith limits = .ok n ↔
      n = (documentBytes fields).length ∧
        bodyHeight fields ≤ limits.maxDepth := by
  unfold validateWith
  rw [ArrayDoc.measure_eq_ok]
  simp only [ArrayDoc.encodes_iff hFields, exists_eq_left,
    Nat.zero_add]

end BsonView

------------------------------------------------------------
-- Round Trips
------------------------------------------------------------

namespace BsonView

open Grammar

/-
  What a document is encoded as reads as a document that
  holds the same members, and is as valid as the document.
-/
theorem Document.read_encode
    {doc : Document}
    {bytes : Bytes}
    (hEncode : doc.encode = .ok bytes) :
    (∃ again members, Document.read bytes = .ok again ∧
        doc.Holds members ∧ again.Holds members) ∧
      ∀ limits n,
        Validation.document limits bytes 0 0 = .ok n ↔
          doc.validateWith limits = .ok n := by
  rcases Document.encode_eq_ok.mp hEncode with
    ⟨fields, hFields, _, hSmall, rfl⟩
  have hDocument :=
    Document.isDocument_of_encodes hFields hSmall
  constructor
  · rcases Document.read_of_isDocument hDocument with
      ⟨again, hRead, hHolds⟩
    exact
      ⟨again, members fields, hRead,
        Document.holds_of_encodes hFields, hHolds⟩
  · intro limits n
    rw [Validation.document_of_isDocument_eq_ok hDocument,
      Document.validateWith_eq_ok hFields]

/-
  What an array is encoded as reads as an array that holds
  the same items, and is as valid as the array.
-/
theorem ArrayDoc.read_encode
    {array : ArrayDoc}
    {bytes : Bytes}
    (hEncode : array.encode = .ok bytes) :
    (∃ again items, ArrayDoc.read bytes = .ok again ∧
        array.Holds items ∧ again.Holds items) ∧
      ∀ limits n,
        Validation.document limits bytes 0 0 = .ok n ↔
          array.validateWith limits = .ok n := by
  rcases ArrayDoc.encode_eq_ok.mp hEncode with
    ⟨fields, hFields, _, hSmall, rfl⟩
  have hDocument :=
    ArrayDoc.isDocument_of_encodes hFields hSmall
  constructor
  · rcases ArrayDoc.read_of_isDocument hDocument with
      ⟨again, hRead, hHolds⟩
    exact
      ⟨again, items fields, hRead,
        ArrayDoc.holds_of_encodes hFields, hHolds⟩
  · intro limits n
    rw [Validation.document_of_isDocument_eq_ok hDocument,
      ArrayDoc.validateWith_eq_ok hFields]

/-
  What an element is encoded as reads as an element with the
  same key that holds the same.
-/
theorem Element.read_encode
    {element : Element}
    {bytes : Bytes}
    (hEncode : element.encode = .ok bytes) :
    ∃ again member, Element.read bytes = .ok again ∧
      element.Holds member ∧ again.Holds member := by
  rcases Element.encode_eq_ok.mp hEncode with
    ⟨⟨key, tree⟩, ⟨hKey, hTree⟩, _, hFits, _, rfl⟩
  have hText := (Place.keyBytes?_eq_some.mp hKey).2.2
  have hWell := Value.wellFormed_of_encodes hTree hFits
  rcases Element.read_of_wellFormed hText hWell with
    ⟨again, hRead, hHolds⟩
  exact
    ⟨again, ⟨key, tree.content⟩, hRead,
      ⟨hKey, Value.holds_of_encodes hTree⟩, hHolds⟩

/-
  Encoding and reading lose nothing. A document that is
  encoded reads again, as one that holds the same members
  and no others: each key with its content, in order, taken
  from opened containers where there are some and from the
  buffers elsewhere. Its encoding is valid within the same
  limits and of the same size. So it is with an array and
  its items; an element reads again with its key.
-/
theorem encode_read_round_trip :
    (∀ (doc : Document) (bytes : Bytes),
      doc.encode = .ok bytes →
        (∃ again members,
          Document.read bytes = .ok again ∧
            (∀ held, doc.Holds held ↔ held = members) ∧
            ∀ held, again.Holds held ↔ held = members) ∧
          ∀ limits n,
            Validation.document limits bytes 0 0 = .ok n ↔
              doc.validateWith limits = .ok n) ∧
      (∀ (array : ArrayDoc) (bytes : Bytes),
        array.encode = .ok bytes →
          (∃ again items,
            ArrayDoc.read bytes = .ok again ∧
              (∀ held, array.Holds held ↔ held = items) ∧
              ∀ held, again.Holds held ↔ held = items) ∧
            ∀ limits n,
              Validation.document limits bytes 0 0 = .ok n ↔
                array.validateWith limits = .ok n) ∧
      ∀ (element : Element) (bytes : Bytes),
        element.encode = .ok bytes →
          ∃ again member,
            Element.read bytes = .ok again ∧
              (∀ held,
                element.Holds held ↔ held = member) ∧
              ∀ held, again.Holds held ↔ held = member := by
  refine ⟨?_, ?_, ?_⟩
  · intro doc bytes hEncode
    rcases Document.read_encode hEncode with
      ⟨⟨again, members, hRead, hDoc, hAgain⟩, hValid⟩
    exact
      ⟨⟨again, members, hRead, Document.holds_iff hDoc,
        Document.holds_iff hAgain⟩, hValid⟩
  · intro array bytes hEncode
    rcases ArrayDoc.read_encode hEncode with
      ⟨⟨again, items, hRead, hArray, hAgain⟩, hValid⟩
    exact
      ⟨⟨again, items, hRead, ArrayDoc.holds_iff hArray,
        ArrayDoc.holds_iff hAgain⟩, hValid⟩
  · intro element bytes hEncode
    rcases Element.read_encode hEncode with
      ⟨again, member, hRead, hElement, hAgain⟩
    exact
      ⟨again, member, hRead, Element.holds_iff hElement,
        Element.holds_iff hAgain⟩

/- A document opened in another is read out of its bytes. -/
theorem opened_document_round_trip :
    ∃ again,
      Document.read
          [13, 0, 0, 0, 3, 97, 0, 5, 0, 0, 0, 0, 0] =
        .ok again ∧
      again.Holds [⟨[97], .document []⟩] := by
  rcases encode_read_round_trip.1
      ⟨[⟨⟨⟨[3, 97, 0], 0, 3⟩, .document ⟨[]⟩⟩⟩]⟩ _ rfl with
    ⟨⟨again, members, hRead, hDoc, hAgain⟩, _⟩
  have hMembers : [⟨[97], .document []⟩] = members := by
    apply (hDoc _).mp
    exact ⟨rfl, ⟨rfl, trivial⟩, trivial⟩
  refine ⟨again, hRead, ?_⟩
  exact (hAgain _).mpr hMembers

end BsonView
