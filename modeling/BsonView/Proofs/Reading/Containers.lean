import BsonView.Opening
import BsonView.Proofs.Reading.Bodies

/-
  Containers that are still in their buffers.

  Where the encoding of an embedded document, an array or a
  code with scope stands, its container can be opened, and
  the elements found show what stands in it.

  Main declarations:
    * `Place.scopeOffset_of_stringLength`
    * `Place.of_readScope_eq_ok`
    * `Value.Shows.openDocument`
    * `Value.Shows.openArray`
    * `Value.Shows.openScope`
-/

------------------------------------------------------------
-- Scopes
------------------------------------------------------------

namespace BsonView

namespace Place

open Grammar

variable {place : Place}

/- A scope begins where the string before it ends. -/
theorem scopeOffset_of_stringLength
    {code : Nat}
    (hCode :
      Framing.stringLength (place.rest.drop 4) =
        .ok code) :
    place.scopeOffset = .ok (4 + code) := by
  rcases Framing.stringLength_eq_ok.mp hCode with
    ⟨length, hLength, _, rfl, _, _⟩
  rw [scopeOffset, hLength, ← Nat.add_assoc]
  rfl

/-
  A scope that is read has an outer length before it, and is
  read behind its string if that is one.
-/
theorem of_readScope_eq_ok
    {scope : Document}
    (hRead : place.readScope = .ok scope) :
    4 ≤ place.rest.length ∧
      ∀ code,
        Framing.stringLength (place.rest.drop 4) =
          .ok code →
        Document.readFrom place.buffer
          (place.offset + (4 + code)) = .ok scope := by
  rcases bind_eq_ok.mp hRead with ⟨lead, hLead, hScope⟩
  rcases bind_eq_ok.mp hLead with ⟨length, hLength, _⟩
  constructor
  · have hField :=
      (Word.readLength_eq_ok.mp hLength).2.length_le
    rw [Word.length_ofLength, List.length_drop] at hField
    omega
  · intro code hCode
    rw [scopeOffset_of_stringLength hCode] at hLead
    cases hLead
    exact hScope

/- The string of a code with scope tells where that begins. -/
theorem scopeOffset_eq
    {text : Bytes}
    (hText : text.length + 1 ≤ Word.maxLength)
    (hString : stringForm text <+: place.rest.drop 4) :
    place.scopeOffset =
      .ok (4 + (stringForm text).length) :=
  scopeOffset_of_stringLength
    (stringLength_eq_ok.mpr ⟨text, hText, hString, rfl⟩)

end Place

end BsonView

------------------------------------------------------------
-- Containers
------------------------------------------------------------

namespace BsonView

open Grammar

namespace Value.Shows

variable {value : Value} {fields : List ParseField}

/- The document that a value shows is opened. -/
theorem openDocument
    (hShows : value.Shows (.document fields)) :
    ∃ doc, value.openDocument = .ok doc ∧
      elementsShow doc.elements fields := by
  rw [openDocument_of_raw hShows.raw hShows.tag_eq]
  exact
    Document.readFrom_of_front hShows.wellFormed
      hShows.front

/- The array that a value shows is opened. -/
theorem openArray
    (hShows : value.Shows (.array fields)) :
    ∃ array, value.openArray = .ok array ∧
      elementsShow array.elements fields := by
  rcases Document.readFrom_of_front hShows.wellFormed
      hShows.front with
    ⟨⟨elements⟩, hRead, hShow⟩
  refine ⟨⟨elements⟩, ?_, hShow⟩
  rw [openArray_of_raw hShows.raw hShows.tag_eq]
  unfold Place.readArray ArrayDoc.readFrom
  rw [hRead]
  rfl

/- The scope that a value shows after its code is opened. -/
theorem openScope
    {outer text : Bytes}
    (hShows : value.Shows (.code outer text fields)) :
    text.length + 1 ≤ Word.maxLength ∧
      stringForm text <+: value.rest.drop 4 ∧
      ∃ scope, value.openScope = .ok scope ∧
        elementsShow scope.elements fields := by
  rcases hShows.wellFormed with ⟨hOuter, hText, hFields⟩
  rcases (code_bytes_iff hOuter).mp hShows.front with
    ⟨_, hString, hBody⟩
  rw [Place.rest, List.drop_drop] at hBody
  rcases Document.readFrom_of_front hFields hBody with
    ⟨scope, hRead, hShow⟩
  refine ⟨hText, hString, scope, ?_, hShow⟩
  rw [openScope_of_raw hShows.raw hShows.tag_eq,
    Place.readScope, Place.scopeOffset_eq hText hString,
    ok_bind]
  exact hRead

end Value.Shows

end BsonView
