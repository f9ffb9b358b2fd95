import BsonView.Editing
import BsonView.Proofs.Validation.Locality

/-
  Where a document is edited.

  A document has no element with a key, or a first one with
  others before and after it. What each operation answers
  and leaves is said of these parts, and operations on other
  keys see no difference.

  Main declarations:
    * `Document.Lacks`
    * `Document.FirstWith`
    * `Document.lacks_or_firstWith`
    * `Element.make?_eq_none`
    * `Element.keyBytes?_of_make?`
    * `Element.of_make?`
    * `Document.set_eq_invalidKey`
    * `Document.set_eq_uninitialized`
    * `Document.set_of_lacks`
    * `Document.set_of_firstWith`
-/

------------------------------------------------------------
-- Parts Of A Document
------------------------------------------------------------

namespace BsonView

namespace Document

/- No element has the key. -/
def Lacks
    (doc : Document)
    (key : String) : Prop :=
  ∀ element ∈ doc.elements, element.key? ≠ some key

/-
  The element is the first one with the key, between the
  elements before and after it.
-/
structure FirstWith
    (doc : Document)
    (key : String)
    (before : List Element)
    (element : Element)
    (after : List Element) : Prop where
  elements_eq : doc.elements = before ++ element :: after
  key_eq : element.key? = some key
  before_lacks :
    ∀ other ∈ before, other.key? ≠ some key

variable {doc : Document} {key : String}

theorem position?_of_lacks
    (hLacks : doc.Lacks key) :
    doc.position? key = none := by
  rw [position?, List.findIdx?_eq_none_iff]
  intro element hElement
  rw [beq_eq_false_iff_ne]
  exact hLacks element hElement

theorem position?_of_firstWith
    {before after : List Element}
    {element : Element}
    (hFirst : doc.FirstWith key before element after) :
    doc.position? key = some before.length := by
  rw [position?, List.findIdx?_eq_some_iff_getElem]
  have hThere : before.length < doc.elements.length := by
    rw [hFirst.elements_eq, List.length_append,
      List.length_cons]
    omega
  refine ⟨hThere, ?_, ?_⟩
  · simp [hFirst.elements_eq, hFirst.key_eq]
  · intro index hIndex
    have hMem : before[index] ∈ before :=
      List.getElem_mem hIndex
    simp [hFirst.elements_eq, hIndex,
      hFirst.before_lacks _ hMem]

/- A document is of one kind or the other for every key. -/
theorem lacks_or_firstWith
    (doc : Document)
    (key : String) :
    doc.Lacks key ∨
      ∃ before element after,
        doc.FirstWith key before element after := by
  cases hPosition : doc.position? key with
  | none =>
      left
      intro element hElement
      have hAll :=
        List.findIdx?_eq_none_iff.mp hPosition element
          hElement
      exact beq_eq_false_iff_ne.mp hAll
  | some index =>
      right
      rcases List.findIdx?_eq_some_iff_getElem.mp hPosition
        with ⟨hIndex, hKey, hBefore⟩
      refine
        ⟨doc.elements.take index, doc.elements[index],
          doc.elements.drop (index + 1), ?_, ?_, ?_⟩
      · rw [List.getElem_cons_drop, List.take_append_drop]
      · exact eq_of_beq hKey
      · intro other hOther
        rcases List.mem_take_iff_getElem.mp hOther with
          ⟨place, hPlace, rfl⟩
        have hFalse := hBefore place (by omega)
        simpa using hFalse

end Document

end BsonView

------------------------------------------------------------
-- Finding And Erasing
------------------------------------------------------------

namespace BsonView

namespace Document

variable
  {doc : Document}
  {key : String}
  {before after : List Element}
  {element : Element}

theorem find?_of_lacks
    (hLacks : doc.Lacks key) :
    doc.find? key = none := by
  rw [find?, position?_of_lacks hLacks]
  rfl

/- The first element with a key is found. -/
theorem find?_of_firstWith
    (hFirst : doc.FirstWith key before element after) :
    doc.find? key = some element := by
  rw [find?, position?_of_firstWith hFirst]
  simp [hFirst.elements_eq]

theorem erase?_of_lacks
    (hLacks : doc.Lacks key) :
    doc.erase? key = none := by
  rw [erase?, position?_of_lacks hLacks]
  rfl

/- The first element with a key is erased, and no other. -/
theorem erase?_of_firstWith
    (hFirst : doc.FirstWith key before element after) :
    doc.erase? key = some (⟨before ++ after⟩, element) := by
  rw [erase?, position?_of_firstWith hFirst,
    hFirst.elements_eq]
  simp [List.eraseIdx_append_of_length_le]

/- What is found is the first element that has the key. -/
theorem find?_eq
    (doc : Document)
    (key : String) :
    doc.find? key =
      doc.elements.find? (·.key? == some key) := by
  rcases doc.lacks_or_firstWith key with
    hLacks | ⟨before, element, after, hFirst⟩
  · rw [find?_of_lacks hLacks, eq_comm, List.find?_eq_none]
    intro element hElement
    simpa using hLacks element hElement
  · rw [find?_of_firstWith hFirst, eq_comm,
      List.find?_eq_some_iff_append]
    refine
      ⟨by simpa using hFirst.key_eq, before, after,
        hFirst.elements_eq, ?_⟩
    intro other hOther
    simpa using hFirst.before_lacks other hOther

end Document

end BsonView

------------------------------------------------------------
-- Made Elements
------------------------------------------------------------

namespace BsonView

namespace Place

/-
  The payload has no length: the place is not initialized,
  its first byte announces no type, or the framing is not
  one of that type.
-/
def Unsized (place : Place) : Prop :=
  place.isInitialized = false ∨
    (∃ b, place.buffer[place.start]? = some b ∧
      Tag.ofByte? b = none) ∨
    ∃ tag error, place.tag = .ok tag ∧
      Framing.payloadLength tag place.rest = .error error

/- No length, no bytes. -/
theorem unsized_iff
    {place : Place} :
    place.Unsized ↔
      ¬∃ bytes, place.payloadBytes = .ok bytes := by
  constructor
  · rintro hUnsized ⟨bytes, hBytes⟩
    rcases bind_eq_ok.mp hBytes with ⟨tag, hTag, hLength⟩
    rcases bind_eq_ok.mp hLength with ⟨n, hCount, _⟩
    rcases tag_eq_ok.mp hTag with ⟨hStart, hOffset, hByte⟩
    rcases hUnsized with
      hBlank | ⟨b, hFound, hUnknown⟩ |
        ⟨own, error, hOwn, hError⟩
    · unfold isInitialized at hBlank
      simp at hBlank
      omega
    · rw [hByte] at hFound
      cases hFound
      rw [Tag.ofByte?_byte] at hUnknown
      cases hUnknown
    · cases hTag.symm.trans hOwn
      cases hCount.symm.trans hError
  · intro hNone
    by_cases hThere : place.isInitialized = true
    · right
      cases hTag : place.tag with
      | error error =>
          left
          have hInside := hThere
          unfold isInitialized at hInside
          have hByte :
              place.start < place.buffer.length := by
            simp at hInside
            omega
          have hFirst := List.getElem?_eq_getElem hByte
          refine ⟨_, hFirst, ?_⟩
          rw [Place.tag, if_pos hThere, Framing.tag,
            List.getD_eq_getElem?_getD, hFirst,
            Option.getD_some] at hTag
          cases hFound :
              Tag.ofByte? place.buffer[place.start] with
          | none => rfl
          | some found =>
              rw [hFound] at hTag
              cases hTag
      | ok tag =>
          right
          cases hCount :
              Framing.payloadLength tag place.rest with
          | error error => exact ⟨tag, error, rfl, hCount⟩
          | ok n =>
              exact absurd ⟨_, payloadBytes_eq hTag hCount⟩
                hNone
    · left
      exact Bool.eq_false_iff.mpr hThere

end Place

namespace Element

variable {key : String} {value : Value}

/-
  An element is made unless the key has a null byte or the
  value is without a type or a length.
-/
theorem make?_eq_none :
    make? key value = none ↔
      0 ∈ Bytes.ofText key ∨
        ¬∃ bytes, value.payloadBytes = .ok bytes := by
  unfold make?
  dsimp only
  cases hTag : value.tag with
  | error error =>
      have hNone : value.payloadBytes = .error error := by
        rw [Place.payloadBytes, hTag]
        rfl
      simp [hNone]
  | ok tag =>
      cases hBytes : value.payloadBytes with
      | error error => simp
      | ok bytes =>
          by_cases hKey : 0 ∈ Bytes.ofText key
          · simp [hKey]
          · simp [hKey]

/- What is made has the bytes of the key before a null. -/
theorem keyBytes?_of_make?
    {element : Element}
    (hMake : make? key value = some element) :
    element.value.keyBytes? = some (Bytes.ofText key) := by
  unfold make? at hMake
  dsimp only at hMake
  split at hMake
  · split at hMake
    · cases hMake
    next hNull =>
      cases hMake
      refine Place.keyBytes?_eq_some.mpr ⟨?_, ?_, hNull⟩
      · simp
      · simp [List.take_append]
  · cases hMake

/-
  What is made has the key, and the type, the bytes and the
  container of the value.
-/
theorem of_make?
    {element : Element}
    (hMake : make? key value = some element) :
    element.key? = some key ∧
      element.value.tag = value.tag ∧
      element.value.payloadBytes = value.payloadBytes ∧
      element.value.payload = value.payload := by
  rcases of_make?_eq_some hMake with
    ⟨tag, bytes, hTag, hBytes, hOwn, hRest, hPayload⟩
  refine ⟨?_, hOwn.trans hTag.symm, ?_, hPayload⟩
  · rw [key?, keyBytes?_of_make? hMake]
    exact Bytes.text?_ofText key
  · rcases (Place.payloadBytes_eq_ok hTag).mp hBytes with
      ⟨n, hCount, rfl⟩
    have hTaken := Framing.payloadLength_take hCount
    rw [hBytes, Place.payloadBytes_eq hOwn (hRest ▸ hTaken),
      hRest, List.take_take, Nat.min_self]

end Element

end BsonView

------------------------------------------------------------
-- Setting
------------------------------------------------------------

namespace BsonView

namespace Document

variable
  {doc changed : Document}
  {key other : String}
  {value : Value}
  {before after : List Element}
  {element made : Element}

/- Nothing is set under a key with a null byte. -/
theorem set_eq_invalidKey :
    doc.set key value = .error .invalidKey ↔
      0 ∈ Bytes.ofText key := by
  unfold set
  cases hMake : Element.make? key value with
  | none =>
      by_cases hKey : 0 ∈ Bytes.ofText key
      · simp [hKey]
      · simp [hKey]
  | some element =>
      have hKey : 0 ∉ Bytes.ofText key := by
        intro hNull
        rw [Element.make?_eq_none.mpr (.inl hNull)] at hMake
        cases hMake
      cases doc.position? key <;> simp [hKey]

/- Nothing is set that has no length. -/
theorem set_eq_uninitialized :
    doc.set key value = .error .uninitializedValue ↔
      0 ∉ Bytes.ofText key ∧ value.Unsized := by
  rw [Place.unsized_iff]
  unfold set
  cases hMake : Element.make? key value with
  | none =>
      have hCause := Element.make?_eq_none.mp hMake
      by_cases hKey : 0 ∈ Bytes.ofText key
      · simp [hKey]
      · have hNone := hCause.resolve_left hKey
        simp only [if_neg hKey, true_iff]
        exact ⟨hKey, hNone⟩
  | some element =>
      have hBytes :
          ∃ bytes, value.payloadBytes = .ok bytes := by
        by_contra hNone
        rw [Element.make?_eq_none.mpr (.inr hNone)] at hMake
        cases hMake
      cases doc.position? key <;> simp [hBytes]

/- A key that is not there is added at the end. -/
theorem set_of_lacks
    (hMake : Element.make? key value = some made)
    (hLacks : doc.Lacks key) :
    doc.set key value =
      .ok (⟨doc.elements ++ [made]⟩, none) := by
  unfold set
  rw [hMake, position?_of_lacks hLacks]
  rfl

/- The first element with the key is replaced. -/
theorem set_of_firstWith
    (hMake : Element.make? key value = some made)
    (hFirst : doc.FirstWith key before element after) :
    doc.set key value =
      .ok (⟨before ++ made :: after⟩, some element) := by
  unfold set
  rw [hMake, position?_of_firstWith hFirst]
  dsimp only [replaceAt]
  rw [hFirst.elements_eq]
  simp

end Document

end BsonView
