import BsonView.Proofs.Validation.Moving
import BsonView.Proofs.Writing.Substitution
import BsonView.Proofs.Writing.Windows

/-
  Writes that size themselves.

  The length of a payload is told in three ways: by its
  framing, by validation, and by the parts of a code with
  scope when it is written. They agree on what is valid. So
  an element in a buffer is written in the same way with the
  size that validation has answered and with none, in a
  window of that size and in the whole destination.

  Main declarations:
    * `Write.throughout`
    * `Write.Declines`
    * `Payload.raw_declines`
    * `Element.write_eq_throughout`
    * `Element.write_raw`
    * `cheap_lengths_agree_with_validation`
-/

------------------------------------------------------------
-- Windows And Destinations
------------------------------------------------------------

namespace BsonView

namespace Write

/- How an action ends with all of a destination in reach. -/
def throughout
    (action : Write Nat)
    (dest : Bytes) : Written :=
  let (outcome, left) := action dest
  ⟨outcome, left⟩

/-
  The action fails with nothing placed, in every destination
  in the same way.
-/
def Declines
    (action : Write Nat)
    (failure : Failure) : Prop :=
  ∀ dest : Bytes, action dest = (.error failure, dest)

variable
  {action : Write Nat}
  {start : Nat}
  {dest : Bytes}

/- What emits needs no more than the window it asks for. -/
theorem Emits.into_eq
    {bytes : Bytes}
    {p : Prop}
    (hEmits : action.Emits start bytes bytes.length p)
    (hFits : p)
    (hAddress : dest.length < positionLimit)
    (hRoom : start + bytes.length ≤ dest.length) :
    Write.into start bytes.length action dest =
      throughout action dest := by
  unfold throughout
  rcases hEmits dest hRoom with
    ⟨_, hWhole⟩ | ⟨hLong, _⟩
  · rcases hEmits.into hAddress hRoom with
      ⟨_, hWindow⟩ | ⟨hLong, _⟩
    · rw [hWindow, hWhole]
    · exact absurd hFits hLong
  · exact absurd hFits hLong

/- What declines does so in every window. -/
theorem Declines.into_eq
    {failure : Failure}
    {length : Nat}
    (hDeclines : action.Declines failure)
    (hAddress : dest.length < positionLimit)
    (hRoom : start + length ≤ dest.length) :
    Write.into start length action dest =
      throughout action dest := by
  unfold Write.into within throughout
  dsimp only
  rw [if_neg (by omega), if_neg (by omega), hDeclines,
    hDeclines, List.take_append_drop]

end Write

end BsonView

------------------------------------------------------------
-- Elements In Buffers
------------------------------------------------------------

namespace BsonView

open Grammar

/-
  Of the payloads in buffers only a code with scope can be
  too long for its length field.
-/
theorem Grammar.ParseTree.WellFormed.fits_agreeing
    {found : ParseTree}
    (hFound : found.WellFormed)
    (hTag : found.tag ≠ .codeWithScope) :
    found.agreeing.Fits := by
  cases found with
  | scalar tag form =>
      have hForm : ScalarForm tag form := hFound
      exact .inl hForm.isScalar
  | document fields => exact .inr hFound.2
  | array fields => exact .inr hFound.2
  | code outer text scope => exact absurd rfl hTag

/- That is found out before anything of it is placed. -/
theorem Payload.raw_declines
    {place : Place}
    {found : ParseTree}
    {first start size : Nat}
    (hFound : found.WellFormed)
    (hPrefix : found.bytes <+: place.rest)
    (hLong : ¬found.agreeing.Fits) :
    (Payload.raw.emit place found.tag first (some size)
      start).Declines
      ((Error.invalidLength Word.maxLength
        found.bytes.length).after 0) := by
  have hCode : found.tag = .codeWithScope := by
    by_contra hOther
    exact hLong (hFound.fits_agreeing hOther)
  have hTooLong : ¬found.bytes.length ≤ Word.maxLength := by
    rw [← ParseTree.length_agreeing hFound]
    intro hShort
    exact hLong (.inr hShort)
  rcases hFound.code_of_tag hCode with
    ⟨outer, text, scope, rfl⟩
  intro dest
  rw [Payload.emit_raw (.inr rfl), ParseTree.tag,
    if_pos rfl, Place.copyRawCode,
    Place.outerLengths_eq hFound hPrefix, if_neg hTooLong]
  rfl

/- So does the value that has such a payload. -/
theorem Value.declines
    {value : Value}
    {tree : ParseTree}
    (hTree : value.Encodes tree)
    (hRaw : value.payload = .raw)
    (hLong : ¬tree.Fits)
    (keyed : Bool)
    (size start : Nat) :
    (value.emit keyed (some size) start).Declines
      ((Error.invalidLength Word.maxLength
        tree.bytes.length).after 0) := by
  rcases value with ⟨place, payload⟩
  cases hRaw
  rcases hTree with ⟨hTag, found, hFound, hPrefix, rfl⟩
  rw [ParseTree.tag_agreeing] at hTag
  rw [ParseTree.length_agreeing hFound, Value.emit, hTag]
  exact Payload.raw_declines hFound hPrefix hLong

/- A value in a buffer that is no code with scope fits. -/
theorem Value.fits_of_raw
    {value : Value}
    {tree : ParseTree}
    (hTree : value.Encodes tree)
    (hRaw : value.payload = .raw)
    (hOther : value.tag ≠ .ok .codeWithScope) :
    tree.Fits := by
  have hTag := tag_of_encodes hTree
  rcases value with ⟨place, payload⟩
  cases hRaw
  rcases hTree with ⟨_, found, hFound, _, rfl⟩
  rw [ParseTree.tag_agreeing] at hTag
  apply hFound.fits_agreeing
  intro hCode
  rw [hTag, hCode] at hOther
  exact hOther rfl

namespace Element

/- The room for an element is that for lead and payload. -/
theorem roomFor_eq
    {value : Value}
    {tag : Tag}
    (hTag : value.tag = .ok tag)
    (keyed : Bool)
    (payload : Bytes) :
    (⟨value⟩ : Element).roomFor keyed
        (value.headerLength + payload.length) =
      (value.lead (value.first keyed) ++
        payload).length := by
  rw [List.length_append,
    Place.length_lead (Place.tag_eq_ok.mp hTag).2.1]
  unfold roomFor Place.headerLength Place.first
  cases keyed
  · simp
  · simp

/-
  A valid element in a buffer is written with the size that
  validation answers as it is written without a size, where
  there is room for it: the same bytes, or nothing for the
  same reason.
-/
theorem write_eq_throughout
    {element : Element}
    {limits : Limits}
    {n start : Nat}
    {keyed : Bool}
    {dest : Bytes}
    (hRaw : element.value.payload = .raw)
    (hValid : element.validateWith limits = .ok n)
    (hAddress : dest.length < positionLimit)
    (hRoom :
      start + element.roomFor keyed n ≤ dest.length) :
    element.write keyed start n dest =
      (element.value.emit keyed none start).throughout
        dest := by
  rcases (Element.measure_eq_ok (Nat.zero_le _)).mp
      hValid with
    ⟨⟨key, tree⟩, ⟨hKey, hTree⟩, rfl, _⟩
  have hSized := emit_validated hValid keyed start
  rcases element with ⟨value⟩
  have hTag := Value.tag_of_encodes hTree
  have hLength := (lead_eq hKey hTree).2
  dsimp only at hTag hSized hRoom ⊢
  rw [hLength] at hSized hRoom ⊢
  rw [roomFor_eq hTag] at hRoom
  rw [write_eq hTree, hSized]
  by_cases hFits : tree.Fits
  · have hEmits := Value.emits_sized hTree keyed start
    rw [hSized] at hEmits
    exact hEmits.into_eq hFits hAddress hRoom
  · have hDeclines := Value.declines hTree hRaw hFits keyed
      (value.headerLength + tree.bytes.length) start
    rw [hSized] at hDeclines
    exact hDeclines.into_eq hAddress hRoom

/-
  Unless it is a code with scope that is too long, all of it
  is written then.
-/
theorem write_raw
    {element : Element}
    {limits : Limits}
    {n : Nat}
    (hRaw : element.value.payload = .raw)
    (hValid : element.validateWith limits = .ok n) :
    ∃ tree : ParseTree,
      element.value.Encodes tree ∧
        (element.value.tag ≠ .ok .codeWithScope ∨
            n ≤ Word.maxLength →
          ∀ (keyed : Bool) (start : Nat) (dest : Bytes),
            dest.length < positionLimit →
              start + element.roomFor keyed n ≤
                  dest.length →
                element.write keyed start n dest =
                  ⟨.ok (element.roomFor keyed n),
                    dest.overwrite start
                      (element.value.lead
                          (element.value.first keyed) ++
                        tree.bytes)⟩) := by
  rcases (Element.measure_eq_ok (Nat.zero_le _)).mp
      hValid with
    ⟨⟨key, tree⟩, ⟨hKey, hTree⟩, rfl, _⟩
  refine ⟨tree, hTree, ?_⟩
  intro hSmall keyed start dest hAddress hRoom
  have hLength := (lead_eq hKey hTree).2
  rcases element with ⟨value⟩
  dsimp only at hLength hSmall hRoom ⊢
  rw [hLength] at hSmall hRoom ⊢
  have hFits : tree.Fits := by
    rcases hSmall with hOther | hShort
    · exact Value.fits_of_raw hTree hRaw hOther
    · exact .inr (by omega)
  rw [roomFor_eq (Value.tag_of_encodes hTree)] at hRoom ⊢
  exact fills hTree hFits keyed start dest hAddress hRoom

end Element

end BsonView

------------------------------------------------------------
-- Agreement
------------------------------------------------------------

namespace BsonView

open Grammar

/-
  The length that framing tells is the one that validation
  answers, if it answers one; and what framing cannot
  measure is not valid. So an element in a buffer that is
  valid is written in the same way with the size that
  validation has answered and without one, with or without
  its key, in every destination that has room for it. The
  outcome is the same then, and so are all bytes of the
  destination: the header and the payload are there, unless
  the element is a code with scope that is too long for its
  length field.
-/
theorem cheap_lengths_agree_with_validation
    (limits : Limits) :
    (∀ (tag : Tag) (data : Bytes) (offset depth : Nat),
      (∀ n : Nat,
        Validation.payload limits tag data offset depth =
            .ok n →
          Framing.payloadLengthAt tag data offset =
            .ok n) ∧
        ∀ error : Error,
          Framing.payloadLengthAt tag data offset =
              .error error →
            ∃ failure,
              Validation.payload limits tag data offset
                  depth =
                .error failure) ∧
      ∀ (element : Element) (n : Nat),
        element.value.payload = .raw →
          element.validateWith limits = .ok n →
          ∃ tree : ParseTree,
            element.value.Encodes tree ∧
            ∀ (keyed : Bool) (start : Nat) (dest : Bytes),
              dest.length < positionLimit →
              start + element.roomFor keyed n ≤
                  dest.length →
                element.write keyed start n dest =
                    (element.value.emit keyed none
                      start).throughout dest ∧
                  (element.value.tag ≠ .ok .codeWithScope ∨
                      n ≤ Word.maxLength →
                    element.write keyed start n dest =
                      ⟨.ok (element.roomFor keyed n),
                        dest.overwrite start
                          (element.value.lead
                              (element.value.first keyed) ++
                            tree.bytes)⟩) := by
  refine ⟨?_, ?_⟩
  · intro tag data offset depth
    refine ⟨fun n => Framing.payloadLengthAt_of_valid, ?_⟩
    intro error hError
    cases hValid :
        Validation.payload limits tag data offset depth with
    | error failure => exact ⟨failure, rfl⟩
    | ok n =>
        have hLength := Framing.payloadLengthAt_of_valid hValid
        cases hError.symm.trans hLength
  · intro element n hRaw hValid
    rcases Element.write_raw hRaw hValid with
      ⟨tree, hTree, hWritten⟩
    refine ⟨tree, hTree, ?_⟩
    intro keyed start dest hAddress hRoom
    have hSame :=
      Element.write_eq_throughout hRaw hValid hAddress hRoom
    refine ⟨hSame, ?_⟩
    intro hSmall
    exact hWritten hSmall keyed start dest hAddress hRoom

/-
  A code with scope that declares no outer length is
  measured as it is validated, and written without a size as
  with the one that validation answers: with its own length.
-/
theorem undeclared_code_is_measured_and_written :
    let data : Bytes :=
      [15, 0, 0, 0, 0, 0, 2, 0, 0, 0, 99, 0, 5, 0, 0, 0, 0]
    let element := Element.ofPositions data 0 2
    let dest : Bytes := List.replicate 20 7
    let written : Written :=
      ⟨.ok 17,
        [7, 15, 0, 15, 0, 0, 0, 2, 0, 0, 0, 99, 0, 5, 0, 0,
          0, 0, 7, 7]⟩
    Validation.payload .standard .codeWithScope data 2 0 =
        .ok 15 ∧
      Framing.payloadLengthAt .codeWithScope data 2 =
        .ok 15 ∧
      element.validate = .ok 17 ∧
      element.write true 1 17 dest = written ∧
      (element.value.emit true none 1).throughout dest =
        written := by
  intro data element dest written
  rcases cheap_lengths_agree_with_validation .standard with
    ⟨hLengths, hWrites⟩
  have hPayload :
      Validation.payload .standard .codeWithScope data 2 0 =
        .ok 15 := by
    decide
  have hValid : element.validate = .ok 17 := by decide
  have hWritten :
      element.write true 1 17 dest = written := by
    simp only [element, data]
    rfl
  rcases hWrites element 17 rfl hValid with ⟨_, _, hBoth⟩
  have hSame := (hBoth true 1 dest (by decide) (by decide)).1
  exact
    ⟨hPayload, (hLengths _ _ _ _).1 _ hPayload, hValid,
      hWritten, hSame.symm.trans hWritten⟩

end BsonView
