import BsonView.Proofs.Reading.Containers
import BsonView.Proofs.Views.Measuring
import BsonView.Proofs.Writing.Actions

/-
  What views emit.

  A view is emitted as the tree it encodes, if the lengths
  in it fit their fields: a payload in a buffer with an
  outer length that agrees, an opened container after the
  bytes that precede it.

  Main declarations:
    * `Place.lead`
    * `Place.emits_copyRaw`
    * `Place.emits_copyRawCode`
    * `emits_container`
    * `emits_code`
    * `Value.emits`
    * `Document.emits`
    * `ArrayDoc.emits`
-/

------------------------------------------------------------
-- Payloads In Buffers
------------------------------------------------------------

namespace BsonView

namespace Place

open Grammar Write

variable {place : Place} {first start : Nat}

/- The bytes from `first` on that precede the payload. -/
def lead
    (place : Place)
    (first : Nat) : Bytes :=
  (place.buffer.take place.offset).drop first

theorem length_lead
    (hOffset : place.offset ≤ place.buffer.length) :
    (place.lead first).length = place.offset - first := by
  rw [lead, List.length_drop, List.length_take,
    Nat.min_eq_left hOffset]

/- What precedes the payload of a typed place is a header. -/
theorem length_header
    {tag : Tag}
    (hTag : place.tag = .ok tag) :
    (place.lead place.start).length = place.headerLength :=
  length_lead (tag_eq_ok.mp hTag).2.1

theorem lead_offset : place.lead place.offset = [] := by
  rw [lead]
  apply List.drop_of_length_le
  rw [List.length_take]
  exact Nat.min_le_left _ _

/- A slice that ends with a front of the payload. -/
theorem slice_eq
    {tail : Bytes}
    (hFirst : first ≤ place.offset)
    (hOffset : place.offset ≤ place.buffer.length)
    (hTail : tail <+: place.rest) :
    place.slice first (place.offset + tail.length) =
      .ok (place.lead first ++ tail) := by
  have hLength := hTail.length_le
  rw [rest, List.length_drop] at hLength
  have hFront :
      first ≤ (place.buffer.take place.offset).length := by
    rw [List.length_take]
    omega
  unfold slice
  rw [if_pos ⟨by omega, by omega⟩, List.take_add,
    List.drop_append_of_le_length hFront,
    List.prefix_iff_eq_take.mp hTail, List.length_take,
    Nat.min_eq_left (by rw [rest, List.length_drop]; omega)]
  rfl

/- The slice of what precedes the payload. -/
theorem slice_lead
    (hFirst : first ≤ place.offset)
    (hOffset : place.offset ≤ place.buffer.length) :
    place.slice first place.offset =
      .ok (place.lead first) := by
  have hNothing : [] <+: place.rest := List.nil_prefix
  have hSlice := slice_eq hFirst hOffset hNothing
  rw [List.append_nil] at hSlice
  exact hSlice

/- There is an outer length before a string. -/
theorem length_take_four
    {text : Bytes}
    (place : Place)
    (hString : stringForm text <+: place.rest.drop 4) :
    (place.rest.take 4).length = 4 := by
  have hLength := hString.length_le
  rw [length_stringForm, List.length_drop] at hLength
  rw [List.length_take]
  omega

/- The framing of a payload in a buffer tells its size. -/
theorem rawSize_eq
    {tree : ParseTree}
    (hTag : place.tag = .ok tree.tag)
    (hTree : tree.WellFormed)
    (hPrefix : tree.bytes <+: place.rest) :
    place.rawSize =
      .ok (place.headerLength + tree.bytes.length) := by
  rw [rawSize, hTag, ok_bind,
    ParseTree.payloadLength hTree hPrefix]
  rfl

/- Bytes in a buffer are emitted as they are. -/
theorem emits_copyRaw
    {tail : Bytes}
    {size : Nat}
    (hFirst : first ≤ place.offset)
    (hOffset : place.offset ≤ place.buffer.length)
    (hTail : tail <+: place.rest)
    (hSize :
      place.start + size = place.offset + tail.length) :
    (place.copyRaw first size start).Emits start
      (place.lead first ++ tail)
      (place.offset - first + tail.length) True := by
  unfold copyRaw
  rw [hSize, slice_eq hFirst hOffset hTail, lift_ok_bind]
  have hCopy :
      (copy start (place.lead first ++ tail)).Emits start
        (place.lead first ++ tail)
        (place.lead first ++ tail).length True :=
    emits_copy _
  rw [List.length_append, length_lead hOffset] at hCopy
  exact hCopy

/-
  The outer length that a code with scope declares, and the
  length it has, if that fits the field.
-/
theorem outerLengths_eq
    {outer text : Bytes}
    {scope : List ParseField}
    (hCode : (ParseTree.code outer text scope).WellFormed)
    (hPrefix :
      (ParseTree.code outer text scope).bytes <+: place.rest) :
    place.outerLengths =
      if (ParseTree.code outer text scope).bytes.length ≤
          Word.maxLength then
        .ok ((UInt32.ofNat (Word.value outer)).toInt32,
          Int32.ofNat
            (ParseTree.code outer text scope).bytes.length)
      else
        .error (.invalidLength Word.maxLength
          (ParseTree.code outer text scope).bytes.length) := by
  rcases hCode with ⟨hOuter, hText, _, hScope⟩
  rcases (code_bytes_iff hOuter).mp hPrefix with
    ⟨hFront, hString, hBody⟩
  have hRead :
      Word.readLength
          (place.rest.drop
            (4 + (stringForm text).length)) =
        .ok (documentBytes scope).length :=
    readLength_of_form hScope hBody
  have hDeclared :
      Word.readInt32 place.rest =
        .ok (UInt32.ofNat (Word.value outer)).toInt32 := by
    refine Word.readInt32_eq_ok.mpr
      ⟨hOuter ▸ hFront.length_le, ?_⟩
    rw [List.prefix_iff_eq_take.mp hFront, hOuter]
  unfold outerLengths
  rw [scopeOffset_eq hText hString, ok_bind, hRead, ok_bind,
    ← length_code_bytes hOuter, Word.lengthField]
  by_cases hSmall :
      (ParseTree.code outer text scope).bytes.length ≤
        Word.maxLength
  · rw [if_pos hSmall, if_pos hSmall, ok_bind, hDeclared]
    rfl
  · rw [if_neg hSmall, if_neg hSmall]
    rfl

/-
  A code with scope in a buffer is emitted with an outer
  length that agrees with the rest of it.
-/
theorem emits_copyRawCode
    {outer text : Bytes}
    {scope : List ParseField}
    {size : Nat}
    (hFirst : first ≤ place.offset)
    (hOffset : place.offset ≤ place.buffer.length)
    (hCode : (ParseTree.code outer text scope).WellFormed)
    (hPrefix :
      (ParseTree.code outer text scope).bytes <+: place.rest)
    (hSize :
      place.start + size =
        place.offset +
          (ParseTree.code outer text scope).bytes.length) :
    (place.copyRawCode first size start).Emits start
      (place.lead first ++
        (ParseTree.code outer text scope).agreeing.bytes)
      (place.offset - first +
        (ParseTree.code outer text scope).bytes.length)
      ((ParseTree.code outer text scope).bytes.length ≤
        Word.maxLength) := by
  have hCopy :
      (place.copyRaw first size start).Emits start
        (place.lead first ++ (outer ++
          (stringForm text ++
            documentForm (bodyBytes scope))))
        (place.offset - first +
          (ParseTree.code outer text scope).bytes.length)
        True :=
    emits_copyRaw hFirst hOffset hPrefix hSize
  have hOuter : outer.length = 4 := hCode.1
  have hBytes :
      (ParseTree.code outer text scope).agreeing.bytes =
        Word.ofLength
            (ParseTree.code outer text scope).bytes.length ++
          (stringForm text ++
            documentForm (bodyBytes scope)) := by
    rw [length_code_bytes hOuter]
    rfl
  unfold copyRawCode
  rw [outerLengths_eq hCode hPrefix]
  by_cases hSmall :
      (ParseTree.code outer text scope).bytes.length ≤
        Word.maxLength
  · have hCopy := hCopy.congr (iff_of_true trivial hSmall)
    have hField := Word.ofInt32_ofNat hSmall
    rw [if_pos hSmall, lift_ok_bind, hBytes, ← hField]
    dsimp only
    split
    next hDiffers =>
      have hPos :
          start + (place.offset - first) =
            start + (place.lead first).length := by
        rw [length_lead hOffset]
      apply hCopy.patch hOuter hPos
      intro dest left hPut
      rw [bind_of_ok (after_of_ok hPut), pure_apply]
    next hSame =>
      have hAgrees := Decidable.not_not.mp hSame
      rw [← hAgrees, Word.ofInt32_of_value hOuter]
      exact hCopy.answer
  · rw [if_neg hSmall]
    intro dest _
    exact .inr ⟨hSmall, _, dest, rfl⟩

end Place

end BsonView

------------------------------------------------------------
-- Payloads
------------------------------------------------------------

namespace BsonView

open Grammar Write

variable {place : Place} {first start : Nat}

/- A payload in a buffer is copied, by itself or as a code. -/
theorem Payload.emit_raw
    {tag : Tag}
    {size : Nat}
    {size? : Option Nat}
    (hSize :
      size? = none ∧ place.rawSize = .ok size ∨
        size? = some size) :
    Payload.raw.emit place tag first size? start =
      if tag = .codeWithScope then
        place.copyRawCode first size start
      else
        place.copyRaw first size start := by
  rcases hSize with ⟨rfl, hRaw⟩ | rfl
  · rw [Payload.emit, hRaw]
    cases tag <;> rfl
  · rw [Payload.emit]
    cases tag <;> rfl

/- The given size is for payloads in buffers only. -/
theorem Value.emit_opened
    {value : Value}
    (hOpened : value.payload ≠ .raw)
    (keyed : Bool)
    (size? : Option Nat)
    (start : Nat) :
    value.emit keyed size? start =
      value.emit keyed none start := by
  rcases value with ⟨place, payload⟩
  cases payload with
  | raw => exact absurd rfl hOpened
  | document doc =>
      rw [Value.emit, Value.emit]
      simp only [Payload.emit.eq_def]
  | array array =>
      rw [Value.emit, Value.emit]
      simp only [Payload.emit.eq_def]

/- A payload in a buffer is emitted as it agrees. -/
theorem Payload.emits_raw
    {found : ParseTree}
    {size? : Option Nat}
    (hFirst : first ≤ place.offset)
    (hTag : place.tag = .ok found.tag)
    (hFound : found.WellFormed)
    (hPrefix : found.bytes <+: place.rest)
    (hSize :
      size? = none ∨
        size? =
          some (place.headerLength + found.bytes.length)) :
    (Payload.raw.emit place found.tag first size?
      start).Emits start
      (place.lead first ++ found.agreeing.bytes)
      (place.offset - first + found.bytes.length)
      found.agreeing.Fits := by
  rcases Place.tag_eq_ok.mp hTag with
    ⟨hStart, hOffset, _⟩
  have hTotal :
      place.start +
          (place.headerLength + found.bytes.length) =
        place.offset + found.bytes.length := by
    unfold Place.headerLength
    omega
  have hRaw := Place.rawSize_eq hTag hFound hPrefix
  have hCopy :
      (place.copyRaw first
        (place.headerLength + found.bytes.length)
        start).Emits start
        (place.lead first ++ found.bytes)
        (place.offset - first + found.bytes.length) True :=
    Place.emits_copyRaw hFirst hOffset hPrefix hTotal
  rw [Payload.emit_raw
    (hSize.imp_left fun hNone => ⟨hNone, hRaw⟩)]
  cases found with
  | scalar tag form =>
      have hForm : ScalarForm tag form := hFound
      have hOther :=
        Tag.ne_codeWithScope_of_isScalar hForm.isScalar
      rw [ParseTree.tag, if_neg hOther]
      apply hCopy.congr
      exact iff_of_true trivial (.inl hForm.isScalar)
  | document fields =>
      apply hCopy.congr
      exact iff_of_true trivial (.inr hFound.2)
  | array fields =>
      apply hCopy.congr
      exact iff_of_true trivial (.inr hFound.2)
  | code outer text scope =>
      apply (Place.emits_copyRawCode hFirst hOffset hFound
        hPrefix hTotal).congr
      rw [← ParseTree.length_agreeing hFound]
      exact ParseTree.fits_iff rfl

/- An opened container is emitted after what precedes it. -/
theorem emits_container
    {body : Bytes}
    {write : Nat → Write Nat}
    (hFirst : first ≤ place.offset)
    (hOffset : place.offset ≤ place.buffer.length)
    (hWrite :
      ∀ start,
        (write start).Emits start body body.length
          (body.length ≤ Word.maxLength)) :
    Emits
      (do
        let header ← place.slice first place.offset
        let n ← Write.copy start header
        let body ← Write.after n (write (start + n))
        return n + body)
      start (place.lead first ++ body)
      (place.offset - first + body.length)
      (body.length ≤ Word.maxLength) := by
  rw [Place.slice_lead hFirst hOffset, lift_ok_bind,
    ← Place.length_lead hOffset]
  rw [← true_and (body.length ≤ Word.maxLength)]
  apply (emits_copy (place.lead first)).bind
  exact ((hWrite _).after _).answer

/-
  An opened code with scope is emitted after what precedes
  it, with an outer length that agrees.
-/
theorem emits_code
    {text : Bytes}
    {scope : List ParseField}
    {write : Nat → Write Nat}
    (hFirst : first ≤ place.offset)
    (hOffset : place.offset ≤ place.buffer.length)
    (hText : text.length + 1 ≤ Word.maxLength)
    (hString : stringForm text <+: place.rest.drop 4)
    (hWrite :
      ∀ start,
        (write start).Emits start (documentBytes scope)
          (documentBytes scope).length
          ((documentBytes scope).length ≤
            Word.maxLength)) :
    Emits
      (do
        let lead ← place.scopeOffset
        let framing ←
          place.slice first (place.offset + lead)
        let n ← Write.copy start framing
        let body ← Write.after n (write (start + n))
        Write.after (n + body)
          (Write.putLength
            (start + (place.offset - first))
            (lead + body))
        return n + body)
      start
      (place.lead first ++
        (ParseTree.code (outerField text scope) text
          scope).bytes)
      (place.offset - first +
        (ParseTree.code (outerField text scope) text
          scope).bytes.length)
      ((ParseTree.code (outerField text scope) text
        scope).bytes.length ≤ Word.maxLength) := by
  have hWidth := place.length_take_four hString
  have hFraming :
      place.rest.take 4 ++ stringForm text <+: place.rest :=
    Bytes.append_prefix_iff.mpr
      ⟨List.take_prefix 4 _, hWidth.symm ▸ hString⟩
  have hSize :
      (place.rest.take 4 ++ stringForm text).length =
        4 + (stringForm text).length := by
    rw [List.length_append, hWidth]
  have hTotal :=
    length_code_bytes (length_outerField text scope)
      text scope
  rw [Place.scopeOffset_eq hText hString, lift_ok_bind,
    ← hSize, Place.slice_eq hFirst hOffset hFraming,
    lift_ok_bind]
  -- The field is put when both parts before it are there.
  apply Emits.of_pair
  rw [hSize]
  have hPair :
      Emits
        (do
          let n ← copy start
            (place.lead first ++
              (place.rest.take 4 ++ stringForm text))
          let body ← Write.after n (write (start + n))
          return (n, body))
        start
        (place.lead first ++
            (place.rest.take 4 ++ stringForm text) ++
          documentBytes scope)
        ((place.lead first ++
            (place.rest.take 4 ++ stringForm text)).length,
          (documentBytes scope).length)
        (True ∧
          (documentBytes scope).length ≤
            Word.maxLength) := by
    apply (emits_copy _).bind
    exact ((hWrite _).after _).answer
  have hAnswer :
      (place.lead first ++
            (place.rest.take 4 ++ stringForm text)).length +
          (documentBytes scope).length =
        place.offset - first +
          (ParseTree.code (outerField text scope) text
            scope).bytes.length := by
    rw [List.length_append, hSize, hTotal,
      Place.length_lead hOffset, Nat.add_assoc]
  have hPos :
      start + (place.offset - first) =
        start + (place.lead first).length := by
    rw [Place.length_lead hOffset]
  have hScope
      (hSmall :
        4 + (stringForm text).length +
            (documentBytes scope).length ≤
          Word.maxLength) :
      True ∧
        (documentBytes scope).length ≤ Word.maxLength := by
    refine ⟨trivial, ?_⟩
    omega
  rw [← hAnswer, hTotal, ParseTree.bytes, outerField]
  simp only [List.append_assoc] at hPair ⊢
  exact hPair.patchLength hWidth hPos hScope rfl

end BsonView

------------------------------------------------------------
-- Views
------------------------------------------------------------

namespace BsonView

open Grammar Write

/- Where the bytes that are written of a place begin. -/
def Place.first
    (place : Place)
    (keyed : Bool) : Nat :=
  if keyed then place.start else place.offset

mutual

/- A value is emitted as what it encodes. -/
theorem Value.emits :
    ∀ {value : Value} {tree : ParseTree},
      value.Encodes tree →
      ∀ (keyed : Bool) (size? : Option Nat) (start : Nat),
        (size? = none ∨
          size? =
            some (value.headerLength + tree.bytes.length)) →
        (value.emit keyed size? start).Emits start
          (value.lead (value.first keyed) ++ tree.bytes)
          (value.offset - value.first keyed +
            tree.bytes.length)
          tree.Fits
| ⟨place, payload⟩, tree, hEncodes, keyed, size?, start,
    hSize => by
    rcases hEncodes with ⟨hTag, hPayload⟩
    have hFirst : place.first keyed ≤ place.offset := by
      have hStart := (Place.tag_eq_ok.mp hTag).1
      unfold Place.first
      split <;> omega
    rw [Value.emit, hTag, lift_ok_bind]
    exact Payload.emits hTag hPayload hFirst hSize

theorem Payload.emits
    {place : Place}
    {first start : Nat}
    {size? : Option Nat} :
    ∀ {payload : Payload} {tree : ParseTree},
      place.tag = .ok tree.tag →
      payload.Encodes place.rest tree →
      first ≤ place.offset →
      (size? = none ∨
        size? =
          some (place.headerLength + tree.bytes.length)) →
      (payload.emit place tree.tag first size? start).Emits
        start (place.lead first ++ tree.bytes)
        (place.offset - first + tree.bytes.length)
        tree.Fits
| .raw, tree, hTag, hEncodes, hFirst, hSize => by
    rcases hEncodes with ⟨found, hFound, hPrefix, rfl⟩
    rw [ParseTree.tag_agreeing] at hTag ⊢
    rw [ParseTree.length_agreeing hFound] at hSize ⊢
    exact Payload.emits_raw hFirst hTag hFound hPrefix hSize
| .document doc, .document fields, hTag, hEncodes, hFirst,
    _ => by
    rw [ParseTree.tag, Payload.emit]
    apply (emits_container hFirst
      (Place.tag_eq_ok.mp hTag).2.1
      (Document.emits hEncodes)).congr
    exact @ParseTree.fits_iff (.document fields) rfl
| .document doc, .code outer text scope, hTag, hEncodes,
    hFirst, _ => by
    rcases hEncodes with ⟨rfl, hText, hString, hDoc⟩
    rw [ParseTree.tag, Payload.emit]
    apply (emits_code hFirst (Place.tag_eq_ok.mp hTag).2.1
      hText hString (Document.emits hDoc)).congr
    exact ParseTree.fits_iff rfl
| .array array, .array fields, hTag, hEncodes, hFirst,
    _ => by
    rw [ParseTree.tag, Payload.emit]
    apply (emits_container hFirst
      (Place.tag_eq_ok.mp hTag).2.1
      (ArrayDoc.emits hEncodes)).congr
    exact @ParseTree.fits_iff (.array fields) rfl
| .document _, .scalar _ _, _, hEncodes, _, _ =>
    hEncodes.elim
| .document _, .array _, _, hEncodes, _, _ =>
    hEncodes.elim
| .array _, .scalar _ _, _, hEncodes, _, _ =>
    hEncodes.elim
| .array _, .document _, _, hEncodes, _, _ =>
    hEncodes.elim
| .array _, .code _ _ _, _, hEncodes, _, _ =>
    hEncodes.elim

/- A document is emitted as what it encodes. -/
theorem Document.emits :
    ∀ {doc : Document} {fields : List ParseField},
      doc.Encodes fields →
      ∀ start,
        (doc.emit start).Emits start (documentBytes fields)
          (documentBytes fields).length
          ((documentBytes fields).length ≤ Word.maxLength)
| ⟨elements⟩, fields, hEncodes, start => by
    rw [Document.emit]
    apply emits_document (emitElements_emits hEncodes _ _)
    exact bodyFits_of_document

/- An array is emitted as what it encodes. -/
theorem ArrayDoc.emits :
    ∀ {array : ArrayDoc} {fields : List ParseField},
      array.Encodes fields →
      ∀ start,
        (array.emit start).Emits start (documentBytes fields)
          (documentBytes fields).length
          ((documentBytes fields).length ≤ Word.maxLength)
| ⟨elements⟩, fields, hEncodes, start => by
    rw [ArrayDoc.emit]
    apply emits_document (emitValues_emits hEncodes _ _)
    exact bodyFits_of_document

theorem emitElements_emits :
    ∀ {elements : List Element} {fields : List ParseField},
      elementsEncode elements fields →
      ∀ start pos,
        (emitElements start pos elements).Emits pos
          (bodyBytes fields)
          (pos + (bodyBytes fields).length)
          (BodyFits fields)
| [], [], _, start, pos => by
    rw [emitElements]
    apply (emits_pure pos).congr
    exact iff_of_true trivial (List.forall_mem_nil _)
| ⟨value⟩ :: rest, ⟨key, tree⟩ :: fields,
    ⟨hKey, hTree, hFields⟩, start, pos => by
    have hTag := Value.tag_of_encodes hTree
    have hLead : value.lead (value.first true) =
        tree.tag.byte :: (key ++ [0]) :=
      Place.header_eq hTag hKey
    have hHeader :
        value.offset - value.first true = key.length + 2 :=
      Place.headerLength_eq hKey
    have hValue :=
      Value.emits hTree true none pos (.inl rfl)
    rw [hLead, hHeader] at hValue
    have hSize :
        (tree.tag.byte :: (key ++ [0]) ++
            tree.bytes).length =
          key.length + 2 + tree.bytes.length := by
      simp
      omega
    rw [emitElements, length_bodyBytes_cons, bodyBytes_cons,
      ← List.append_assoc, bodyFits_cons]
    apply (hValue.after (pos - start)).bind
    rw [hSize, ← Nat.add_assoc pos
      (key.length + 2 + tree.bytes.length)]
    exact emitElements_emits hFields start _
| [], ⟨_, _⟩ :: _, hEncode, _, _ => hEncode.elim
| ⟨_⟩ :: _, [], hEncode, _, _ => hEncode.elim

theorem emitValues_emits
    {index : Nat} :
    ∀ {elements : List Element} {fields : List ParseField},
      valuesEncode index elements fields →
      ∀ start pos,
        (emitValues start index pos elements).Emits pos
          (bodyBytes fields)
          (pos + (bodyBytes fields).length)
          (BodyFits fields)
| [], [], _, start, pos => by
    rw [emitValues]
    apply (emits_pure pos).congr
    exact iff_of_true trivial (List.forall_mem_nil _)
| ⟨value⟩ :: rest, ⟨key, tree⟩ :: fields,
    ⟨hKey, _, hTree, hFields⟩, start, pos => by
    have hTag := Value.tag_of_encodes hTree
    have hHeader :
        (tree.tag.byte :: key ++ [0]).length =
          key.length + 2 := by simp
    have hValue :=
      Value.emits hTree false none
        (pos + (key.length + 2)) (.inl rfl)
    have hLead : value.lead (value.first false) = [] :=
      Place.lead_offset
    have hNothing : value.offset - value.first false = 0 :=
      Nat.sub_self _
    rw [hLead, hNothing, List.nil_append, Nat.zero_add]
      at hValue
    rw [emitValues, hTag, after_lift_ok_bind, ← hKey,
      length_bodyBytes_cons, bodyBytes_cons, bodyFits_cons]
    rw [← true_and (tree.Fits ∧ BodyFits fields)]
    apply ((emits_copy _).after (pos - start)).bind
    dsimp only
    rw [hHeader]
    apply (hValue.after _).bind
    rw [← Nat.add_assoc pos
        (key.length + 2 + tree.bytes.length),
      ← Nat.add_assoc pos (key.length + 2)]
    exact emitValues_emits hFields start _
| [], ⟨_, _⟩ :: _, hEncode, _, _ => hEncode.elim
| ⟨_⟩ :: _, [], hEncode, _, _ => hEncode.elim

end

end BsonView
