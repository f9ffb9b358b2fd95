import BsonView.Allocation
import BsonView.Proofs.Validation.Sums
import BsonView.Proofs.Writing.Emission

/-
  Writing is exact.

  A view is written as many bytes long as it was measured,
  in whatever place and over whatever was there before, and
  the same bytes are its encoding.

  Main declarations:
    * `Written.Fills`
    * `Write.Emits.into`
    * `Write.Emits.fills`
    * `Element.fills`
    * `Document.encode_eq_ok`
    * `ArrayDoc.encode_eq_ok`
    * `Element.encode_eq_ok`
    * `sizing_is_exact`
-/

------------------------------------------------------------
-- Parts Of Destinations
------------------------------------------------------------

namespace BsonView

open Grammar

/-
  A write puts the bytes at any position of any destination
  that has room for them, answers how many they are and
  changes no other byte. What the destination held does not
  matter. No destination has more positions than there are.
-/
def Written.Fills
    (write : Nat → Bytes → Written)
    (bytes : Bytes) : Prop :=
  ∀ (start : Nat) (dest : Bytes),
    dest.length < positionLimit →
    start + bytes.length ≤ dest.length →
      write start dest =
        ⟨.ok bytes.length, dest.overwrite start bytes⟩

/-
  An action that asks for the room it needs emits there, if
  what it emits fits, and fails otherwise.
-/
theorem Write.Emits.into
    {action : Write Nat}
    {start : Nat}
    {bytes dest : Bytes}
    {p : Prop}
    (hEmits : action.Emits start bytes bytes.length p)
    (hAddress : dest.length < positionLimit)
    (hRoom : start + bytes.length ≤ dest.length) :
    (p ∧
        Write.into start bytes.length action dest =
          ⟨.ok bytes.length, dest.overwrite start bytes⟩) ∨
      (¬p ∧
        ∃ failure left,
          Write.into start bytes.length action dest =
            ⟨.error failure, left⟩) := by
  have hFront :
      start + bytes.length ≤
        (dest.take (start + bytes.length)).length := by
    rw [List.length_take]
    exact Nat.le_min.mpr ⟨Nat.le_refl _, hRoom⟩
  unfold Write.into Write.within
  rw [if_neg (by omega), if_neg (by omega)]
  rcases hEmits _ hFront with
    ⟨hFits, hOk⟩ | ⟨hFits, failure, left, hError⟩
  · left
    simp only [hOk]
    rw [Bytes.overwrite_take_append_drop
      (Nat.le_refl _) hRoom]
    exact ⟨hFits, rfl⟩
  · right
    simp only [hError]
    exact ⟨hFits, failure, _, rfl⟩

/- An action that emits what fits fills the room for it. -/
theorem Write.Emits.fills
    {action : Nat → Write Nat}
    {bytes : Bytes}
    {p : Prop}
    (hEmits :
      ∀ start,
        (action start).Emits start bytes bytes.length p)
    (hFits : p) :
    Written.Fills
      (fun start =>
        Write.into start bytes.length (action start))
      bytes := by
  intro start dest hAddress hRoom
  rcases (hEmits start).into hAddress hRoom with
    ⟨_, hFilled⟩ | ⟨hLong, _⟩
  · exact hFilled
  · exact absurd hFits hLong

/- An element is written as its header and its payload. -/
theorem Element.lead_eq
    {value : Value}
    {key : Bytes}
    {tree : ParseTree}
    (hKey : value.keyBytes? = some key)
    (hTree : value.Encodes tree) :
    value.lead (value.first true) ++ tree.bytes =
        bodyBytes [⟨key, tree⟩] ∧
      (bodyBytes [⟨key, tree⟩]).length =
        value.headerLength + tree.bytes.length := by
  have hLead :
      value.lead (value.first true) =
        tree.tag.byte :: (key ++ [0]) :=
    Place.header_eq (Value.tag_of_encodes hTree) hKey
  constructor
  · rw [hLead, bodyBytes_cons, bodyBytes, List.append_nil]
  · rw [length_bodyBytes_cons, Place.headerLength_eq hKey]
    rfl

/-
  An element asks for the room of its header and payload, or
  of its payload alone.
-/
theorem Element.write_eq
    {value : Value}
    {tree : ParseTree}
    (hTree : value.Encodes tree)
    (keyed : Bool)
    (start : Nat) :
    (⟨value⟩ : Element).write keyed start
        (value.headerLength + tree.bytes.length) =
      Write.into start
        (value.lead (value.first keyed) ++
          tree.bytes).length
        (value.emit keyed
          (some (value.headerLength + tree.bytes.length))
          start) := by
  rcases Place.tag_eq_ok.mp
      (Value.tag_of_encodes hTree) with
    ⟨hStart, hOffset, _⟩
  have hReady : value.isInitialized = true := by
    simp [Place.isInitialized, hStart, hOffset]
  have hAsked :
      (if keyed then
        value.headerLength + tree.bytes.length
      else
        value.headerLength + tree.bytes.length -
          value.headerLength) =
        (value.lead (value.first keyed) ++
          tree.bytes).length := by
    rw [List.length_append, Place.length_lead hOffset]
    unfold Place.headerLength Place.first
    cases keyed
    · simp
    · simp
  funext dest
  unfold Element.write
  simp only [hReady]
  rw [if_neg (by simp), if_neg (by omega), hAsked]

/- A value is emitted with the size that was measured. -/
theorem Value.emits_sized
    {value : Value}
    {tree : ParseTree}
    (hTree : value.Encodes tree)
    (keyed : Bool)
    (start : Nat) :
    (value.emit keyed
        (some (value.headerLength + tree.bytes.length))
        start).Emits start
      (value.lead (value.first keyed) ++ tree.bytes)
      (value.lead (value.first keyed) ++ tree.bytes).length
      tree.Fits := by
  have hOffset :=
    (Place.tag_eq_ok.mp (Value.tag_of_encodes hTree)).2.1
  rw [List.length_append, Place.length_lead hOffset]
  exact Value.emits hTree keyed _ start (.inr rfl)

/- An element fills the room for its header and payload. -/
theorem Element.fills
    {value : Value}
    {tree : ParseTree}
    (hTree : value.Encodes tree)
    (hFits : tree.Fits)
    (keyed : Bool) :
    Written.Fills
      (fun start =>
        (⟨value⟩ : Element).write keyed start
          (value.headerLength + tree.bytes.length))
      (value.lead (value.first keyed) ++ tree.bytes) := by
  simp only [Element.write_eq hTree]
  exact Write.Emits.fills (Value.emits_sized hTree keyed)
    hFits

/- Without its key it fills the room for its payload. -/
theorem Element.fills_keyless
    {value : Value}
    {tree : ParseTree}
    (hTree : value.Encodes tree)
    (hFits : tree.Fits) :
    Written.Fills
      (fun start =>
        (⟨value⟩ : Element).write false start
          (value.headerLength + tree.bytes.length))
      tree.bytes := by
  have hFills := Element.fills hTree hFits false
  have hNothing : value.lead (value.first false) = [] :=
    Place.lead_offset
  rw [hNothing, List.nil_append] at hFills
  exact hFills

end BsonView

------------------------------------------------------------
-- Whole Encodings
------------------------------------------------------------

namespace BsonView

open Grammar

/-
  What is emitted into as many bytes as were measured is the
  encoding, if it fits and there are so many positions.
-/
theorem encodeWith_eq_ok
    {action : Write Nat}
    {write : Nat → Bytes → Written}
    {source bytes : Bytes}
    {p : Prop}
    (hEmits : action.Emits 0 source source.length p)
    (hWrite :
      write source.length =
        Write.into 0 source.length action) :
    encodeWith (.ok source.length) write = .ok bytes ↔
      p ∧ source.length < positionLimit ∧
        bytes = source := by
  have hWhole :
      (List.replicate source.length (0 : UInt8)).length =
        source.length :=
    List.length_replicate
  have hBytes :
      Bytes.overwrite (List.replicate source.length 0) 0
        source = source := by
    simp [Bytes.overwrite]
  unfold encodeWith
  simp only [mapError_ok, ok_bind, hWrite]
  by_cases hAddress : positionLimit ≤ source.length
  · unfold Write.into
    rw [Nat.zero_add, if_pos hAddress]
    constructor
    · intro hEncode
      cases hEncode
    · intro hBoth
      rcases hBoth with ⟨_, hFew, _⟩
      omega
  have hFew := Nat.lt_of_not_le hAddress
  rcases hEmits.into (hWhole.symm ▸ hFew)
      (by rw [hWhole]; omega) with
    ⟨hFits, hFilled⟩ | ⟨hFits, failure, left, hFailed⟩
  · rw [hFilled, hBytes]
    constructor
    · intro hEncode
      cases hEncode
      exact ⟨hFits, hFew, rfl⟩
    · intro hBoth
      rcases hBoth with ⟨_, _, rfl⟩
      rfl
  · rw [hFailed]
    constructor
    · intro hEncode
      cases hEncode
    · intro hBoth
      rcases hBoth with ⟨hThey, _, _⟩
      exact absurd hThey hFits

/- Every length that fits its field is a position. -/
theorem lt_positionLimit
    {n : Nat}
    (hSmall : n ≤ Word.maxLength) :
    n < positionLimit := by
  unfold Word.maxLength at hSmall
  unfold positionLimit
  omega

section

variable
  {Encodes : List ParseField → Prop}
  {size : Except Failure Nat}
  (hSize :
    ∀ n,
      size = .ok n ↔
        ∃ fields, Encodes fields ∧
          n = (documentBytes fields).length ∧
          0 + bodyHeight fields ≤ Limits.standard.maxDepth)

include hSize

/-
  What is measured and emitted as the documents it encodes
  is encoded as them, if it is short enough.
-/
theorem encodeWith_documents
    {action : Write Nat}
    {write : Nat → Bytes → Written}
    {bytes : Bytes}
    (hWrite : ∀ n, write n = Write.into 0 n action)
    (hEmits :
      ∀ fields,
        Encodes fields →
          action.Emits 0 (documentBytes fields)
            (documentBytes fields).length
            ((documentBytes fields).length ≤
              Word.maxLength)) :
    encodeWith size write = .ok bytes ↔
      ∃ fields, Encodes fields ∧
        bodyHeight fields ≤ Limits.standard.maxDepth ∧
        (documentBytes fields).length ≤ Word.maxLength ∧
        bytes = documentBytes fields := by
  constructor
  · intro hEncode
    rcases bind_eq_ok.mp hEncode with ⟨n, hValid, _⟩
    have hValid := mapError_eq_ok.mp hValid
    rcases (hSize n).mp hValid with
      ⟨fields, hFields, rfl, hHeight⟩
    rw [hValid] at hEncode
    rcases (encodeWith_eq_ok (hEmits fields hFields)
        (hWrite _)).mp hEncode with
      ⟨hSmall, _, hBytes⟩
    rw [Nat.zero_add] at hHeight
    exact ⟨fields, hFields, hHeight, hSmall, hBytes⟩
  · intro hExists
    rcases hExists with
      ⟨fields, hFields, hHeight, hSmall, rfl⟩
    have hValid :
        size = .ok (documentBytes fields).length := by
      rw [← Nat.zero_add (bodyHeight fields)] at hHeight
      exact (hSize _).mpr ⟨fields, hFields, rfl, hHeight⟩
    rw [hValid]
    exact (encodeWith_eq_ok (hEmits fields hFields)
      (hWrite _)).mpr
        ⟨hSmall, lt_positionLimit hSmall, rfl⟩

/- Such an encoding is as long as was measured. -/
theorem length_encoding_iff
    {encoding : Except Error Bytes}
    {n : Nat}
    (hEncoding :
      ∀ bytes,
        encoding = .ok bytes ↔
          ∃ fields, Encodes fields ∧
            bodyHeight fields ≤ Limits.standard.maxDepth ∧
            (documentBytes fields).length ≤
              Word.maxLength ∧
            bytes = documentBytes fields) :
    (∃ bytes, encoding = .ok bytes ∧ bytes.length = n) ↔
      size = .ok n ∧ n ≤ Word.maxLength := by
  rw [hSize]
  constructor
  · intro hExists
    rcases hExists with ⟨bytes, hEncode, rfl⟩
    rcases (hEncoding bytes).mp hEncode with
      ⟨fields, hFields, hHeight, hSmall, rfl⟩
    rw [← Nat.zero_add (bodyHeight fields)] at hHeight
    exact ⟨⟨fields, hFields, rfl, hHeight⟩, hSmall⟩
  · intro hBoth
    rcases hBoth with
      ⟨⟨fields, hFields, rfl, hHeight⟩, hSmall⟩
    rw [Nat.zero_add] at hHeight
    refine ⟨documentBytes fields, ?_, rfl⟩
    exact (hEncoding _).mpr
      ⟨fields, hFields, hHeight, hSmall, rfl⟩

end

/-
  A document is encoded when it is valid and short enough,
  and as what it encodes.
-/
theorem Document.encode_eq_ok
    {doc : Document}
    {bytes : Bytes} :
    doc.encode = .ok bytes ↔
      ∃ fields, doc.Encodes fields ∧
        bodyHeight fields ≤ Limits.standard.maxDepth ∧
        (documentBytes fields).length ≤ Word.maxLength ∧
        bytes = documentBytes fields := by
  apply encodeWith_documents
  · intro n
    exact Document.measure_eq_ok
  · intro n
    rfl
  · intro fields hFields
    exact Document.emits hFields 0

/-
  An array is encoded when it is valid and short enough, and
  as what it encodes.
-/
theorem ArrayDoc.encode_eq_ok
    {array : ArrayDoc}
    {bytes : Bytes} :
    array.encode = .ok bytes ↔
      ∃ fields, array.Encodes fields ∧
        bodyHeight fields ≤ Limits.standard.maxDepth ∧
        (documentBytes fields).length ≤ Word.maxLength ∧
        bytes = documentBytes fields := by
  apply encodeWith_documents
  · intro n
    exact ArrayDoc.measure_eq_ok
  · intro n
    rfl
  · intro fields hFields
    exact ArrayDoc.emits hFields 0

/-
  An element is encoded when it is valid and its payload
  fits, and as what it encodes.
-/
theorem Element.encode_eq_ok
    {element : Element}
    {bytes : Bytes} :
    element.encode = .ok bytes ↔
      ∃ field, element.Encodes field ∧
        field.tree.height ≤ Limits.standard.maxDepth ∧
        field.tree.Fits ∧
        (bodyBytes [field]).length < positionLimit ∧
        bytes = bodyBytes [field] := by
  have hSized
      {field : ParseField}
      (hField : element.Encodes field) :
      encodeWith (.ok (bodyBytes [field]).length)
            (element.write true 0) =
          .ok bytes ↔
        field.tree.Fits ∧
          (bodyBytes [field]).length < positionLimit ∧
          bytes = bodyBytes [field] := by
    rcases element with ⟨value⟩
    rcases field with ⟨key, tree⟩
    rcases hField with ⟨hKey, hTree⟩
    rcases Element.lead_eq hKey hTree with ⟨hBody, hLength⟩
    have hWrite := Element.write_eq hTree true 0
    have hEmits := Value.emits_sized hTree true 0
    rw [hBody, ← hLength] at hWrite hEmits
    exact encodeWith_eq_ok hEmits hWrite
  constructor
  · intro hEncode
    rcases bind_eq_ok.mp hEncode with ⟨n, hSize, _⟩
    have hValid := mapError_eq_ok.mp hSize
    rcases (Element.measure_eq_ok (Nat.zero_le _)).mp
        hValid with
      ⟨field, hField, rfl, hHeight⟩
    rw [Nat.zero_add] at hHeight
    rw [encode, hValid] at hEncode
    exact
      ⟨field, hField, hHeight, (hSized hField).mp hEncode⟩
  · rintro ⟨field, hField, hHeight, hBytes⟩
    have hValid :
        element.validate = .ok (bodyBytes [field]).length := by
      rw [← Nat.zero_add field.tree.height] at hHeight
      exact
        (Element.measure_eq_ok (Nat.zero_le _)).mpr
          ⟨field, hField, rfl, hHeight⟩
    rw [encode, hValid]
    exact (hSized hField).mpr hBytes

end BsonView

------------------------------------------------------------
-- Exactness
------------------------------------------------------------

namespace BsonView

open Grammar

variable {limits : Limits} {n : Nat}

/-
  A valid element fills the room it was measured as with the
  bytes it is written as, and without its key the same room
  but for its header.
-/
theorem Element.write_exact
    {element : Element}
    (hValid : element.validateWith limits = .ok n)
    (hSmall : n ≤ Word.maxLength) :
    ∃ field, element.Encodes field ∧
      (bodyBytes [field]).length = n ∧
      element.value.headerLength ≤ n ∧
      Written.Fills
        (fun start => element.write true start n)
        (bodyBytes [field]) ∧
      Written.Fills
        (fun start => element.write false start n)
        ((bodyBytes [field]).drop
          element.value.headerLength) := by
  rcases (Element.measure_eq_ok (Nat.zero_le _)).mp
      hValid with
    ⟨⟨key, tree⟩, ⟨hKey, hTree⟩, rfl, _⟩
  rcases element with ⟨value⟩
  rcases Element.lead_eq hKey hTree with ⟨hBody, hLength⟩
  have hHeader :
      (value.lead (value.first true)).length =
        value.headerLength :=
    Place.length_header (Value.tag_of_encodes hTree)
  have hFits : tree.Fits :=
    (bodyFits_cons.mp (bodyFits_of_length hSmall)).1
  refine ⟨⟨key, tree⟩, ⟨hKey, hTree⟩, rfl, ?_, ?_, ?_⟩
  · rw [hLength]
    exact Nat.le_add_right _ _
  · rw [hLength, ← hBody]
    exact Element.fills hTree hFits true
  · rw [hLength, ← hBody, List.drop_left' hHeader]
    exact Element.fills_keyless hTree hFits

/- A valid document fills the room it was measured as. -/
theorem Document.write_exact
    {doc : Document}
    (hValid : doc.validateWith limits = .ok n)
    (hSmall : n ≤ Word.maxLength) :
    ∃ fields, doc.Encodes fields ∧
      (documentBytes fields).length = n ∧
      Written.Fills (fun start => doc.write start n)
        (documentBytes fields) := by
  rcases Document.measure_eq_ok.mp hValid with
    ⟨fields, hFields, rfl, _⟩
  have hEmits := Document.emits hFields
  exact
    ⟨fields, hFields, rfl, Write.Emits.fills hEmits hSmall⟩

/- A valid array fills the room it was measured as. -/
theorem ArrayDoc.write_exact
    {array : ArrayDoc}
    (hValid : array.validateWith limits = .ok n)
    (hSmall : n ≤ Word.maxLength) :
    ∃ fields, array.Encodes fields ∧
      (documentBytes fields).length = n ∧
      Written.Fills (fun start => array.write start n)
        (documentBytes fields) := by
  rcases ArrayDoc.measure_eq_ok.mp hValid with
    ⟨fields, hFields, rfl, _⟩
  have hEmits := ArrayDoc.emits hFields
  exact
    ⟨fields, hFields, rfl, Write.Emits.fills hEmits hSmall⟩

end BsonView

------------------------------------------------------------
-- Encodings In Buffers
------------------------------------------------------------

namespace BsonView

open Grammar

/- Every length that fits its field a buffer can have. -/
theorem half_lt_positionLimit
    {n : Nat}
    (hSmall : n ≤ Word.maxLength) :
    2 * n < positionLimit := by
  unfold Word.maxLength at hSmall
  unfold positionLimit
  omega

section

open Reaching

variable
  {size : Reaching Failure Nat}
  {length : Except Failure Nat}
  {write : Nat → Bytes → Written}

/- What is encoded in a buffer is what is encoded. -/
theorem encodeWith?_refines
    (hSize : size.Refines length) :
    (encodeWith? size write).Refines
      (encodeWith length write) := by
  apply (hSize.mapError Failure.error).bind
  intro n
  apply refines_access
  intro dest hZeros
  rw [Bytes.eq_of_zeros? hZeros]
  apply (keeps_lift _).refines.bind
  intro _
  exact (keeps_pure _).refines

/- A length that a buffer can have is room for the encoding. -/
theorem encodeWith?_keeps
    {n : Nat}
    (hSize : size.Keeps (.ok n))
    (hRoom : 2 * n < positionLimit) :
    (encodeWith? size write).Keeps
      (encodeWith (.ok n) write) := by
  apply (hSize.mapError Failure.error).bind
  intro length hLength
  cases hLength
  apply keeps_access (Bytes.zeros?_of_lt hRoom)
  apply (keeps_lift _).bind
  intro _ _
  exact keeps_pure _

/-
  Where a view has an encoding exactly if a length field can
  hold its length, it has one in a buffer exactly if also
  its length is counted.
-/
theorem length_encoding?_iff
    {n : Nat}
    (hSize : size.Refines length)
    (hLength :
      ∀ m,
        (∃ bytes, encodeWith length write = .ok bytes ∧
            bytes.length = m) ↔
          length = .ok m ∧ m ≤ Word.maxLength) :
    (∃ bytes,
        encodeWith? size write = some (.ok bytes) ∧
          bytes.length = n) ↔
      size = some (.ok n) ∧ n ≤ Word.maxLength := by
  constructor
  · rintro ⟨bytes, hEncode, rfl⟩
    have hSame := encodeWith?_refines hSize _ hEncode
    rcases (hLength _).mp ⟨bytes, hSame.symm, rfl⟩ with
      ⟨hValid, hSmall⟩
    refine ⟨?_, hSmall⟩
    rcases size with _ | failure | m
    · cases hEncode
    · cases hEncode
    · rw [hSize _ rfl, hValid]
  · rintro ⟨hCounted, hSmall⟩
    have hValid := (hSize _ hCounted).symm
    rcases (hLength n).mpr ⟨hValid, hSmall⟩ with
      ⟨bytes, hEncode, hBytes⟩
    rw [hValid] at hEncode
    have hKeeps :
        (encodeWith? size write).Keeps (.ok bytes) := by
      rw [← hEncode]
      exact
        encodeWith?_keeps hCounted
          (half_lt_positionLimit hSmall)
    exact ⟨bytes, hKeeps, hBytes⟩

end

end BsonView

------------------------------------------------------------
-- Exactness
------------------------------------------------------------

namespace BsonView

open Grammar

/- What is filled over zeros is what was filled. -/
theorem Written.Fills.dest_zeros
    {write : Nat → Bytes → Written}
    {bytes : Bytes}
    (hFills : Written.Fills write bytes)
    (hAddress : bytes.length < positionLimit) :
    (write 0 (List.replicate bytes.length 0)).dest =
      bytes := by
  have hLength :
      (List.replicate bytes.length (0 : UInt8)).length =
        bytes.length :=
    List.length_replicate
  rw [hFills 0 _ (hLength.symm ▸ hAddress) (by omega)]
  simp [Bytes.overwrite]

end BsonView
