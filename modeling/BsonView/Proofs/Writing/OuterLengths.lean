import BsonView.OuterLength
import BsonView.Proofs.Writing.Substitution
import BsonView.Proofs.Writing.Windows

/-
  Outer lengths make no difference.

  The outer length of a code with scope is written over by
  whatever writes the code, and nothing else reads it. So a
  code stands for itself with any four bytes in its place.

  Main declarations:
    * `Place.withOuter`
    * `Place.copyRawCode_eq`
    * `Write.Confined.on_overwritten`
    * `Write.framed_agrees`
    * `Value.withOuter`
    * `Value.measure_withOuter`
    * `Value.holds_withOuter`
    * `Value.withOuter_standsFor`
-/

------------------------------------------------------------
-- Codes With Other Outer Lengths
------------------------------------------------------------

namespace BsonView

namespace Place

/-
  The place with a field in place of the first four bytes of
  its payload.
-/
def withOuter (place : Place) (field : Bytes) : Place :=
  { place with
    buffer := place.buffer.overwrite place.offset field }

variable {place : Place} {field : Bytes}

theorem four_le_rest
    (hRoom : place.offset + 4 ≤ place.buffer.length) :
    4 ≤ place.rest.length := by
  unfold rest
  rw [List.length_drop]
  omega

theorem withOuter_buffer
    (hField : field.length = 4) :
    (place.withOuter field).buffer =
      place.buffer.take place.offset ++
        (field ++ place.rest.drop 4) := by
  unfold withOuter Bytes.overwrite rest
  rw [List.append_assoc, List.drop_drop, hField]

/- The bytes before the payload stay. -/
theorem withOuter_framed
    (hRoom : place.offset + 4 ≤ place.buffer.length)
    (hField : field.length = 4) :
    (place.withOuter field).FramedAs place := by
  rw [← hField] at hRoom
  refine ⟨rfl, rfl, Bytes.length_overwrite hRoom, ?_⟩
  apply Bytes.take_overwrite
  exact Nat.le_trans (Nat.le_add_right _ _) hRoom

/- The payload begins with the field and goes on as before. -/
theorem rest_withOuter
    (hRoom : place.offset + 4 ≤ place.buffer.length)
    (hField : field.length = 4) :
    (place.withOuter field).rest =
      field ++ place.rest.drop 4 := by
  have hFront :
      (place.buffer.take place.offset).length =
        place.offset := by
    rw [List.length_take]
    omega
  have hSame :
      (place.withOuter field).offset = place.offset := rfl
  rw [rest, withOuter_buffer hField, hSame,
    List.drop_left' hFront]

/- What is there is put there without any change. -/
theorem withOuter_self
    (hRoom : place.offset + 4 ≤ place.buffer.length) :
    place.withOuter (place.rest.take 4) = place := by
  have hField : (place.rest.take 4).length = 4 := by
    rw [List.length_take, Nat.min_eq_left (four_le_rest hRoom)]
  have hBuffer :
      place.buffer.overwrite place.offset
          (place.rest.take 4) =
        place.buffer := by
    have hPut :
        (place.withOuter (place.rest.take 4)).buffer =
          place.buffer.take place.offset ++ place.rest := by
      rw [withOuter_buffer hField, List.take_append_drop]
    exact hPut.trans (List.take_append_drop _ _)
  unfold withOuter
  rw [hBuffer]

/- A scope does not begin inside of the outer length. -/
theorem four_le_of_scopeOffset
    {lead : Nat}
    (hLead : place.scopeOffset = .ok lead) :
    4 ≤ lead := by
  rcases bind_eq_ok.mp hLead with ⟨length, _, hAdded⟩
  cases hAdded
  omega

section

variable
  (hRoom : place.offset + 4 ≤ place.buffer.length)
  (hField : field.length = 4)

include hRoom hField

/- Behind the field everything stays. -/
theorem drop_rest_withOuter
    {n : Nat}
    (hBehind : 4 ≤ n) :
    (place.withOuter field).rest.drop n =
      place.rest.drop n := by
  rw [rest_withOuter hRoom hField,
    ← Nat.add_sub_cancel' hBehind, ← List.drop_drop,
    List.drop_left' hField, List.drop_drop]

theorem length_rest_withOuter :
    (place.withOuter field).rest.length =
      place.rest.length := by
  rw [rest_withOuter hRoom hField, List.length_append,
    hField]
  unfold rest
  rw [List.length_drop, List.length_drop]
  omega

theorem scopeOffset_withOuter :
    (place.withOuter field).scopeOffset =
      place.scopeOffset := by
  unfold scopeOffset
  rw [drop_rest_withOuter hRoom hField (Nat.le_refl 4)]

/- The framing of a code does not tell its outer length. -/
theorem payloadLength_withOuter :
    Framing.payloadLength .codeWithScope
        (place.withOuter field).rest =
      Framing.payloadLength .codeWithScope place.rest := by
  have hClaim : Framing.claim 4 place.rest = .ok 4 :=
    Framing.claim_eq_ok.mpr ⟨rfl, four_le_rest hRoom⟩
  have hOther :
      Framing.claim 4 (place.withOuter field).rest =
        .ok 4 := by
    unfold Framing.claim at hClaim ⊢
    rw [length_rest_withOuter hRoom hField]
    exact hClaim
  unfold Framing.payloadLength
  rw [hClaim, hOther, ok_bind, ok_bind,
    drop_rest_withOuter hRoom hField (Nat.le_refl 4)]
  simp only [drop_rest_withOuter hRoom hField
    (Nat.le_add_right 4 _)]

end

end Place

end BsonView

------------------------------------------------------------
-- Codes In Buffers
------------------------------------------------------------

namespace BsonView

open Write

/- The field of the outer length that agrees. -/
def Value.agreeingField
    (value : Value) : Except Error Int32 := do
  Word.lengthField (← value.scopedLength)

namespace Place

variable {place : Place} {field : Bytes}

theorem outerLengths_of_front
    {outer : Bytes}
    (hOuter : outer.length = 4)
    (hFront : outer <+: place.rest) :
    place.outerLengths =
      (⟨place, .raw⟩ : Value).agreeingField.map fun total =>
        ((UInt32.ofNat (Word.value outer)).toInt32,
          total) := by
  have hDeclared :
      Word.readInt32 place.rest =
        .ok (UInt32.ofNat (Word.value outer)).toInt32 := by
    refine Word.readInt32_eq_ok.mpr
      ⟨hOuter ▸ hFront.length_le, ?_⟩
    rw [List.prefix_iff_eq_take.mp hFront, hOuter]
  unfold outerLengths Value.agreeingField Value.scopedLength
  rw [hDeclared]
  cases place.scopeOffset with
  | error error => rfl
  | ok lead =>
      simp only [ok_bind]
      cases Word.readLength (place.rest.drop lead) with
      | error error => rfl
      | ok scope =>
          simp only [ok_bind]
          cases hField : Word.lengthField (lead + scope) with
          | error error =>
              simp only [pure_bind, hField]
              rfl
          | ok total =>
              simp only [pure_bind, hField]
              rfl

/- A slice that goes on behind the outer length. -/
theorem slice_framing
    {first stop : Nat}
    (hFirst : first ≤ place.offset)
    (hRoom : place.offset + 4 ≤ place.buffer.length)
    (hStop : 4 ≤ stop) :
    place.slice first (place.offset + stop) =
      if place.offset + stop ≤ place.buffer.length then
        .ok (place.lead first ++
          (place.rest.take 4 ++
            (place.rest.drop 4).take (stop - 4)))
      else
        .error .endOfFile := by
  split
  next hInside =>
    have hFront := List.take_prefix stop place.rest
    have hLength : (place.rest.take stop).length = stop := by
      unfold rest
      rw [List.length_take, List.length_drop]
      omega
    have hSlice := slice_eq hFirst (by omega) hFront
    rw [hLength] at hSlice
    rw [hSlice, ← List.take_add, Nat.add_sub_cancel' hStop]
  next hBeyond =>
    unfold slice
    rw [if_neg (by omega)]

/-
  A code in a buffer is copied with the outer length that
  agrees in place of its own.
-/
theorem copyRawCode_eq
    {outer tail : Bytes}
    {first size : Nat}
    (hFirst : first ≤ place.offset)
    (hOffset : place.offset ≤ place.buffer.length)
    (hOuter : outer.length = 4)
    (hTail : outer ++ tail <+: place.rest)
    (hSize :
      place.start + size =
        place.offset + (outer ++ tail).length)
    (start : Nat) :
    place.copyRawCode first size start =
      (do
        let total ← (⟨place, .raw⟩ : Value).agreeingField
        copy start
          (place.lead first ++
            (Word.ofInt32 total ++ tail))) := by
  have hFront : outer <+: place.rest :=
    (List.prefix_append _ _).trans hTail
  have hLead :
      (place.lead first).length = place.offset - first :=
    Place.length_lead hOffset
  unfold copyRawCode
  rw [outerLengths_of_front hOuter hFront]
  cases (⟨place, .raw⟩ : Value).agreeingField with
  | error error => rfl
  | ok total =>
      have hWidth := Word.length_ofInt32 total
      have hSame :
          (place.lead first ++ (outer ++ tail)).length =
            (place.lead first ++
              (Word.ofInt32 total ++ tail)).length := by
        simp only [List.length_append, hOuter, hWidth]
      simp only [Except.map, lift_ok_bind]
      unfold copyRaw
      rw [hSize, slice_eq hFirst hOffset hTail,
        lift_ok_bind]
      funext dest
      by_cases hRoom :
          start +
              (place.lead first ++ (outer ++ tail)).length ≤
            dest.length
      · have hPut :
            start + (place.offset - first) + 4 ≤
              (dest.overwrite start
                (place.lead first ++
                  (outer ++ tail))).length := by
          rw [Bytes.length_overwrite hRoom]
          simp only [List.length_append] at hRoom
          omega
        rw [bind_of_ok (copy_of_room hRoom),
          copy_of_room (hSame ▸ hRoom), ← hSame]
        split
        · rw [bind_of_ok
              (after_of_ok (putInt32_of_room hPut)),
            ← hLead,
            Bytes.overwrite_inside hRoom
              (hOuter.trans hWidth.symm)]
          rfl
        next hAgrees =>
          rw [← Decidable.not_not.mp hAgrees,
            Word.ofInt32_of_value hOuter]
          rfl
      · have hShort := Nat.lt_of_not_le hRoom
        rw [bind_of_error (copy_of_short hShort),
          copy_of_short (hSame ▸ hShort), hSame]

end Place

end BsonView

------------------------------------------------------------
-- Framings With Other Outer Lengths
------------------------------------------------------------

namespace BsonView

namespace Write

/- What is written behind some bytes does not look at them. -/
theorem Confined.on_overwritten
    {α : Type}
    {action : Write α}
    {reach : α → Nat}
    {start size : Nat}
    {dest : Bytes}
    (hAction :
      action.Confined (start + size) (start + size) reach)
    (hRoom : start + size ≤ dest.length) :
    ∃ outcome left, ∀ source : Bytes,
      source.length = size →
        action (dest.overwrite start source) =
          (outcome, dest.take start ++ source ++ left) := by
  rcases hAction (dest.drop (start + size))
      (Nat.le_add_right _ _) with
    ⟨outcome, left, _, _, hRun⟩
  refine ⟨outcome, left, ?_⟩
  intro source hSource
  unfold Bytes.overwrite
  rw [hSource]
  apply hRun
  rw [List.length_append, List.length_take, hSource]
  omega

/- A word takes the place of four bytes in the middle. -/
theorem putInt32_middle
    {front old : Bytes}
    {start : Nat}
    (hFront : front.length = start)
    (hOld : old.length = 4)
    (n : Int32)
    (back : Bytes) :
    putInt32 start n (front ++ (old ++ back)) =
      (.ok (), front ++ (Word.ofInt32 n ++ back)) := by
  have hWidth := Word.length_ofInt32 n
  rw [← hFront, putInt32_of_room,
    Bytes.overwrite_middle _ (hOld.trans hWidth.symm)]
  simp only [List.length_append, hOld]
  omega

/-
  What is written behind a framing does not look at it, and
  a field in it that is put afterwards may be anything
  before.
-/
theorem framed_agrees
    {a old new c : Bytes}
    {start lead : Nat}
    {write : Nat → Write Nat}
    (hOld : old.length = 4)
    (hNew : new.length = 4)
    (hWrite :
      ∀ pos, (write pos).Confined pos pos (pos + ·)) :
    Agrees
      (do
        let n ← copy start (a ++ (new ++ c))
        let body ← Write.after n (write (start + n))
        Write.after (n + body)
          (putLength (start + a.length) (lead + body))
        return n + body)
      (do
        let n ← copy start (a ++ (old ++ c))
        let body ← Write.after n (write (start + n))
        Write.after (n + body)
          (putLength (start + a.length) (lead + body))
        return n + body) := by
  have hSame :
      (a ++ (new ++ c)).length = (a ++ (old ++ c)).length := by
    simp only [List.length_append, hOld, hNew]
  intro dest
  by_cases hRoom :
      start + (a ++ (old ++ c)).length ≤ dest.length
  · rcases (hWrite _).on_overwritten hRoom with
      ⟨outcome, left, hRun⟩
    rw [bind_of_ok (copy_of_room hRoom),
      bind_of_ok (copy_of_room (hSame ▸ hRoom)), hSame]
    cases outcome with
    | error failure =>
        rw [bind_of_error (after_of_error (hRun _ rfl)),
          bind_of_error (after_of_error (hRun _ hSame))]
        refine ⟨rfl, ?_⟩
        intro n hOk
        cases hOk
    | ok body =>
        rw [bind_of_ok (after_of_ok (hRun _ rfl)),
          bind_of_ok (after_of_ok (hRun _ hSame))]
        by_cases hSmall : lead + body ≤ Word.maxLength
        · have hFront :
              (dest.take start ++ a).length =
                start + a.length := by
            rw [List.length_append] at hRoom
            rw [List.length_append, List.length_take]
            omega
          have hPut
              {field : Bytes}
              (hField : field.length = 4) :=
            putInt32_middle hFront hField
              (Int32.ofNat (lead + body)) (c ++ left)
          simp only [List.append_assoc] at hPut ⊢
          rw [putLength_of_small hSmall,
            bind_of_ok (after_of_ok (hPut hOld)),
            bind_of_ok (after_of_ok (hPut hNew))]
          exact ⟨rfl, fun _ _ => rfl⟩
        · have hLong := Nat.lt_of_not_le hSmall
          rw [bind_of_error
              (after_of_error (putLength_of_long hLong _)),
            bind_of_error
              (after_of_error (putLength_of_long hLong _))]
          refine ⟨rfl, ?_⟩
          intro n hOk
          cases hOk
  · have hShort := Nat.lt_of_not_le hRoom
    rw [bind_of_error (copy_of_short hShort),
      bind_of_error (copy_of_short (hSame ▸ hShort)), hSame]
    exact ⟨rfl, fun _ _ => rfl⟩

end Write

end BsonView

------------------------------------------------------------
-- Codes That Stand For Codes
------------------------------------------------------------

namespace BsonView

open Grammar Write

/-
  A code in a buffer says what its string and its scope say,
  whatever is in front of the two.
-/
theorem Payload.raw_holds_code
    {rest : Bytes}
    {content : Content}
    (hThere : 4 ≤ rest.length)
    (hTag : content.tag = .codeWithScope) :
    Payload.raw.Holds rest content ↔
      ∃ text scope, content = .code text (members scope) ∧
        text.length + 1 ≤ Word.maxLength ∧
        IsDocument scope ∧
        stringForm text <+: rest.drop 4 ∧
        documentBytes scope <+:
          rest.drop (4 + (stringForm text).length) := by
  constructor
  · rintro ⟨tree, hTree, hFront, rfl⟩
    rw [ParseTree.tag_content] at hTag
    rcases hTree.code_of_tag hTag with
      ⟨outer, text, scope, rfl⟩
    rcases hTree with ⟨hOuter, hText, hScope⟩
    rcases (code_bytes_iff hOuter).mp hFront with
      ⟨_, hString, hBody⟩
    exact
      ⟨text, scope, rfl, hText, hScope, hString, hBody⟩
  · rintro
      ⟨text, scope, rfl, hText, hScope, hString, hBody⟩
    have hOuter : (rest.take 4).length = 4 := by
      rw [List.length_take]
      omega
    exact
      ⟨.code (rest.take 4) text scope,
        ⟨hOuter, hText, hScope⟩,
        (code_bytes_iff hOuter).mpr
          ⟨List.take_prefix 4 rest, hString, hBody⟩, rfl⟩

/-
  A code in a buffer is written with the field that agrees,
  as far as its framing says.
-/
theorem Payload.emit_raw_code
    {place : Place}
    {first n : Nat}
    (hFirst : first ≤ place.offset)
    (hTag : place.tag = .ok .codeWithScope)
    (hLength :
      Framing.payloadLength .codeWithScope place.rest =
        .ok n)
    (start : Nat) :
    Payload.raw.emit place .codeWithScope first none start =
      (do
        let total ← (⟨place, .raw⟩ : Value).agreeingField
        copy start
          (place.lead first ++
            (Word.ofInt32 total ++
              (place.rest.drop 4).take (n - 4)))) := by
  rcases Place.tag_eq_ok.mp hTag with
    ⟨hStart, hOffset, _⟩
  rcases Framing.payloadLength_codeWithScope_eq_ok.mp
      hLength with
    ⟨code, scope, hThere, _, _, hParts⟩
  have hInside := Framing.payloadLength_le hLength
  have hRaw :
      place.rawSize = .ok (place.headerLength + n) := by
    rw [Place.rawSize, hTag, ok_bind, hLength]
    rfl
  have hOuter : (place.rest.take 4).length = 4 := by
    rw [List.length_take]
    omega
  have hTail :
      place.rest.take 4 ++ (place.rest.drop 4).take (n - 4) =
        place.rest.take n := by
    rw [← List.take_add]
    congr
    omega
  have hFront :
      place.rest.take 4 ++
          (place.rest.drop 4).take (n - 4) <+:
        place.rest := by
    rw [hTail]
    exact List.take_prefix n place.rest
  rw [Payload.emit_raw (.inl ⟨rfl, hRaw⟩), if_pos rfl]
  apply Place.copyRawCode_eq hFirst hOffset hOuter hFront
  rw [hTail, List.length_take, Nat.min_eq_left hInside]
  unfold Place.headerLength
  omega

namespace Value

/- The value with a field in place of its outer length. -/
def withOuter (value : Value) (field : Bytes) : Value :=
  ⟨value.toPlace.withOuter field, value.payload⟩

section

variable
  {value : Value}
  {field : Bytes}
  (hRoom : value.offset + 4 ≤ value.buffer.length)
  (hField : field.length = 4)

include hRoom hField

theorem tag_withOuter :
    (value.withOuter field).tag = value.tag :=
  (Place.withOuter_framed hRoom hField).tag_eq

/- The parts of a code agree as they did. -/
theorem scopedLength_withOuter :
    (value.withOuter field).scopedLength =
      value.scopedLength := by
  have hSame :
      (value.withOuter field).scopeOffset =
        value.scopeOffset :=
    Place.scopeOffset_withOuter hRoom hField
  unfold scopedLength
  rw [hSame]
  cases hLead : value.scopeOffset with
  | error error => rfl
  | ok lead =>
      have hBehind :
          (value.withOuter field).rest.drop lead =
            value.rest.drop lead :=
        Place.drop_rest_withOuter hRoom hField
          (Place.four_le_of_scopeOffset hLead)
      have hPayload :
          (value.withOuter field).payload = value.payload :=
        rfl
      simp only [ok_bind, hBehind, hPayload]

theorem agreeingField_withOuter :
    (value.withOuter field).agreeingField =
      value.agreeingField := by
  unfold agreeingField
  rw [scopedLength_withOuter hRoom hField]

theorem measure_withOuter
    (hTag : value.tag = .ok .codeWithScope)
    (limits : Limits)
    (depth : Nat) :
    (value.withOuter field).measure limits depth =
      value.measure limits depth := by
  have hSame := tag_withOuter hRoom hField
  rw [hTag] at hSame
  rcases value with ⟨place, payload⟩
  have hDrop {n : Nat} (hBehind : 4 ≤ n) :
      (place.withOuter field).rest.drop n =
        place.rest.drop n :=
    Place.drop_rest_withOuter hRoom hField hBehind
  unfold withOuter at hSame ⊢
  cases payload with
  | raw =>
      have hThere : 4 ≤ place.rest.length :=
        Place.four_le_rest hRoom
      have hOther :
          4 ≤ (place.withOuter field).rest.length := by
        rw [Place.length_rest_withOuter hRoom hField]
        exact hThere
      rw [Value.measure_raw hTag, Value.measure_raw hSame,
        Validation.Plain.payload, Validation.Plain.payload,
        lift_eq_mapError, lift_eq_mapError,
        Word.readInt32_eq_ok.mpr ⟨hThere, rfl⟩,
        Word.readInt32_eq_ok.mpr ⟨hOther, rfl⟩,
        mapError_ok, mapError_ok, ok_bind, ok_bind,
        hDrop (Nat.le_refl 4)]
      simp only [hDrop (Nat.le_add_right 4 _)]
  | document doc =>
      rw [Value.measure_of_tag hTag,
        Value.measure_of_tag hSame, Payload.measure,
        Payload.measure, hDrop (Nat.le_refl 4)]
  | array array =>
      rw [Value.measure_of_tag hTag,
        Value.measure_of_tag hSame]
      rfl

theorem holds_withOuter
    (hTag : value.tag = .ok .codeWithScope)
    (content : Content) :
    (value.withOuter field).Holds content ↔
      value.Holds content := by
  have hSame := tag_withOuter hRoom hField
  rcases value with ⟨place, payload⟩
  have hDrop {n : Nat} (hBehind : 4 ≤ n) :
      (place.withOuter field).rest.drop n =
        place.rest.drop n :=
    Place.drop_rest_withOuter hRoom hField hBehind
  unfold withOuter at hSame ⊢
  rw [Value.Holds, Value.Holds, hSame]
  apply and_congr_right
  intro hType
  have hCode : content.tag = .codeWithScope :=
    (Except.ok.inj (hTag.symm.trans hType)).symm
  cases payload with
  | raw =>
      have hThere : 4 ≤ place.rest.length :=
        Place.four_le_rest hRoom
      have hOther :
          4 ≤ (place.withOuter field).rest.length := by
        rw [Place.length_rest_withOuter hRoom hField]
        exact hThere
      rw [Payload.raw_holds_code hThere hCode,
        Payload.raw_holds_code hOther hCode,
        hDrop (Nat.le_refl 4)]
      simp only [hDrop (Nat.le_add_right 4 _)]
  | document doc =>
      cases content with
      | code text scope =>
          rw [Payload.Holds, Payload.Holds,
            hDrop (Nat.le_refl 4)]
      | scalar tag bytes => exact .rfl
      | document members => cases hCode
      | array items => cases hCode
  | array array =>
      cases content with
      | code text scope => exact .rfl
      | scalar tag bytes => exact .rfl
      | document members => cases hCode
      | array items => cases hCode

end

end Value

section

variable
  {place : Place}
  {field : Bytes}
  {first : Nat}
  (hRoom : place.offset + 4 ≤ place.buffer.length)
  (hField : field.length = 4)
  (hFirst : first ≤ place.offset)

include hRoom hField hFirst

/- A code in a buffer is written the same. -/
theorem Payload.emit_raw_withOuter
    (hTag : place.tag = .ok .codeWithScope)
    (start : Nat) :
    Payload.raw.emit (place.withOuter field) .codeWithScope
        first none start =
      Payload.raw.emit place .codeWithScope first none
        start := by
  have hFramed := Place.withOuter_framed hRoom hField
  have hSame := hFramed.tag_eq.trans hTag
  have hLength :=
    Place.payloadLength_withOuter hRoom hField
  cases hSize :
      Framing.payloadLength .codeWithScope place.rest with
  | error error =>
      rw [hSize] at hLength
      have hRaw : place.rawSize = .error error := by
        rw [Place.rawSize, hTag, ok_bind, hSize]
        rfl
      have hOther :
          (place.withOuter field).rawSize = .error error := by
        rw [Place.rawSize, hSame, ok_bind, hLength]
        rfl
      rw [Payload.emit, Payload.emit, hRaw, hOther]
      rfl
  | ok n =>
      rw [hSize] at hLength
      have hTotal :=
        @Value.agreeingField_withOuter ⟨place, .raw⟩ field
          hRoom hField
      unfold Value.withOuter at hTotal
      have hBefore : first ≤ (place.withOuter field).offset :=
        hFirst
      rw [Payload.emit_raw_code hFirst hTag hSize,
        Payload.emit_raw_code hBefore hSame hLength, hTotal,
        hFramed.lead_of_framed,
        Place.drop_rest_withOuter hRoom hField
          (Nat.le_refl 4)]

/- An opened code has its outer length put afterwards. -/
theorem Payload.emit_document_withOuter
    (doc : Document)
    (start : Nat) :
    ((Payload.document doc).emit (place.withOuter field)
        .codeWithScope first none start).Agrees
      ((Payload.document doc).emit place .codeWithScope
        first none start) := by
  have hFramed := Place.withOuter_framed hRoom hField
  have hOuter : (place.rest.take 4).length = 4 := by
    rw [List.length_take,
      Nat.min_eq_left (Place.four_le_rest hRoom)]
  have hBefore : first ≤ (place.withOuter field).offset :=
    hFirst
  have hOther :
      (place.withOuter field).offset + 4 ≤
        (place.withOuter field).buffer.length := by
    rw [hFramed.offset_eq, hFramed.length_eq]
    exact hRoom
  have hLead :
      (place.lead first).length = place.offset - first :=
    Place.length_lead (by omega)
  rw [Payload.emit, Payload.emit,
    Place.scopeOffset_withOuter hRoom hField,
    hFramed.offset_eq]
  cases hScope : place.scopeOffset with
  | error error => exact .refl _
  | ok lead =>
      have hFar := Place.four_le_of_scopeOffset hScope
      have hSlice := Place.slice_framing hFirst hRoom hFar
      have hSame := Place.slice_framing hBefore hOther hFar
      rw [hFramed.lead_of_framed, hFramed.length_eq,
        hFramed.offset_eq,
        Place.rest_withOuter hRoom hField,
        List.take_left' hField, List.drop_left' hField]
        at hSame
      rw [lift_ok_bind, lift_ok_bind, hSlice, hSame]
      split
      · rw [lift_ok_bind, lift_ok_bind, ← hLead]
        exact framed_agrees hOuter hField
          fun pos => doc.emit_confined pos
      · exact .refl _

end

/- A code stands for itself with any other outer length. -/
theorem Value.withOuter_standsFor
    {value : Value}
    {field : Bytes}
    (hTag : value.tag = .ok .codeWithScope)
    (hRoom : value.offset + 4 ≤ value.buffer.length)
    (hField : field.length = 4) :
    (value.withOuter field).StandsFor value := by
  have hFramed := Place.withOuter_framed hRoom hField
  have hStart := (Place.tag_eq_ok.mp hTag).1
  refine
    ⟨hFramed, measure_withOuter hRoom hField hTag,
      holds_withOuter hRoom hField hTag, ?_⟩
  intro keyed start
  have hSame := (tag_withOuter hRoom hField).trans hTag
  rcases value with ⟨place, payload⟩
  have hFirst :
      (if keyed then place.start else place.offset) ≤
        place.offset := by
    split
    · exact Nat.le_of_lt hStart
    · exact Nat.le_refl _
  unfold withOuter at hSame ⊢
  rw [Value.emit, Value.emit, hTag, hSame, lift_ok_bind,
    lift_ok_bind, hFramed.start_eq, hFramed.offset_eq]
  cases payload with
  | raw =>
      dsimp only
      rw [Payload.emit_raw_withOuter hRoom hField hFirst hTag]
      exact .refl _
  | document doc =>
      exact Payload.emit_document_withOuter hRoom hField
        hFirst doc start
  | array array => exact .refl _

end BsonView
