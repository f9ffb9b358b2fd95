import BsonView.Error

/-
  Byte sequences: text in them, null terminators, and
  writing over a part of them.

  Main declarations:
    * `Bytes`
    * `Bytes.ofText`
    * `Bytes.text`
    * `Bytes.text?_eq_some`
    * `Bytes.text_eq_ok`
    * `Bytes.nullIndex?`
    * `Bytes.cstringLength`
    * `Bytes.overwrite`
    * `Bytes.overwrite_append`
    * `Bytes.overwrite_next`
    * `Bytes.overwrite_before`
    * `Bytes.overwrite_inside`
-/

------------------------------------------------------------
-- Byte Sequences
------------------------------------------------------------

namespace BsonView

/- A sequence of bytes. -/
abbrev Bytes := List UInt8

namespace Bytes

/- The UTF-8 encoding of a text. -/
def ofText (text : String) : Bytes :=
  text.toByteArray.data.toList

/- The text that the bytes encode in UTF-8, if any. -/
def text? (bytes : Bytes) : Option String :=
  String.fromUTF8? ⟨bytes.toArray⟩

/- The text that the bytes encode in UTF-8. -/
def text (bytes : Bytes) : Except Error String :=
  match bytes.text? with
  | some text => .ok text
  | none => .error .invalidUtf8

@[simp] theorem text?_ofText
    (text : String) :
    text? (ofText text) = some text := by
  have hValid :
      (⟨(ofText text).toArray⟩ : ByteArray) =
        text.toByteArray := by
    simp [ofText]
  unfold text? String.fromUTF8?
  rw [hValid, dif_pos text.isValidUTF8]
  rfl

/- Bytes are read as a text when they encode it. -/
theorem text?_eq_some
    {bytes : Bytes}
    {text : String} :
    bytes.text? = some text ↔ bytes = ofText text := by
  constructor
  · intro hText
    unfold text? String.fromUTF8? at hText
    split at hText
    · cases hText
      rfl
    · cases hText
  · rintro rfl
    exact text?_ofText text

theorem text_eq_ok
    {bytes : Bytes}
    {text : String} :
    bytes.text = .ok text ↔ bytes = ofText text := by
  rw [← text?_eq_some]
  unfold Bytes.text
  cases bytes.text? <;> simp

end Bytes

end BsonView

------------------------------------------------------------
-- Null Terminators
------------------------------------------------------------

namespace BsonView

namespace Bytes

/- Position of the first null byte. -/
def nullIndex? (bytes : Bytes) : Option Nat :=
  bytes.findIdx? (· == 0)

/-
  Length of the null-terminated string at the front,
  without its terminator.
-/
def cstringLength (bytes : Bytes) : Except Error Nat :=
  match bytes.nullIndex? with
  | some length => .ok length
  | none => .error .missingTerminator

/-
  Length of the null-terminated string at `offset` whose
  terminator must come before `limit`. A limit past the end
  of the bytes is the end of the bytes.
-/
def cstringLengthWithin
    (bytes : Bytes)
    (offset limit : Nat) : Except Error Nat :=
  if offset ≤ min limit bytes.length then
    cstringLength ((bytes.take limit).drop offset)
  else
    .error .endOfFile

/- The null byte after a text without one is the first. -/
theorem nullIndex?_append
    {text : Bytes}
    (hText : 0 ∉ text)
    (rest : Bytes) :
    nullIndex? (text ++ 0 :: rest) = some text.length := by
  unfold nullIndex?
  induction text with
  | nil => rfl
  | cons b text ih =>
      rw [List.mem_cons, not_or] at hText
      rw [List.cons_append, List.findIdx?_cons,
        ih hText.2]
      have hNonzero : (b == 0) = false :=
        beq_false_of_ne (Ne.symm hText.1)
      rw [hNonzero]
      rfl

/- Bytes with a null byte split at the first one. -/
theorem split_of_nullIndex?_eq_some
    {bytes : Bytes}
    {n : Nat}
    (hIndex : nullIndex? bytes = some n) :
    ∃ text rest, bytes = text ++ 0 :: rest ∧
      0 ∉ text ∧ text.length = n := by
  unfold nullIndex? at hIndex
  induction bytes generalizing n with
  | nil => cases hIndex
  | cons b bytes ih =>
      rw [List.findIdx?_cons] at hIndex
      by_cases hNull : b = 0
      · rw [hNull] at hIndex
        cases hIndex
        exact ⟨[], bytes, by rw [hNull]; rfl, by simp, rfl⟩
      · rw [beq_false_of_ne hNull] at hIndex
        rcases Option.map_eq_some_iff.mp hIndex with
          ⟨m, hLater, hSucc⟩
        rcases ih hLater with
          ⟨text, rest, hSplit, hText, hLength⟩
        refine ⟨b :: text, rest, ?_, ?_, ?_⟩
        · rw [hSplit, List.cons_append]
        · rw [List.mem_cons, not_or]
          exact ⟨Ne.symm hNull, hText⟩
        · rw [List.length_cons, hLength, hSucc]

/- A string ends at the first null byte. -/
theorem cstringLength_eq_ok
    {bytes : Bytes}
    {n : Nat} :
    cstringLength bytes = .ok n ↔
      ∃ text rest, bytes = text ++ 0 :: rest ∧
        0 ∉ text ∧ text.length = n := by
  unfold cstringLength
  constructor
  · intro hLength
    cases hIndex : nullIndex? bytes with
    | none =>
        rw [hIndex] at hLength
        cases hLength
    | some m =>
        rw [hIndex] at hLength
        cases hLength
        exact split_of_nullIndex?_eq_some hIndex
  · intro hExists
    rcases hExists with ⟨text, rest, rfl, hText, rfl⟩
    rw [nullIndex?_append hText]

/- A terminated text is a string. -/
theorem cstringLength_terminated
    {text : Bytes}
    (hText : 0 ∉ text)
    (rest : Bytes) :
    cstringLength (text ++ 0 :: rest) = .ok text.length :=
  cstringLength_eq_ok.mpr ⟨text, rest, rfl, hText, rfl⟩

/- The terminator of a string is there. -/
theorem lt_of_cstringLength_eq_ok
    {bytes : Bytes}
    {n : Nat}
    (hLength : cstringLength bytes = .ok n) :
    n < bytes.length := by
  rcases cstringLength_eq_ok.mp hLength with
    ⟨text, rest, rfl, _, rfl⟩
  rw [List.length_append, List.length_cons]
  omega

/- A prefix in two parts: the second follows the first. -/
theorem append_prefix_iff
    {a b bytes : Bytes} :
    a ++ b <+: bytes ↔
      a <+: bytes ∧ b <+: bytes.drop a.length := by
  constructor
  · intro hExists
    rcases hExists with ⟨rest, rfl⟩
    rw [List.append_assoc]
    refine ⟨List.prefix_append _ _, ?_⟩
    rw [List.drop_left]
    exact List.prefix_append _ _
  · intro hBoth
    rcases hBoth with ⟨⟨more, rfl⟩, hTail⟩
    rw [List.drop_left] at hTail
    exact (List.prefix_append_right_inj _).mpr hTail

/- What comes after a text and its terminator. -/
theorem drop_terminated
    (text rest : Bytes) :
    (text ++ 0 :: rest).drop (text.length + 1) = rest := by
  rw [List.drop_length_add_append, List.drop_succ_cons,
    List.drop_zero]

/- What comes after a type byte, a key and its terminator. -/
theorem drop_header
    (b : UInt8)
    (rest : Bytes)
    (key size : Nat) :
    (b :: rest).drop (1 + key + 1 + size) =
      rest.drop (key + 1 + size) := by
  have hShift :
      1 + key + 1 + size = key + 1 + size + 1 := by omega
  rw [hShift, List.drop_succ_cons]

end Bytes

end BsonView

------------------------------------------------------------
-- Writing Over A Part
------------------------------------------------------------

namespace BsonView

namespace Bytes

/- The bytes with `source` in place of those at `start`. -/
def overwrite
    (bytes : Bytes)
    (start : Nat)
    (source : Bytes) : Bytes :=
  bytes.take start ++ source ++
    bytes.drop (start + source.length)

/- Writing inside the bytes keeps their number. -/
theorem length_overwrite
    {bytes source : Bytes}
    {start : Nat}
    (hFits : start + source.length ≤ bytes.length) :
    (bytes.overwrite start source).length =
      bytes.length := by
  simp [overwrite]
  omega

/- What comes before stays. -/
theorem take_overwrite
    {bytes : Bytes}
    {start : Nat}
    (hStart : start ≤ bytes.length)
    (source : Bytes) :
    (bytes.overwrite start source).take start =
      bytes.take start := by
  rw [overwrite, List.append_assoc]
  apply List.take_left'
  rw [List.length_take]
  omega

/- What comes after stays. -/
theorem drop_overwrite
    {bytes : Bytes}
    {start : Nat}
    (hStart : start ≤ bytes.length)
    (source : Bytes) :
    (bytes.overwrite start source).drop
        (start + source.length) =
      bytes.drop (start + source.length) := by
  apply List.drop_left'
  rw [List.length_append, List.length_take]
  omega

/- A byte before stays. -/
theorem getElem?_overwrite_before
    {bytes source : Bytes}
    {start i : Nat}
    (hFits : start + source.length ≤ bytes.length)
    (hBefore : i < start) :
    (bytes.overwrite start source)[i]? = bytes[i]? := by
  have hStart : start ≤ bytes.length := by omega
  rw [← List.getElem?_take_of_lt hBefore,
    take_overwrite hStart, List.getElem?_take_of_lt hBefore]

/- A byte after stays. -/
theorem getElem?_overwrite_behind
    {bytes source : Bytes}
    {start i : Nat}
    (hFits : start + source.length ≤ bytes.length)
    (hBehind : start + source.length ≤ i) :
    (bytes.overwrite start source)[i]? = bytes[i]? := by
  have hStart : start ≤ bytes.length := by omega
  rw [← Nat.add_sub_cancel' hBehind, ← List.getElem?_drop,
    drop_overwrite hStart, List.getElem?_drop]

/- A byte that is written is there. -/
theorem getElem?_overwrite_inside
    {bytes source : Bytes}
    {start i : Nat}
    (hFits : start + source.length ≤ bytes.length)
    (hInside : i < source.length) :
    (bytes.overwrite start source)[start + i]? =
      source[i]? := by
  have hFront : (bytes.take start).length = start := by
    rw [List.length_take]
    omega
  rw [overwrite, List.append_assoc,
    List.getElem?_append_right (by omega), hFront,
    Nat.add_sub_cancel_left,
    List.getElem?_append_left hInside]

/- Nothing written changes nothing. -/
theorem overwrite_nil
    (bytes : Bytes)
    (start : Nat) :
    bytes.overwrite start [] = bytes := by
  simp [overwrite]

/- Writing behind a front leaves the front. -/
theorem overwrite_append
    (front back : Bytes)
    (start : Nat)
    (source : Bytes) :
    (front ++ back).overwrite (front.length + start)
        source =
      front ++ back.overwrite start source := by
  simp only [overwrite, List.append_assoc, Nat.add_assoc,
    List.take_length_add_append,
    List.drop_length_add_append]

/- Writing over a part in the middle puts it there. -/
theorem overwrite_middle
    (front : Bytes)
    {old new : Bytes}
    (hSame : old.length = new.length)
    (back : Bytes) :
    (front ++ (old ++ back)).overwrite front.length new =
      front ++ (new ++ back) := by
  rw [overwrite, List.take_left, ← hSame,
    List.drop_length_add_append, List.drop_left,
    List.append_assoc]

/- What is written right after a part goes on with it. -/
theorem overwrite_next
    {bytes a b : Bytes}
    {start : Nat}
    (hFits : start + (a ++ b).length ≤ bytes.length) :
    (bytes.overwrite start a).overwrite
        (start + a.length) b =
      bytes.overwrite start (a ++ b) := by
  rw [List.length_append] at hFits
  have hFront :
      (bytes.take start ++ a).length = start + a.length := by
    rw [List.length_append, List.length_take]
    omega
  simp only [overwrite]
  rw [List.take_left' hFront, ← hFront,
    List.drop_length_add_append, hFront, List.drop_drop,
    List.length_append, Nat.add_assoc]
  simp only [List.append_assoc]

/- What is written right before a part precedes it. -/
theorem overwrite_before
    {bytes a b : Bytes}
    {start : Nat}
    (hFits : start + (a ++ b).length ≤ bytes.length) :
    (bytes.overwrite (start + a.length) b).overwrite
        start a =
      bytes.overwrite start (a ++ b) := by
  rw [List.length_append] at hFits
  have hFront :
      (bytes.take (start + a.length)).length =
        start + a.length := by
    rw [List.length_take]
    omega
  simp only [overwrite, List.append_assoc]
  rw [List.take_append_of_le_length (by omega),
    List.take_take, Nat.min_eq_left (Nat.le_add_right _ _),
    List.drop_left' hFront, List.length_append,
    Nat.add_assoc]

/- Writing over a part of what was written changes that. -/
theorem overwrite_inside
    {bytes a old new c : Bytes}
    {start : Nat}
    (hFits : start + (a ++ (old ++ c)).length ≤ bytes.length)
    (hSame : old.length = new.length) :
    (bytes.overwrite start (a ++ (old ++ c))).overwrite
        (start + a.length) new =
      bytes.overwrite start (a ++ (new ++ c)) := by
  have hFront :
      (bytes.take start ++ a).length = start + a.length := by
    rw [List.length_append, List.length_append] at hFits
    rw [List.length_append, List.length_take]
    omega
  have hSplit :
      bytes.overwrite start (a ++ (old ++ c)) =
        (bytes.take start ++ a) ++ (old ++ (c ++
          bytes.drop
            (start + (a ++ (old ++ c)).length))) := by
    simp only [overwrite, List.append_assoc]
  have hLength :
      (a ++ (old ++ c)).length = (a ++ (new ++ c)).length := by
    simp only [List.length_append, hSame]
  rw [hSplit, overwrite, List.take_left' hFront, ← hFront,
    List.drop_length_add_append, List.drop_left' hSame,
    hLength]
  simp only [overwrite, List.append_assoc]

/- Writing into a front leaves what follows the front. -/
theorem overwrite_take_append_drop
    {bytes source : Bytes}
    {start stop : Nat}
    (hStop : start + source.length ≤ stop)
    (hFits : stop ≤ bytes.length) :
    overwrite (bytes.take stop) start source ++
        bytes.drop stop =
      bytes.overwrite start source := by
  have hTail :
      (bytes.take stop).drop (start + source.length) ++
          bytes.drop stop =
        bytes.drop (start + source.length) := by
    have hWhole := List.take_append_drop stop bytes
    have hInside :
        start + source.length ≤
          (bytes.take stop).length := by
      rw [List.length_take]
      omega
    rw [← List.drop_append_of_le_length hInside, hWhole]
  simp only [overwrite, List.append_assoc]
  rw [hTail, List.take_take, Nat.min_eq_left (by omega)]

end Bytes

end BsonView
