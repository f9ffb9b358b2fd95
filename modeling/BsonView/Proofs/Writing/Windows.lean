import BsonView.Proofs.Writing.Actions

/-
  Writes stay in their windows.

  An action is confined when it leaves the bytes before a
  position as they are, whatever they are, and does not look
  at them: they have no part in how it ends or in what it
  does to the bytes after them. All of writing is confined
  to where it starts, also when it fails and whatever sizes
  it is given; where it ends is up to the window.

  Main declarations:
    * `Write.Confined`
    * `Write.Confined.bind`
    * `Write.Confined.weaken`
    * `Write.Confined.into`
    * `Value.emit_confined`
    * `Document.emit_confined`
    * `ArrayDoc.emit_confined`
    * `Written.StaysIn`
    * `writes_stay_in_windows`
-/

------------------------------------------------------------
-- Confined Actions
------------------------------------------------------------

namespace BsonView

namespace Write

/-
  The action works on the bytes from `low` on. Those before
  stay and have no part in it. It needs a destination that
  goes as far as `pos`; an answer tells a position, its
  `reach`, which is not before `pos` and not beyond the end.
-/
def Confined
    {α : Type}
    (low pos : Nat)
    (reach : α → Nat)
    (action : Write α) : Prop :=
  ∀ back : Bytes,
    pos ≤ low + back.length →
      ∃ outcome left,
        left.length = back.length ∧
          (∀ a, outcome = .ok a →
            pos ≤ reach a ∧
              reach a ≤ low + back.length) ∧
          ∀ front : Bytes,
            front.length = low →
              action (front ++ back) =
                (outcome, front ++ left)

section

variable
  {α β : Type}
  {low pos start : Nat}
  {reach : α → Nat}

theorem confined_pure
    {a : α}
    (hReach : reach a = pos) :
    (pure a : Write α).Confined low pos reach := by
  intro back hBack
  refine ⟨.ok a, back, rfl, ?_, fun _ _ => rfl⟩
  intro b hOk
  cases hOk
  omega

/- What fails without writing changes nothing. -/
theorem confined_fail
    (failure : Failure) :
    (fail failure : Write α).Confined low pos reach := by
  intro back _
  refine ⟨.error failure, back, rfl, ?_, fun _ _ => rfl⟩
  intro a hOk
  cases hOk

/- One action works on what the one before it left. -/
theorem Confined.bind
    {first : Write α}
    {next : α → Write β}
    {further : β → Nat}
    (hFirst : first.Confined low pos reach)
    (hNext :
      ∀ a, pos ≤ reach a →
        (next a).Confined low (reach a) further) :
    (first >>= next).Confined low pos further := by
  intro back hBack
  rcases hFirst back hBack with
    ⟨outcome, left, hLength, hReach, hRun⟩
  cases outcome with
  | error failure =>
      refine ⟨.error failure, left, hLength, ?_, ?_⟩
      · intro b hOk
        cases hOk
      · intro front hFront
        exact bind_of_error (hRun front hFront)
  | ok a =>
      rcases hReach a rfl with ⟨hPast, hInside⟩
      rw [← hLength] at hInside
      rcases hNext a hPast left hInside with
        ⟨outcome, last, hSame, hFurther, hMore⟩
      refine ⟨outcome, last, hSame.trans hLength, ?_, ?_⟩
      · intro b hOk
        rcases hFurther b hOk with ⟨hLater, hEnd⟩
        exact ⟨Nat.le_trans hPast hLater, hLength ▸ hEnd⟩
      · intro front hFront
        rw [bind_of_ok (hRun front hFront)]
        exact hMore front hFront

/- A found answer tells no position of its own. -/
theorem confined_lift
    (outcome : Except Error α) :
    (liftM outcome : Write α).Confined low pos
      fun _ => pos := by
  cases outcome with
  | error error => exact confined_fail (error.after 0)
  | ok a => exact confined_pure rfl

theorem confined_lift_bind
    {outcome : Except Error α}
    {next : α → Write β}
    {further : β → Nat}
    (hNext : ∀ a, (next a).Confined low pos further) :
    ((liftM outcome : Write α) >>= next).Confined low pos
      further :=
  (confined_lift outcome).bind fun a _ => hNext a

theorem Confined.after
    {action : Write α}
    (hAction : action.Confined low pos reach)
    (n : Nat) :
    (after n action).Confined low pos reach := by
  intro back hBack
  rcases hAction back hBack with
    ⟨outcome, left, hLength, hReach, hRun⟩
  cases outcome with
  | error failure =>
      refine ⟨.error (failure.after n), left, hLength, ?_, ?_⟩
      · intro a hOk
        cases hOk
      · intro front hFront
        exact after_of_error (hRun front hFront)
  | ok a =>
      refine ⟨.ok a, left, hLength, hReach, ?_⟩
      intro front hFront
      exact after_of_ok (hRun front hFront)

/-
  Actions confined to what comes later are confined to what
  comes earlier.
-/
theorem Confined.weaken
    {action : Write α}
    {early : Nat}
    (hAction : action.Confined low pos reach)
    (hEarly : early ≤ low)
    (hLow : low ≤ pos) :
    action.Confined early pos reach := by
  intro back hBack
  have hMiddle :
      (back.take (low - early)).length = low - early := by
    rw [List.length_take]
    omega
  have hRest :
      low + (back.drop (low - early)).length =
        early + back.length := by
    rw [List.length_drop]
    omega
  rcases hAction (back.drop (low - early)) (by omega) with
    ⟨outcome, left, hLength, hReach, hRun⟩
  refine
    ⟨outcome, back.take (low - early) ++ left, ?_, ?_, ?_⟩
  · rw [List.length_append, hLength,
      ← List.length_append, List.take_append_drop]
  · rw [← hRest]
    exact hReach
  · intro front hFront
    have hBefore :
        (front ++ back.take (low - early)).length = low := by
      rw [List.length_append]
      omega
    rw [← List.append_assoc, ← hRun _ hBefore,
      List.append_assoc, List.take_append_drop]

end

end Write

end BsonView

------------------------------------------------------------
-- Parts Of Writes
------------------------------------------------------------

namespace BsonView

namespace Write

variable {low pos start : Nat}

/- What is copied answers how far it goes. -/
theorem copy_confined
    (hLow : low ≤ start)
    (source : Bytes) :
    (copy start source).Confined low start (start + ·) := by
  intro back _
  by_cases hRoom :
      start + source.length ≤ low + back.length
  · refine
      ⟨.ok source.length,
        back.overwrite (start - low) source, ?_, ?_, ?_⟩
    · apply Bytes.length_overwrite
      omega
    · intro n hOk
      cases hOk
      exact ⟨Nat.le_add_right _ _, hRoom⟩
    · intro front hFront
      have hPlace : front.length + (start - low) = start := by
        omega
      rw [copy_of_room (by rw [List.length_append]; omega),
        ← Bytes.overwrite_append, hPlace]
  · refine
      ⟨.error ((Error.destinationTooSmall
          (start + source.length)
          (low + back.length)).after 0), back, rfl, ?_, ?_⟩
    · intro n hOk
      cases hOk
    · intro front hFront
      rw [copy_of_short (by rw [List.length_append]; omega),
        List.length_append, hFront]

/- What is put lies behind the position, not at its end. -/
theorem putInt32_confined
    (hLow : low ≤ start)
    (n : Int32) :
    (putInt32 start n).Confined low pos fun _ => pos := by
  have hWidth : (Word.ofInt32 n).length = 4 :=
    Word.length_bytes 4 _
  intro back hBack
  by_cases hRoom : start + 4 ≤ low + back.length
  · refine
      ⟨.ok (), back.overwrite (start - low)
        (Word.ofInt32 n), ?_, ?_, ?_⟩
    · apply Bytes.length_overwrite
      omega
    · intro _ _
      exact ⟨Nat.le_refl _, hBack⟩
    · intro front hFront
      have hPlace : front.length + (start - low) = start := by
        omega
      rw [putInt32_of_room
          (by rw [List.length_append]; omega),
        ← Bytes.overwrite_append, hPlace]
  · refine
      ⟨.error (Error.endOfFile.after 0), back, rfl, ?_, ?_⟩
    · intro _ hOk
      cases hOk
    · intro front hFront
      unfold putInt32 Word.putInt32
      rw [if_neg (by rw [List.length_append]; omega)]

theorem putLength_confined
    (hLow : low ≤ start)
    (length : Nat) :
    (putLength start length).Confined low pos fun _ =>
      pos :=
  confined_lift_bind fun field =>
    putInt32_confined hLow field

theorem reserve_confined :
    (reserve start).Confined start start id := by
  intro back _
  by_cases hRoom : start + 4 ≤ start + back.length
  · refine ⟨.ok (start + 4), back, rfl, ?_, ?_⟩
    · intro pos hOk
      cases hOk
      exact ⟨Nat.le_add_right _ _, hRoom⟩
    · intro front hFront
      unfold reserve
      dsimp only
      rw [if_pos (by rw [List.length_append]; omega)]
  · refine
      ⟨.error ((Error.destinationTooSmall (start + 4)
          (start + back.length)).after 0), back, rfl, ?_, ?_⟩
    · intro pos hOk
      cases hOk
    · intro front hFront
      unfold reserve
      dsimp only
      rw [if_neg (by rw [List.length_append]; omega),
        List.length_append, hFront]

/-
  Closing a document puts its last byte and goes back to its
  first ones.
-/
theorem close_confined
    (hStart : start ≤ pos) :
    (close start pos).Confined start pos (start + ·) := by
  unfold close
  apply ((copy_confined hStart [0]).after _).bind
  intro closing hClosing
  apply confined_lift_bind
  intro field
  apply ((putInt32_confined (Nat.le_refl start)
    field).after _).bind
  intro _ _
  apply confined_pure
  omega

/- What is written of a document is confined to it. -/
theorem document_confined
    {write : Nat → Write Nat}
    (hWrite :
      ∀ pos, start ≤ pos →
        (write pos).Confined start pos id) :
    Confined start start (start + ·)
      (do
        let pos ← reserve start
        let pos ← write pos
        close start pos) := by
  apply reserve_confined.bind
  intro pos hPos
  apply (hWrite pos hPos).bind
  intro last hLast
  exact close_confined (Nat.le_trans hPos hLast)

end Write

end BsonView

------------------------------------------------------------
-- Payloads In Buffers
------------------------------------------------------------

namespace BsonView

namespace Place

open Write

variable (place : Place) (first size start : Nat)

theorem copyRaw_confined :
    (place.copyRaw first size start).Confined start start
      (start + ·) :=
  confined_lift_bind fun source =>
    copy_confined (Nat.le_refl start) source

/- An outer length is corrected inside of what was copied. -/
theorem copyRawCode_confined :
    (place.copyRawCode first size start).Confined start
      start (start + ·) := by
  unfold copyRawCode
  apply confined_lift_bind
  rintro ⟨declared, total⟩
  apply (place.copyRaw_confined first size start).bind
  intro n _
  dsimp only
  split
  · apply ((putInt32_confined (Nat.le_add_right _ _)
      total).after n).bind
    intro _ _
    exact confined_pure rfl
  · exact confined_pure rfl

/- What is written behind some bytes is confined with them. -/
theorem behind_confined
    {source : Bytes}
    {write : Nat → Write Nat}
    (hWrite :
      ∀ pos, (write pos).Confined pos pos (pos + ·)) :
    Confined start start (start + ·)
      (do
        let n ← copy start source
        let body ← Write.after n (write (start + n))
        return n + body) := by
  apply (copy_confined (Nat.le_refl start) source).bind
  intro n hN
  apply (((hWrite (start + n)).weaken hN
    (Nat.le_refl _)).after n).bind
  intro body _
  apply confined_pure
  omega

end Place

end BsonView

------------------------------------------------------------
-- Views
------------------------------------------------------------

namespace BsonView

open Write

mutual

/- Whatever is written of a value is confined. -/
theorem Value.emit_confined
    (keyed : Bool)
    (size? : Option Nat)
    (start : Nat) :
    ∀ value : Value,
      (value.emit keyed size? start).Confined start start
        (start + ·)
| ⟨place, payload⟩ => by
    rw [Value.emit]
    apply confined_lift_bind
    intro tag
    exact Payload.emit_confined place tag _ size? start
      payload

theorem Payload.emit_confined
    (place : Place)
    (tag : Tag)
    (first : Nat)
    (size? : Option Nat)
    (start : Nat) :
    ∀ payload : Payload,
      (payload.emit place tag first size? start).Confined
        start start (start + ·)
| .raw => by
    have hCopy (size : Nat) :
        Confined start start (start + ·)
          (match tag with
          | .codeWithScope =>
              place.copyRawCode first size start
          | _ => place.copyRaw first size start) := by
      split
      · exact place.copyRawCode_confined first size start
      · exact place.copyRaw_confined first size start
    cases size? with
    | none =>
        exact confined_lift_bind hCopy
    | some size => exact hCopy size
| .document doc => by
    rw [Payload.emit.eq_def]
    dsimp only
    split
    · apply confined_lift_bind
      intro header
      exact Place.behind_confined start
        (Document.emit_confined doc)
    · apply confined_lift_bind
      intro lead
      apply confined_lift_bind
      intro framing
      apply (copy_confined (Nat.le_refl start) framing).bind
      intro n hN
      apply (((Document.emit_confined doc _).weaken hN
        (Nat.le_refl _)).after n).bind
      intro body _
      apply ((putLength_confined (Nat.le_add_right _ _)
        (lead + body)).after _).bind
      intro _ _
      apply confined_pure
      omega
    · exact confined_fail _
| .array array => by
    rw [Payload.emit.eq_def]
    dsimp only
    split
    · apply confined_lift_bind
      intro header
      exact Place.behind_confined start
        (ArrayDoc.emit_confined array)
    · exact confined_fail _

/- Whatever is written of a document is confined. -/
theorem Document.emit_confined :
    ∀ (doc : Document) (start : Nat),
      (doc.emit start).Confined start start (start + ·)
| ⟨elements⟩, start => by
    rw [Document.emit]
    apply document_confined
    intro pos hPos
    exact emitElements_confined start elements hPos

/- Whatever is written of an array is confined. -/
theorem ArrayDoc.emit_confined :
    ∀ (array : ArrayDoc) (start : Nat),
      (array.emit start).Confined start start (start + ·)
| ⟨elements⟩, start => by
    rw [ArrayDoc.emit]
    apply document_confined
    intro pos hPos
    exact emitValues_confined start elements 0 hPos

theorem emitElements_confined
    (start : Nat) :
    ∀ (elements : List Element) {pos : Nat},
      start ≤ pos →
      (emitElements start pos elements).Confined start pos
        id
| [], pos, _ => by
    rw [emitElements]
    exact confined_pure rfl
| ⟨value⟩ :: rest, pos, hPos => by
    rw [emitElements]
    apply (((Value.emit_confined true none pos value).weaken
      hPos (Nat.le_refl pos)).after _).bind
    intro n hN
    exact emitElements_confined start rest
      (Nat.le_trans hPos hN)

theorem emitValues_confined
    (start : Nat) :
    ∀ (elements : List Element) (index : Nat) {pos : Nat},
      start ≤ pos →
      (emitValues start index pos elements).Confined start
        pos id
| [], index, pos, _ => by
    rw [emitValues]
    exact confined_pure rfl
| ⟨value⟩ :: rest, index, pos, hPos => by
    have hValue (pos : Nat) (hPos : start ≤ pos) :=
      (Value.emit_confined false none pos value).weaken
        hPos (Nat.le_refl pos)
    rw [emitValues]
    apply ((confined_lift _).after _).bind
    intro tag _
    apply ((copy_confined hPos _).after _).bind
    intro n hN
    have hNext := Nat.le_trans hPos hN
    apply ((hValue (pos + n) hNext).after _).bind
    intro m hM
    exact emitValues_confined start rest (index + 1)
      (Nat.le_trans hNext hM)

end

end BsonView

------------------------------------------------------------
-- Windows
------------------------------------------------------------

namespace BsonView

/-
  A write of `length` bytes from `start` on touches no other
  byte of the destination, and does not answer more.
-/
structure Written.StaysIn
    (start length : Nat)
    (dest : Bytes)
    (written : Written) : Prop where
  length_eq : written.dest.length = dest.length
  outside_eq :
    ∀ i, i < start ∨ start + length ≤ i →
      written.dest[i]? = dest[i]?
  answer_le : ∀ n, written.outcome = .ok n → n ≤ length

/-
  A write fails before it begins: nothing is placed, and the
  destination is as it was.
-/
def Written.Refused
    (dest : Bytes)
    (written : Written) : Prop :=
  ∃ error : Error,
    written = ⟨.error (error.after 0), dest⟩

/- What is refused has not left its window. -/
theorem Written.Refused.staysIn
    {dest : Bytes}
    {written : Written}
    (hRefused : written.Refused dest)
    (start length : Nat) :
    written.StaysIn start length dest := by
  rcases hRefused with ⟨error, rfl⟩
  refine ⟨rfl, fun _ _ => rfl, ?_⟩
  intro n hOk
  cases hOk

/- What replaces the bytes of a window stays in it. -/
theorem Written.staysIn_of_window
    {outcome : Except Failure Nat}
    {start length : Nat}
    {left dest : Bytes}
    (hStop : start + length ≤ dest.length)
    (hLength : left.length = length)
    (hAnswer : ∀ n, outcome = .ok n → n ≤ length) :
    Written.StaysIn start length dest
      ⟨outcome, dest.take start ++ left ++
        dest.drop (start + length)⟩ := by
  have hFront : (dest.take start).length = start := by
    rw [List.length_take]
    omega
  have hWithin :
      (dest.take start ++ left).length = start + length := by
    rw [List.length_append, hFront, hLength]
  refine ⟨?_, ?_, hAnswer⟩
  · dsimp only
    rw [List.length_append, hWithin, List.length_drop]
    omega
  · rintro i (hBefore | hBehind)
    · rw [List.append_assoc,
        List.getElem?_append_left (by omega),
        List.getElem?_take_of_lt hBefore]
    · rw [List.getElem?_append_right (by omega),
        List.getElem?_drop, hWithin,
        Nat.add_sub_cancel' hBehind]

namespace Write

/-
  There is no window where its end has no position or is not
  in the destination.
-/
theorem into_refused
    {start length : Nat}
    {dest : Bytes}
    (hOutside :
      positionLimit ≤ start + length ∨
        dest.length < start + length)
    (action : Write Nat) :
    (into start length action dest).Refused dest := by
  unfold into
  dsimp only
  by_cases hLimit : positionLimit ≤ start + length
  · rw [if_pos hLimit]
    exact ⟨.endOfFile, rfl⟩
  · have hShort := hOutside.resolve_left hLimit
    rw [if_neg hLimit, if_pos hShort]
    exact ⟨_, rfl⟩

/- What is confined to its start stays in its window. -/
theorem Confined.into
    {action : Write Nat}
    {start : Nat}
    (hAction : action.Confined start start (start + ·))
    (length : Nat)
    (dest : Bytes) :
    (into start length action dest).StaysIn start length
      dest := by
  by_cases hLimit : positionLimit ≤ start + length
  · exact (into_refused (.inl hLimit) action).staysIn _ _
  by_cases hShort : dest.length < start + length
  · exact (into_refused (.inr hShort) action).staysIn _ _
  have hStop := Nat.le_of_not_lt hShort
  have hFront : (dest.take start).length = start := by
    rw [List.length_take]
    omega
  have hBack :
      ((dest.take (start + length)).drop start).length =
        length := by
    rw [List.length_drop, List.length_take]
    omega
  have hWindow :
      dest.take start ++
          (dest.take (start + length)).drop start =
        dest.take (start + length) := by
    have hTwice :
        (dest.take (start + length)).take start =
          dest.take start := by
      rw [List.take_take,
        Nat.min_eq_left (Nat.le_add_right _ _)]
    rw [← hTwice, List.take_append_drop]
  rcases hAction _ (Nat.le_add_right _ _) with
    ⟨outcome, left, hLength, hReach, hRun⟩
  have hAll :
      Write.into start length action dest =
        ⟨outcome, dest.take start ++ left ++
          dest.drop (start + length)⟩ := by
    unfold Write.into within
    dsimp only
    rw [if_neg hLimit, if_neg hShort, ← hWindow,
      hRun _ hFront]
  rw [hBack] at hLength hReach
  rw [hAll]
  apply Written.staysIn_of_window hStop hLength
  intro n hOk
  exact Nat.le_of_add_le_add_left (hReach n hOk).2

end Write

namespace Element

/-
  How many bytes a write of an element of a size asks for,
  with or without its key.
-/
def roomFor
    (element : Element)
    (keyed : Bool)
    (size : Nat) : Nat :=
  if keyed then size
  else size - element.value.headerLength

/- An element is refused a window that cannot be its own. -/
theorem write_refused
    {element : Element}
    {keyed : Bool}
    {start size : Nat}
    {dest : Bytes}
    (hWrong :
      size < element.value.headerLength ∨
        positionLimit ≤
          start + element.roomFor keyed size ∨
        dest.length <
          start + element.roomFor keyed size) :
    (element.write keyed start size dest).Refused dest := by
  unfold write
  dsimp only
  by_cases hReady : element.value.isInitialized = true
  · rw [if_neg (by simp [hReady])]
    by_cases hHeader : size < element.value.headerLength
    · rw [if_pos hHeader]
      exact ⟨_, rfl⟩
    · rw [if_neg hHeader]
      exact Write.into_refused
        (hWrong.resolve_left hHeader) _
  · rw [if_pos (by simp [hReady])]
    exact ⟨.uninitializedValue, rfl⟩

/- Whatever is written of an element is in its window. -/
theorem write_staysIn
    (element : Element)
    (keyed : Bool)
    (start size : Nat)
    (dest : Bytes) :
    (element.write keyed start size dest).StaysIn start
      (element.roomFor keyed size) dest := by
  by_cases hHeader : size < element.value.headerLength
  · exact (write_refused (.inl hHeader)).staysIn _ _
  unfold write
  dsimp only
  rw [if_neg hHeader]
  by_cases hReady : element.value.isInitialized = true
  · rw [if_neg (by simp [hReady])]
    exact (Value.emit_confined keyed (some size) start
      element.value).into _ dest
  · rw [if_pos (by simp [hReady])]
    have hRefused :
        Written.Refused dest
          ⟨throw (Error.uninitializedValue.after 0), dest⟩ :=
      ⟨.uninitializedValue, rfl⟩
    exact hRefused.staysIn _ _

end Element

/-
  A write touches nothing outside of the bytes it asks for,
  whether it succeeds or fails, whatever the view and
  whatever the size, which need not be what validation
  answers; and it does not answer more than it asks for. It
  is refused, with nothing placed and nothing changed, where
  an element is given less than its header, and where the
  end of what is asked for has no position or is beyond the
  destination.
-/
theorem writes_stay_in_windows :
    (∀ (element : Element) (keyed : Bool)
        (start size : Nat) (dest : Bytes),
      (element.write keyed start size dest).StaysIn start
          (element.roomFor keyed size) dest ∧
        (size < element.value.headerLength ∨
            positionLimit ≤
              start + element.roomFor keyed size ∨
            dest.length <
              start + element.roomFor keyed size →
          (element.write keyed start size dest).Refused
            dest)) ∧
      (∀ (doc : Document) (start size : Nat) (dest : Bytes),
        (doc.write start size dest).StaysIn start size
            dest ∧
          (positionLimit ≤ start + size ∨
              dest.length < start + size →
            (doc.write start size dest).Refused dest)) ∧
      ∀ (array : ArrayDoc) (start size : Nat)
          (dest : Bytes),
        (array.write start size dest).StaysIn start size
            dest ∧
          (positionLimit ≤ start + size ∨
              dest.length < start + size →
            (array.write start size dest).Refused dest) := by
  refine ⟨?_, ?_, ?_⟩
  · intro element keyed start size dest
    exact
      ⟨element.write_staysIn keyed start size dest,
        Element.write_refused⟩
  · intro doc start size dest
    refine ⟨(doc.emit_confined start).into size dest, ?_⟩
    intro hOutside
    exact Write.into_refused hOutside _
  · intro array start size dest
    refine ⟨(array.emit_confined start).into size dest, ?_⟩
    intro hOutside
    exact Write.into_refused hOutside _

/-
  A boolean of three bytes is refused a destination that
  ends one byte too early.
-/
theorem short_destination_is_refused :
    let boolean := Element.ofPositions [8, 0, 1] 0 2
    (boolean.write true 1 3 [7, 7, 7]).Refused
      [7, 7, 7] :=
  (writes_stay_in_windows.1
    (Element.ofPositions [8, 0, 1] 0 2) true 1 3
    [7, 7, 7]).2 (.inr (.inr (by decide)))

end BsonView
