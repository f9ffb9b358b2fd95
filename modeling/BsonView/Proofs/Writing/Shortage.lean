import BsonView.Proofs.Writing.Exactness
import BsonView.Proofs.Writing.Windows

/-
  Writes that run out of room.

  A valid view that is given less room than it asks for is
  written as far as its parts fit. The failure counts the
  bytes that are placed: what comes after them is untouched,
  and they are those of the encoding. Only the lengths of
  containers that have been begun are still to be put, for
  a length is put when its container is complete.

  Main declarations:
    * `PlacedPartly`
    * `Write.RunsOut`
    * `Write.RunsOut.bind`
    * `Write.runsOut_document`
    * `Value.PutsLast`
    * `Value.runsOut`
    * `Document.runsOut`
    * `ArrayDoc.runsOut`
    * `Written.StopsShort`
    * `short_writes_tell_how_far_they_got`
-/

------------------------------------------------------------
-- Bytes Placed In Part
------------------------------------------------------------

namespace BsonView

/-
  Of some bytes that were to be written from `start` on, the
  first ones are placed, and no byte is changed but those.
  Some lengths are put last: one at `field` when everything
  before `stop` is there. Its four bytes may differ until
  then.
-/
structure PlacedPartly
    (start placed : Nat)
    (bytes : Bytes)
    (PutsLast : Nat → Nat → Prop)
    (dest left : Bytes) : Prop where
  length_eq : left.length = dest.length
  outside_eq :
    ∀ i, i < start ∨ start + placed ≤ i →
      left[i]? = dest[i]?
  inside_eq :
    ∀ i, i < placed →
      left[start + i]? = bytes[i]? ∨
        ∃ field stop, PutsLast field stop ∧
          start + placed < stop ∧
          field ≤ start + i ∧ start + i < field + 4

namespace PlacedPartly

variable
  {start placed : Nat}
  {bytes dest left : Bytes}
  {Lasts Others : Nat → Nat → Prop}

/- Where nothing is placed nothing is changed. -/
theorem nothing
    (start : Nat)
    (bytes dest : Bytes)
    (Lasts : Nat → Nat → Prop) :
    PlacedPartly start 0 bytes Lasts dest dest := by
  refine ⟨rfl, fun _ _ => rfl, ?_⟩
  intro i hInside
  omega

theorem weaken
    (hPlaced : PlacedPartly start placed bytes Lasts dest left)
    (hLasts :
      ∀ field stop, Lasts field stop → Others field stop) :
    PlacedPartly start placed bytes Others dest left := by
  refine ⟨hPlaced.length_eq, hPlaced.outside_eq, ?_⟩
  intro i hInside
  rcases hPlaced.inside_eq i hInside with
    hSame | ⟨field, stop, hLast, hPending⟩
  · exact .inl hSame
  · exact .inr ⟨field, stop, hLasts field stop hLast, hPending⟩

/- What was to be written may go on behind. -/
theorem append_right
    (hPlaced : PlacedPartly start placed bytes Lasts dest left)
    (hShort : placed ≤ bytes.length)
    (more : Bytes) :
    PlacedPartly start placed (bytes ++ more) Lasts dest
      left := by
  refine ⟨hPlaced.length_eq, hPlaced.outside_eq, ?_⟩
  intro i hInside
  rw [List.getElem?_append_left (by omega)]
  exact hPlaced.inside_eq i hInside

/- What is placed follows what was written before it. -/
theorem append_left
    {front : Bytes}
    (hFits : start + front.length ≤ dest.length)
    (hPlaced :
      PlacedPartly (start + front.length) placed bytes Lasts
        (dest.overwrite start front) left) :
    PlacedPartly start (front.length + placed)
      (front ++ bytes) Lasts dest left := by
  refine ⟨?_, ?_, ?_⟩
  · rw [hPlaced.length_eq, Bytes.length_overwrite hFits]
  · intro i hOutside
    rw [hPlaced.outside_eq i (by omega)]
    rcases hOutside with hBefore | hBehind
    · exact Bytes.getElem?_overwrite_before hFits hBefore
    · exact Bytes.getElem?_overwrite_behind hFits (by omega)
  · intro i hInside
    by_cases hFront : i < front.length
    · left
      rw [hPlaced.outside_eq _ (by omega),
        List.getElem?_append_left hFront]
      exact Bytes.getElem?_overwrite_inside hFits hFront
    · have hRest :
          start + front.length + (i - front.length) =
            start + i := by
        omega
      rcases hPlaced.inside_eq (i - front.length)
          (by omega) with
        hSame | ⟨field, stop, hLast, hPending⟩
      · left
        rw [← hRest, hSame,
          List.getElem?_append_right (by omega)]
      · right
        rw [hRest] at hPending
        refine ⟨field, stop, hLast, ?_⟩
        omega

/-
  In place of bytes that are put last there may be others,
  for as long as something is missing.
-/
theorem patch
    {a old new c : Bytes}
    (hPlaced :
      PlacedPartly start placed (a ++ (old ++ c)) Lasts dest
        left)
    (hOld : old.length = 4)
    (hNew : new.length = 4)
    (hShort : placed < (a ++ (new ++ c)).length)
    (hLast :
      Lasts (start + a.length)
        (start + (a ++ (new ++ c)).length)) :
    PlacedPartly start placed (a ++ (new ++ c)) Lasts dest
      left := by
  refine ⟨hPlaced.length_eq, hPlaced.outside_eq, ?_⟩
  intro i hInside
  by_cases hField : a.length ≤ i ∧ i < a.length + 4
  · right
    exact ⟨_, _, hLast, by omega, by omega, by omega⟩
  · have hSame :
        (a ++ (old ++ c))[i]? = (a ++ (new ++ c))[i]? := by
      by_cases hFront : i < a.length
      · rw [List.getElem?_append_left hFront,
          List.getElem?_append_left hFront]
      · rw [List.getElem?_append_right (by omega),
          List.getElem?_append_right (by omega),
          List.getElem?_append_right (by omega),
          List.getElem?_append_right (by omega), hOld, hNew]
    rw [← hSame]
    exact hPlaced.inside_eq i hInside

end PlacedPartly

end BsonView

------------------------------------------------------------
-- Actions That Run Out Of Room
------------------------------------------------------------

namespace BsonView

namespace Write

/-
  In every destination that goes as far as `start` but ends
  before all of the bytes are there, the action fails for
  want of room, having placed as many as it says beyond
  those that were placed before it.
-/
def RunsOut
    {α : Type}
    (action : Write α)
    (before start : Nat)
    (bytes : Bytes)
    (Lasts : Nat → Nat → Prop) : Prop :=
  ∀ dest : Bytes,
    start ≤ dest.length →
    dest.length < start + bytes.length →
      ∃ placed needed left,
        action dest =
            (.error ((Error.destinationTooSmall needed
              dest.length).after (before + placed)),
              left) ∧
          start + placed ≤ dest.length ∧
          PlacedPartly start placed bytes Lasts dest left

section

variable
  {α β : Type}
  {before start : Nat}
  {a b bytes : Bytes}
  {x : α}
  {p : Prop}
  {Lasts Others : Nat → Nat → Prop}

theorem RunsOut.weaken
    {action : Write α}
    (hAction : action.RunsOut before start bytes Lasts)
    (hLasts :
      ∀ field stop, Lasts field stop → Others field stop) :
    action.RunsOut before start bytes Others := by
  intro dest hStart hShort
  rcases hAction dest hStart hShort with
    ⟨placed, needed, left, hError, hRoom, hPlaced⟩
  exact
    ⟨placed, needed, left, hError, hRoom,
      hPlaced.weaken hLasts⟩

/- Nothing needs no room. -/
theorem runsOut_pure
    (x : α) :
    (pure x : Write α).RunsOut before start [] Lasts := by
  intro dest hStart hShort
  rw [List.length_nil] at hShort
  omega

/- What is copied is placed as a whole or not at all. -/
theorem runsOut_copy
    {source : Bytes}
    (hLength : source.length = bytes.length) :
    (copy start source).RunsOut 0 start bytes Lasts := by
  intro dest hStart hShort
  exact
    ⟨0, start + source.length, dest,
      copy_of_short (by omega), hStart,
      .nothing start bytes dest Lasts⟩

theorem RunsOut.after
    {action : Write α}
    (hAction : action.RunsOut before start bytes Lasts)
    (n : Nat) :
    (after n action).RunsOut (n + before) start bytes
      Lasts := by
  intro dest hStart hShort
  rcases hAction dest hStart hShort with
    ⟨placed, needed, left, hError, hPlaced⟩
  refine ⟨placed, needed, left, ?_, hPlaced⟩
  rw [after_of_error hError, Nat.add_assoc]
  rfl

/- Nothing follows what has run out of room. -/
theorem RunsOut.followed
    {first : Write α}
    (hFirst : first.RunsOut before start bytes Lasts)
    (next : α → Write β) :
    (first >>= next).RunsOut before start bytes Lasts := by
  intro dest hStart hShort
  rcases hFirst dest hStart hShort with
    ⟨placed, needed, left, hError, hPlaced⟩
  exact
    ⟨placed, needed, left, bind_of_error hError, hPlaced⟩

/-
  Of two actions one runs out of room: the first, or the
  second where the first has placed all of its bytes.
-/
theorem RunsOut.bind
    {first : Write α}
    {next : α → Write β}
    (hEmits : first.Emits start a x p)
    (hFits : p)
    (hFirst : first.RunsOut before start a Lasts)
    (hNext :
      (next x).RunsOut (before + a.length)
        (start + a.length) b Lasts) :
    (first >>= next).RunsOut before start (a ++ b)
      Lasts := by
  intro dest hStart hShort
  rw [List.length_append] at hShort
  by_cases hRoom : start + a.length ≤ dest.length
  · rcases hEmits dest hRoom with
      ⟨_, hOk⟩ | ⟨hNot, _⟩
    · have hLength := Bytes.length_overwrite hRoom
      rcases hNext (dest.overwrite start a) (by omega)
          (by omega) with
        ⟨placed, needed, left, hError, hEnd, hPlaced⟩
      rw [hLength] at hError hEnd
      refine
        ⟨a.length + placed, needed, left, ?_, by omega,
          hPlaced.append_left hRoom⟩
      rw [bind_of_ok hOk, hError, Nat.add_assoc]
    · exact absurd hFits hNot
  · rcases hFirst dest hStart (by omega) with
      ⟨placed, needed, left, hError, hEnd, hPlaced⟩
    exact
      ⟨placed, needed, left, bind_of_error hError, hEnd,
        hPlaced.append_right (by omega) b⟩

/- A length that is put last may be others until then. -/
theorem RunsOut.patch
    {action : Write α}
    {old new c : Bytes}
    (hAction :
      action.RunsOut before start (a ++ (old ++ c)) Lasts)
    (hOld : old.length = 4)
    (hNew : new.length = 4)
    (hLast :
      Lasts (start + a.length)
        (start + (a ++ (new ++ c)).length)) :
    action.RunsOut before start (a ++ (new ++ c)) Lasts := by
  have hSame :
      (a ++ (old ++ c)).length =
        (a ++ (new ++ c)).length := by
    simp only [List.length_append, hOld, hNew]
  intro dest hStart hShort
  rcases hAction dest hStart (by omega) with
    ⟨placed, needed, left, hError, hEnd, hPlaced⟩
  exact
    ⟨placed, needed, left, hError, hEnd,
      hPlaced.patch hOld hNew (by omega) hLast⟩

end

end Write

end BsonView

------------------------------------------------------------
-- Documents
------------------------------------------------------------

namespace BsonView

open Grammar

variable
  {start : Nat}
  {body : Bytes}
  {Lasts : Nat → Nat → Prop}

/-
  What is placed of a document stands behind its length,
  which is put last.
-/
theorem PlacedPartly.behind_length
    {placed : Nat}
    {dest left : Bytes}
    (hPlaced :
      PlacedPartly (start + 4) placed (body ++ [0]) Lasts
        dest left)
    (hShort : 4 + placed < (documentForm body).length)
    (hLast :
      Lasts start (start + (documentForm body).length)) :
    PlacedPartly start (4 + placed) (documentForm body)
      Lasts dest left := by
  refine ⟨hPlaced.length_eq, ?_, ?_⟩
  · intro i hOutside
    apply hPlaced.outside_eq
    omega
  · intro i hInside
    by_cases hField : i < 4
    · right
      exact ⟨_, _, hLast, by omega, by omega, by omega⟩
    · have hForm :
          (documentForm body)[i]? =
            (body ++ [0])[i - 4]? := by
        have hWidth := Word.length_ofLength (body.length + 5)
        rw [documentForm,
          List.getElem?_append_right (by omega), hWidth]
      have hRest : start + 4 + (i - 4) = start + i := by
        omega
      rw [hForm, ← hRest]
      rcases hPlaced.inside_eq (i - 4) (by omega) with
        hSame | ⟨field, stop, hOther, hPending⟩
      · exact .inl hSame
      · refine .inr ⟨field, stop, hOther, ?_⟩
        omega

namespace Write

/- A document that cannot be closed lacks its last byte. -/
theorem runsOut_close
    (start pos : Nat) :
    (close start pos).RunsOut (pos - start) pos [0]
      Lasts := by
  have hCopy :
      (copy pos [0]).RunsOut 0 pos [0] Lasts :=
    runsOut_copy rfl
  exact (hCopy.after (pos - start)).followed _

/-
  A document runs out of room at its length, in its body or
  at its last byte.
-/
theorem runsOut_document
    {write : Nat → Write Nat}
    {p : Prop}
    (hEmits :
      (write (start + 4)).Emits (start + 4) body
        (start + 4 + body.length) p)
    (hFits : p)
    (hBody :
      (write (start + 4)).RunsOut 4 (start + 4) body Lasts)
    (hLast :
      Lasts start (start + (documentForm body).length)) :
    RunsOut
      (do
        let pos ← reserve start
        let pos ← write pos
        close start pos)
      0 start (documentForm body) Lasts := by
  have hTotal := length_documentForm body
  have hClose :
      (close start (start + 4 + body.length)).RunsOut
        (4 + body.length) (start + 4 + body.length) [0]
        Lasts := by
    have hBefore :
        start + 4 + body.length - start =
          4 + body.length := by
      omega
    rw [← hBefore]
    exact runsOut_close start _
  have hRest := RunsOut.bind hEmits hFits hBody hClose
  intro dest hStart hShort
  by_cases hField : start + 4 ≤ dest.length
  · have hReserve :
        reserve start dest = (.ok (start + 4), dest) := by
      unfold reserve
      dsimp only
      rw [if_pos hField]
    have hLength : (body ++ [0]).length = body.length + 1 :=
      List.length_append
    rcases hRest dest hField (by omega) with
      ⟨placed, needed, left, hError, hEnd, hPlaced⟩
    refine
      ⟨4 + placed, needed, left, ?_, by omega,
        hPlaced.behind_length (by omega) hLast⟩
    rw [bind_of_ok hReserve, hError, Nat.zero_add]
  · have hReserve :
        reserve start dest =
          (.error ((Error.destinationTooSmall (start + 4)
            dest.length).after 0), dest) := by
      unfold reserve
      dsimp only
      rw [if_neg hField]
    exact
      ⟨0, start + 4, dest, bind_of_error hReserve, hStart,
        .nothing start _ dest Lasts⟩

end Write

end BsonView

------------------------------------------------------------
-- Lengths That Are Put Last
------------------------------------------------------------

namespace BsonView

open Grammar

mutual

/-
  A value that is written from `pos` on as a tree puts a
  length last: at `field` when everything before `stop` is
  there. It does so for containers that are opened; what is
  in a buffer is copied with its lengths.
-/
def Value.PutsLast
    (pos : Nat) :
    Value → ParseTree → Nat → Nat → Prop
| ⟨_, payload⟩, tree, field, stop =>
    payload.PutsLast pos tree field stop

/-
  An opened code with scope puts its outer length last and
  the length of its scope before.
-/
def Payload.PutsLast
    (pos : Nat) :
    Payload → ParseTree → Nat → Nat → Prop
| .document doc, .document fields, field, stop =>
    doc.PutsLast pos fields field stop
| .document doc, .code outer text scope, field, stop =>
    field = pos ∧
        stop =
          pos + (ParseTree.code outer text
            scope).bytes.length ∨
      doc.PutsLast (pos + (4 + (stringForm text).length))
        scope field stop
| .array array, .array fields, field, stop =>
    array.PutsLast pos fields field stop
| _, _, _, _ => False

/- A document puts its length when it is closed. -/
def Document.PutsLast
    (pos : Nat) :
    Document → List ParseField → Nat → Nat → Prop
| ⟨elements⟩, fields, field, stop =>
    field = pos ∧
        stop = pos + (documentBytes fields).length ∨
      elementsPutLast (pos + 4) elements fields field stop

/- So does an array. -/
def ArrayDoc.PutsLast
    (pos : Nat) :
    ArrayDoc → List ParseField → Nat → Nat → Prop
| ⟨elements⟩, fields, field, stop =>
    field = pos ∧
        stop = pos + (documentBytes fields).length ∨
      elementsPutLast (pos + 4) elements fields field stop

/- Elements put lengths last as their values do. -/
def elementsPutLast
    (pos : Nat) :
    List Element → List ParseField → Nat → Nat → Prop
| ⟨value⟩ :: rest, ⟨key, tree⟩ :: fields, field, stop =>
    value.PutsLast (pos + (key.length + 2)) tree field
        stop ∨
      elementsPutLast
        (pos + (key.length + 2 + tree.bytes.length)) rest
        fields field stop
| _, _, _, _ => False

end

end BsonView

------------------------------------------------------------
-- Payloads
------------------------------------------------------------

namespace BsonView

open Grammar Write

section

variable
  {place : Place}
  {first start : Nat}
  {Lasts : Nat → Nat → Prop}

/- Bytes in a buffer are copied as a whole or not at all. -/
theorem Place.runsOut_copyRaw
    {tail bytes : Bytes}
    {size : Nat}
    (hFirst : first ≤ place.offset)
    (hOffset : place.offset ≤ place.buffer.length)
    (hTail : tail <+: place.rest)
    (hSize :
      place.start + size = place.offset + tail.length)
    (hLength :
      (place.lead first ++ tail).length = bytes.length) :
    (place.copyRaw first size start).RunsOut 0 start bytes
      Lasts := by
  unfold Place.copyRaw
  rw [hSize, Place.slice_eq hFirst hOffset hTail,
    lift_ok_bind]
  exact runsOut_copy hLength

/- So is a payload in a buffer, whatever its type. -/
theorem Payload.runsOut_raw
    {found : ParseTree}
    {size? : Option Nat}
    (hFirst : first ≤ place.offset)
    (hTag : place.tag = .ok found.tag)
    (hFound : found.WellFormed)
    (hPrefix : found.bytes <+: place.rest)
    (hFits : found.agreeing.Fits)
    (hSize :
      size? = none ∨
        size? =
          some (place.headerLength + found.bytes.length)) :
    (Payload.raw.emit place found.tag first size?
      start).RunsOut 0 start
      (place.lead first ++ found.agreeing.bytes) Lasts := by
  rcases Place.tag_eq_ok.mp hTag with
    ⟨hStart, hOffset, _⟩
  have hTotal :
      place.start +
          (place.headerLength + found.bytes.length) =
        place.offset + found.bytes.length := by
    unfold Place.headerLength
    omega
  have hLength :
      (place.lead first ++ found.bytes).length =
        (place.lead first ++
          found.agreeing.bytes).length := by
    rw [List.length_append, List.length_append,
      ParseTree.length_agreeing hFound]
  have hRaw := Place.rawSize_eq hTag hFound hPrefix
  have hCopy :
      (place.copyRaw first
        (place.headerLength + found.bytes.length)
        start).RunsOut 0 start
        (place.lead first ++ found.agreeing.bytes) Lasts :=
    Place.runsOut_copyRaw hFirst hOffset hPrefix hTotal
      hLength
  rw [Payload.emit_raw
    (hSize.imp_left fun hNone => ⟨hNone, hRaw⟩)]
  by_cases hCode : found.tag = .codeWithScope
  · rcases hFound.code_of_tag hCode with
      ⟨outer, text, scope, rfl⟩
    have hSmall := hFits.length_le rfl
    rw [ParseTree.length_agreeing hFound] at hSmall
    rw [if_pos hCode, Place.copyRawCode,
      Place.outerLengths_eq hFound hPrefix, if_pos hSmall,
      lift_ok_bind]
    exact hCopy.followed _
  · rw [if_neg hCode]
    exact hCopy

/- An opened container runs out of room as its body does. -/
theorem runsOut_container
    {body : Bytes}
    (write : Nat → Write Nat)
    (hFirst : first ≤ place.offset)
    (hOffset : place.offset ≤ place.buffer.length)
    (hWrite :
      (write (start + (place.offset - first))).RunsOut 0
        (start + (place.offset - first)) body Lasts) :
    RunsOut
      (do
        let header ← place.slice first place.offset
        let n ← Write.copy start header
        let body ← Write.after n (write (start + n))
        return n + body)
      0 start (place.lead first ++ body) Lasts := by
  have hLead :
      (place.lead first).length = place.offset - first :=
    Place.length_lead hOffset
  rw [Place.slice_lead hFirst hOffset, lift_ok_bind]
  apply RunsOut.bind (emits_copy _) trivial
    (runsOut_copy rfl)
  rw [hLead, Nat.zero_add]
  exact (hWrite.after _).followed _

/-
  An opened code with scope runs out of room in its string
  or in its scope. Its outer length is put after both.
-/
theorem runsOut_code
    {text : Bytes}
    {scope : List ParseField}
    (write : Nat → Write Nat)
    (hFirst : first ≤ place.offset)
    (hOffset : place.offset ≤ place.buffer.length)
    (hText : text.length + 1 ≤ Word.maxLength)
    (hString : stringForm text <+: place.rest.drop 4)
    (hLast :
      Lasts (start + (place.offset - first))
        (start + (place.offset - first) +
          (ParseTree.code (outerField text scope) text
            scope).bytes.length))
    (hWrite :
      ∀ pos,
        pos =
          start + (place.offset - first) +
            (4 + (stringForm text).length) →
        (write pos).RunsOut 0 pos (documentBytes scope)
          Lasts) :
    RunsOut
      (do
        let lead ← place.scopeOffset
        let framing ←
          place.slice first (place.offset + lead)
        let n ← Write.copy start framing
        let body ← Write.after n (write (start + n))
        Write.after (n + body)
          (Write.putLength
            (start + (place.offset - first))
            (lead + body))
        return n + body)
      0 start
      (place.lead first ++
        (ParseTree.code (outerField text scope) text
          scope).bytes)
      Lasts := by
  have hWidth := place.length_take_four hString
  have hFraming :
      place.rest.take 4 ++ stringForm text <+: place.rest :=
    Bytes.append_prefix_iff.mpr
      ⟨List.take_prefix 4 _, hWidth.symm ▸ hString⟩
  have hSize :
      (place.rest.take 4 ++ stringForm text).length =
        4 + (stringForm text).length := by
    rw [List.length_append, hWidth]
  have hLead :
      (place.lead first).length = place.offset - first :=
    Place.length_lead hOffset
  rw [Place.scopeOffset_eq hText hString, lift_ok_bind,
    ← hSize, Place.slice_eq hFirst hOffset hFraming,
    lift_ok_bind]
  have hBoth :
      RunsOut
        (do
          let n ← copy start
            (place.lead first ++
              (place.rest.take 4 ++ stringForm text))
          let body ← Write.after n (write (start + n))
          Write.after (n + body)
            (Write.putLength
              (start + (place.offset - first))
              ((place.rest.take 4 ++
                stringForm text).length + body))
          return n + body)
        0 start
        (place.lead first ++
            (place.rest.take 4 ++ stringForm text) ++
          documentBytes scope)
        Lasts := by
    apply RunsOut.bind (emits_copy _) trivial
      (runsOut_copy rfl)
    rw [Nat.zero_add]
    apply ((hWrite _ ?_).after _).followed
    rw [List.length_append, hLead, hSize, Nat.add_assoc]
  rw [ParseTree.bytes] at hLast ⊢
  rw [List.append_assoc, List.append_assoc] at hBoth
  rw [← hLead, Nat.add_assoc, ← List.length_append]
    at hLast
  exact hBoth.patch hWidth (length_outerField text scope)
    hLast

end

end BsonView

------------------------------------------------------------
-- Views
------------------------------------------------------------

namespace BsonView

open Grammar Write

mutual

/- A value is placed as far as its parts fit. -/
theorem Value.runsOut :
    ∀ {value : Value} {tree : ParseTree},
      value.Encodes tree → tree.Fits →
      ∀ (keyed : Bool) (size? : Option Nat) (start : Nat),
        (size? = none ∨
          size? =
            some (value.headerLength + tree.bytes.length)) →
        (value.emit keyed size? start).RunsOut 0 start
          (value.lead (value.first keyed) ++ tree.bytes)
          (value.PutsLast
            (start + (value.offset - value.first keyed))
            tree)
| ⟨place, payload⟩, tree, hEncodes, hFits, keyed, size?,
    start, hSize => by
    rcases hEncodes with ⟨hTag, hPayload⟩
    have hFirst : place.first keyed ≤ place.offset := by
      have hStart := (Place.tag_eq_ok.mp hTag).1
      unfold Place.first
      split <;> omega
    rw [Value.emit, hTag, lift_ok_bind]
    exact Payload.runsOut hTag hPayload hFits hFirst hSize

theorem Payload.runsOut
    {place : Place}
    {first start : Nat}
    {size? : Option Nat} :
    ∀ {payload : Payload} {tree : ParseTree},
      place.tag = .ok tree.tag →
      payload.Encodes place.rest tree → tree.Fits →
      first ≤ place.offset →
      (size? = none ∨
        size? =
          some (place.headerLength + tree.bytes.length)) →
      (payload.emit place tree.tag first size?
        start).RunsOut 0 start
        (place.lead first ++ tree.bytes)
        (payload.PutsLast (start + (place.offset - first))
          tree)
| .raw, tree, hTag, hEncodes, hFits, hFirst, hSize => by
    rcases hEncodes with ⟨found, hFound, hPrefix, rfl⟩
    rw [ParseTree.tag_agreeing] at hTag ⊢
    rw [ParseTree.length_agreeing hFound] at hSize
    exact Payload.runsOut_raw hFirst hTag hFound hPrefix
      hFits hSize
| .document doc, .document fields, hTag, hEncodes, hFits,
    hFirst, _ => by
    rw [ParseTree.tag, Payload.emit]
    exact runsOut_container (fun pos => doc.emit pos) hFirst
      (Place.tag_eq_ok.mp hTag).2.1
      (Document.runsOut hEncodes (hFits.length_le rfl) _)
| .document doc, .code outer text scope, hTag, hEncodes,
    hFits, hFirst, _ => by
    rcases hEncodes with ⟨rfl, hText, hString, hDoc⟩
    have hSmall := hFits.length_le rfl
    rw [length_code_bytes (length_outerField text scope)]
      at hSmall
    rw [ParseTree.tag, Payload.emit]
    apply runsOut_code (fun pos => doc.emit pos) hFirst
      (Place.tag_eq_ok.mp hTag).2.1 hText hString
      (.inl ⟨rfl, rfl⟩)
    rintro pos rfl
    apply (Document.runsOut hDoc (by omega) _).weaken
    intro field stop hLast
    exact .inr hLast
| .array array, .array fields, hTag, hEncodes, hFits,
    hFirst, _ => by
    rw [ParseTree.tag, Payload.emit]
    exact runsOut_container (fun pos => array.emit pos)
      hFirst (Place.tag_eq_ok.mp hTag).2.1
      (ArrayDoc.runsOut hEncodes (hFits.length_le rfl) _)
| .document _, .scalar _ _, _, hEncodes, _, _, _ =>
    hEncodes.elim
| .document _, .array _, _, hEncodes, _, _, _ =>
    hEncodes.elim
| .array _, .scalar _ _, _, hEncodes, _, _, _ =>
    hEncodes.elim
| .array _, .document _, _, hEncodes, _, _, _ =>
    hEncodes.elim
| .array _, .code _ _ _, _, hEncodes, _, _, _ =>
    hEncodes.elim

/- A document is placed as far as its elements fit. -/
theorem Document.runsOut :
    ∀ {doc : Document} {fields : List ParseField},
      doc.Encodes fields →
      (documentBytes fields).length ≤ Word.maxLength →
      ∀ start,
        (doc.emit start).RunsOut 0 start
          (documentBytes fields)
          (doc.PutsLast start fields)
| ⟨elements⟩, fields, hEncodes, hSmall, start => by
    have hFits := bodyFits_of_document hSmall
    rw [Document.emit]
    apply runsOut_document
      (emitElements_emits hEncodes start (start + 4)) hFits
      _ (.inl ⟨rfl, rfl⟩)
    have hBody :=
      emitElements_runsOut hEncodes hFits start (start + 4)
        (Nat.le_add_right start 4)
    rw [Nat.add_sub_cancel_left] at hBody
    exact hBody.weaken fun _ _ hLast => .inr hLast

/- An array is placed as far as its values fit. -/
theorem ArrayDoc.runsOut :
    ∀ {array : ArrayDoc} {fields : List ParseField},
      array.Encodes fields →
      (documentBytes fields).length ≤ Word.maxLength →
      ∀ start,
        (array.emit start).RunsOut 0 start
          (documentBytes fields)
          (array.PutsLast start fields)
| ⟨elements⟩, fields, hEncodes, hSmall, start => by
    have hFits := bodyFits_of_document hSmall
    rw [ArrayDoc.emit]
    apply runsOut_document
      (emitValues_emits hEncodes start (start + 4)) hFits
      _ (.inl ⟨rfl, rfl⟩)
    have hBody :=
      emitValues_runsOut hEncodes hFits start (start + 4)
        (Nat.le_add_right start 4)
    rw [Nat.add_sub_cancel_left] at hBody
    exact hBody.weaken fun _ _ hLast => .inr hLast

theorem emitElements_runsOut :
    ∀ {elements : List Element} {fields : List ParseField},
      elementsEncode elements fields → BodyFits fields →
      ∀ start pos, start ≤ pos →
        (emitElements start pos elements).RunsOut
          (pos - start) pos (bodyBytes fields)
          (elementsPutLast pos elements fields)
| [], [], _, _, start, pos, _ => by
    rw [emitElements]
    exact runsOut_pure pos
| ⟨value⟩ :: rest, ⟨key, tree⟩ :: fields,
    ⟨hKey, hTree, hFields⟩, hFits, start, pos, hPos => by
    rcases bodyFits_cons.mp hFits with ⟨hFirst, hRest⟩
    have hTag := Value.tag_of_encodes hTree
    have hLead : value.lead (value.first true) =
        tree.tag.byte :: (key ++ [0]) :=
      Place.header_eq hTag hKey
    have hHeader :
        value.offset - value.first true = key.length + 2 :=
      Place.headerLength_eq hKey
    have hValue :=
      Value.emits hTree true none pos (.inl rfl)
    have hShort :=
      Value.runsOut hTree hFirst true none pos (.inl rfl)
    rw [hLead, hHeader] at hValue hShort
    have hSize :
        (tree.tag.byte :: (key ++ [0]) ++
            tree.bytes).length =
          key.length + 2 + tree.bytes.length := by
      simp
      omega
    have hBefore :
        pos - start + (key.length + 2 + tree.bytes.length) =
          pos + (key.length + 2 + tree.bytes.length) -
            start := by
      omega
    rw [emitElements, bodyBytes_cons, ← List.append_assoc]
    apply RunsOut.bind (hValue.after (pos - start)) hFirst
    · exact (hShort.after (pos - start)).weaken
        fun _ _ hLast => .inl hLast
    · rw [hSize, hBefore]
      exact (emitElements_runsOut hFields hRest start _
        (by omega)).weaken fun _ _ hLast => .inr hLast
| [], ⟨_, _⟩ :: _, hEncode, _, _, _, _ => hEncode.elim
| ⟨_⟩ :: _, [], hEncode, _, _, _, _ => hEncode.elim

theorem emitValues_runsOut
    {index : Nat} :
    ∀ {elements : List Element} {fields : List ParseField},
      valuesEncode index elements fields →
      BodyFits fields →
      ∀ start pos, start ≤ pos →
        (emitValues start index pos elements).RunsOut
          (pos - start) pos (bodyBytes fields)
          (elementsPutLast pos elements fields)
| [], [], _, _, start, pos, _ => by
    rw [emitValues]
    exact runsOut_pure pos
| ⟨value⟩ :: rest, ⟨key, tree⟩ :: fields,
    ⟨hKey, _, hTree, hFields⟩, hFits, start, pos, hPos => by
    rcases bodyFits_cons.mp hFits with ⟨hFirst, hRest⟩
    have hTag := Value.tag_of_encodes hTree
    have hHeader :
        (tree.tag.byte :: key ++ [0]).length =
          key.length + 2 := by simp
    have hValue :=
      Value.emits hTree false none
        (pos + (key.length + 2)) (.inl rfl)
    have hShort :=
      Value.runsOut hTree hFirst false none
        (pos + (key.length + 2)) (.inl rfl)
    have hLead : value.lead (value.first false) = [] :=
      Place.lead_offset
    have hNothing : value.offset - value.first false = 0 :=
      Nat.sub_self _
    rw [hLead, hNothing, List.nil_append] at hValue hShort
    rw [Nat.zero_add] at hValue
    rw [Nat.add_zero] at hShort
    have hBefore :
        pos - start + (key.length + 2) =
          pos + (key.length + 2) - start := by
      omega
    have hBehind :
        pos + (key.length + 2) - start + tree.bytes.length =
          pos + (key.length + 2 + tree.bytes.length) -
            start := by
      omega
    have hCopy :
        (after (pos - start)
          (copy pos (tree.tag.byte :: key ++ [0]))).RunsOut
          (pos - start) pos (tree.tag.byte :: key ++ [0])
          (elementsPutLast pos (⟨value⟩ :: rest)
            (⟨key, tree⟩ :: fields)) :=
      (runsOut_copy rfl).after (pos - start)
    rw [emitValues, hTag, after_lift_ok_bind, ← hKey,
      bodyBytes_cons]
    apply RunsOut.bind ((emits_copy _).after (pos - start))
      trivial hCopy
    dsimp only
    rw [hHeader, hBefore]
    apply RunsOut.bind (hValue.after _) hFirst
    · exact (hShort.after _).weaken
        fun _ _ hLast => .inl hLast
    · rw [hBehind, Nat.add_assoc pos]
      exact (emitValues_runsOut hFields hRest start _
        (by omega)).weaken fun _ _ hLast => .inr hLast
| [], ⟨_, _⟩ :: _, hEncode, _, _, _, _ => hEncode.elim
| ⟨_⟩ :: _, [], hEncode, _, _, _, _ => hEncode.elim

end

end BsonView

------------------------------------------------------------
-- Windows That Are Too Short
------------------------------------------------------------

namespace BsonView

open Grammar

/-
  A write of some bytes from `start` on, into `length` bytes
  of a destination, fails for want of room and tells how
  many of them it has placed, which is no more than it was
  given.
-/
def Written.StopsShort
    (start length : Nat)
    (bytes : Bytes)
    (PutsLast : Nat → Nat → Prop)
    (dest : Bytes)
    (written : Written) : Prop :=
  ∃ placed needed left,
    written =
        ⟨.error ((Error.destinationTooSmall needed
          (start + length)).after placed), left⟩ ∧
      placed ≤ length ∧
      PlacedPartly start placed bytes PutsLast dest left

/- What is behind a window stays. -/
theorem PlacedPartly.in_window
    {start placed stop : Nat}
    {bytes dest left : Bytes}
    {Lasts : Nat → Nat → Prop}
    (hPlaced :
      PlacedPartly start placed bytes Lasts (dest.take stop)
        left)
    (hEnd : start + placed ≤ stop)
    (hStop : stop ≤ dest.length) :
    PlacedPartly start placed bytes Lasts dest
      (left ++ dest.drop stop) := by
  have hLength : left.length = stop := by
    rw [hPlaced.length_eq, List.length_take]
    omega
  refine ⟨?_, ?_, ?_⟩
  · rw [List.length_append, List.length_drop]
    omega
  · intro i hOutside
    by_cases hBehind : stop ≤ i
    · rw [List.getElem?_append_right (by omega), hLength,
        List.getElem?_drop, Nat.add_sub_cancel' hBehind]
    · rw [List.getElem?_append_left (by omega),
        hPlaced.outside_eq i hOutside,
        List.getElem?_take_of_lt (by omega)]
  · intro i hInside
    rw [List.getElem?_append_left (by omega)]
    exact hPlaced.inside_eq i hInside

/-
  What runs out of room stops short in a window that is
  shorter than what is to be written.
-/
theorem Write.RunsOut.into
    {action : Write Nat}
    {start length : Nat}
    {bytes dest : Bytes}
    {Lasts : Nat → Nat → Prop}
    (hAction : action.RunsOut 0 start bytes Lasts)
    (hAddress : dest.length < positionLimit)
    (hRoom : start + length ≤ dest.length)
    (hShort : length < bytes.length) :
    (Write.into start length action dest).StopsShort start
      length bytes Lasts dest := by
  have hWindow :
      (dest.take (start + length)).length =
        start + length := by
    rw [List.length_take]
    omega
  rcases hAction (dest.take (start + length)) (by omega)
      (by omega) with
    ⟨placed, needed, left, hError, hEnd, hPlaced⟩
  rw [hWindow, Nat.zero_add] at hError
  rw [hWindow] at hEnd
  refine
    ⟨placed, needed, left ++ dest.drop (start + length), ?_,
      by omega, hPlaced.in_window hEnd hRoom⟩
  unfold Write.into Write.within
  dsimp only
  rw [if_neg (by omega), if_neg (by omega), hError]

namespace Element

/-
  A valid element that is short enough is encoded as its
  header and what its value encodes.
-/
theorem encode_of_valid
    {element : Element}
    {n : Nat}
    (hValid : element.validate = .ok n)
    (hSmall : n ≤ Word.maxLength) :
    ∃ tree : ParseTree, element.value.Encodes tree ∧
      tree.Fits ∧
      n = element.value.headerLength + tree.bytes.length ∧
      element.encode =
        .ok (element.value.lead element.value.start ++
          tree.bytes) := by
  rcases (Element.measure_eq_ok (Nat.zero_le _)).mp
      hValid with
    ⟨⟨key, tree⟩, ⟨hKey, hTree⟩, rfl, hHeight⟩
  rw [Nat.zero_add] at hHeight
  have hFits : tree.Fits :=
    (bodyFits_cons.mp (bodyFits_of_length hSmall)).1
  have hEncode :=
    Element.encode_eq_ok.mpr
      ⟨⟨key, tree⟩, ⟨hKey, hTree⟩, hHeight, hFits,
        lt_positionLimit hSmall, rfl⟩
  rcases element with ⟨value⟩
  rcases Element.lead_eq hKey hTree with ⟨hBody, hLength⟩
  rw [← hBody] at hEncode
  exact ⟨tree, hTree, hFits, hLength, hEncode⟩

/-
  An opened element that is given less than its size stops
  short, with its key or without it.
-/
theorem write_stopsShort
    {element : Element}
    {tree : ParseTree}
    {size start : Nat}
    {dest : Bytes}
    (hTree : element.value.Encodes tree)
    (hFits : tree.Fits)
    (hOpened : element.value.payload ≠ .raw)
    (hHeader : element.value.headerLength ≤ size)
    (hSize :
      size <
        element.value.headerLength + tree.bytes.length)
    (keyed : Bool)
    (hAddress : dest.length < positionLimit)
    (hRoom :
      start + element.roomFor keyed size ≤ dest.length) :
    (element.write keyed start size dest).StopsShort start
      (element.roomFor keyed size)
      (element.value.lead (element.value.first keyed) ++
        tree.bytes)
      (element.value.PutsLast
        (start +
          (element.value.offset -
            element.value.first keyed))
        tree)
      dest := by
  rcases Place.tag_eq_ok.mp
      (Value.tag_of_encodes hTree) with
    ⟨hStart, hOffset, _⟩
  have hReady : element.value.isInitialized = true := by
    simp [Place.isInitialized, hStart, hOffset]
  have hShort :
      element.roomFor keyed size <
        (element.value.lead (element.value.first keyed) ++
          tree.bytes).length := by
    rw [List.length_append, Place.length_lead hOffset]
    unfold roomFor Place.first
    unfold Place.headerLength at hHeader hSize ⊢
    split <;> omega
  have hRuns :=
    Value.runsOut hTree hFits keyed none start (.inl rfl)
  rw [← Value.emit_opened hOpened keyed (some size)]
    at hRuns
  unfold write
  dsimp only
  rw [if_neg (by simp [hReady]),
    if_neg (Nat.not_lt.mpr hHeader)]
  exact hRuns.into hAddress hRoom hShort

end Element

end BsonView
