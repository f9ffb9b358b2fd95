import BsonView.Proofs.Grammar.Forms
import BsonView.Writing

/-
  Actions that emit bytes.

  An action emits bytes at a position when it puts them
  there in every destination with room for them, changes
  nothing else and answers the same each time. It fails
  exactly when a length among them does not fit its field.
  Actions that emit one after the other emit what both do.

  Main declarations:
    * `Write.Emits`
    * `Write.emits_copy`
    * `Write.Emits.bind`
    * `Write.Emits.patch`
    * `Write.emits_document`
-/

------------------------------------------------------------
-- Runs Of Actions
------------------------------------------------------------

namespace BsonView

namespace Write

section

variable {α β : Type} {dest left : Bytes}

theorem pure_apply
    (a : α)
    (dest : Bytes) :
    (pure a : Write α) dest = (.ok a, dest) := rfl

/- What follows a success works on what that left. -/
theorem bind_of_ok
    {first : Write α}
    {next : α → Write β}
    {a : α}
    (hFirst : first dest = (.ok a, left)) :
    (first >>= next) dest = next a left := by
  simp only [bind, hFirst]

/- Nothing follows a failure. -/
theorem bind_of_error
    {first : Write α}
    {next : α → Write β}
    {failure : Failure}
    (hFirst : first dest = (.error failure, left)) :
    (first >>= next) dest = (.error failure, left) := by
  simp only [bind, hFirst]

theorem after_of_ok
    {n : Nat}
    {action : Write α}
    {a : α}
    (hAction : action dest = (.ok a, left)) :
    after n action dest = (.ok a, left) := by
  rw [after, hAction]

theorem after_of_error
    {n : Nat}
    {action : Write α}
    {failure : Failure}
    (hAction : action dest = (.error failure, left)) :
    after n action dest =
      (.error (failure.after n), left) := by
  rw [after, hAction]

/- Sequences of actions can be regrouped. -/
instance : LawfulMonad Write := by
  apply LawfulMonad.mk' Write
  · intro α action
    funext dest
    rcases hAction : action dest with ⟨failure | a, left⟩
    · exact bind_of_error hAction
    · exact bind_of_ok hAction
  · intro α β a next
    rfl
  · intro α β γ first next last
    funext dest
    rcases hFirst : first dest with ⟨failure | a, left⟩
    · rw [bind_of_error hFirst,
        bind_of_error (bind_of_error hFirst)]
    · rw [bind_of_ok hFirst]
      have hBoth : (first >>= next) dest = next a left :=
        bind_of_ok hFirst
      rcases hNext : next a left with ⟨failure | b, more⟩
      · rw [hNext] at hBoth
        rw [bind_of_error hBoth, bind_of_error hNext]
      · rw [hNext] at hBoth
        rw [bind_of_ok hBoth, bind_of_ok hNext]

/- A found answer needs no destination. -/
theorem lift_ok_bind
    (a : α)
    (next : α → Write β) :
    ((liftM (Except.ok a : Except Error α) : Write α) >>=
      next) = next a := rfl

theorem after_lift_ok_bind
    (n : Nat)
    (a : α)
    (next : α → Write β) :
    (after n
        (liftM (Except.ok a : Except Error α) : Write α) >>=
      next) = next a := rfl

/- Bytes are copied where there is room for all of them. -/
theorem copy_of_room
    {start : Nat}
    {source : Bytes}
    (hRoom : start + source.length ≤ dest.length) :
    copy start source dest =
      (.ok source.length, dest.overwrite start source) := by
  unfold copy
  dsimp only
  rw [if_pos hRoom]

/- Where there is not, none of them is. -/
theorem copy_of_short
    {start : Nat}
    {source : Bytes}
    (hShort : dest.length < start + source.length) :
    copy start source dest =
      (.error
        ((Error.destinationTooSmall
          (start + source.length)
          dest.length).after 0), dest) := by
  unfold copy
  dsimp only
  rw [if_neg (Nat.not_le.mpr hShort)]

/- A word is put where there is room for it. -/
theorem putInt32_of_room
    {start : Nat}
    {n : Int32}
    (hRoom : start + 4 ≤ dest.length) :
    putInt32 start n dest =
      (.ok (), dest.overwrite start (Word.ofInt32 n)) := by
  unfold putInt32 Word.putInt32
  rw [if_pos hRoom]

/- The length field of a length that fits is put. -/
theorem putLength_of_small
    {start length : Nat}
    (hSmall : length ≤ Word.maxLength) :
    putLength start length =
      putInt32 start (Int32.ofNat length) := by
  unfold putLength
  rw [Word.lengthField, if_pos hSmall, lift_ok_bind]

/- There is no length field of a length that does not. -/
theorem putLength_of_long
    {start length : Nat}
    (hLong : Word.maxLength < length)
    (dest : Bytes) :
    putLength start length dest =
      (.error
        ((Error.invalidLength
          Word.maxLength length).after 0), dest) := by
  unfold putLength
  rw [Word.lengthField, if_neg (Nat.not_le.mpr hLong)]
  rfl

end

end Write

end BsonView

------------------------------------------------------------
-- Emitted Bytes
------------------------------------------------------------

namespace BsonView

namespace Write

/-
  The action puts the bytes at `start` and answers `answer`,
  wherever there is room for them, if they fit what holds
  their lengths. If they do not, it fails.
-/
def Emits
    {α : Type}
    (action : Write α)
    (start : Nat)
    (source : Bytes)
    (answer : α)
    (fits : Prop) : Prop :=
  ∀ dest : Bytes,
    start + source.length ≤ dest.length →
      (fits ∧
          action dest =
            (.ok answer, dest.overwrite start source)) ∨
        (¬fits ∧
          ∃ failure left,
            action dest = (.error failure, left))

section

variable
  {α β : Type}
  {start : Nat}
  {a b source : Bytes}
  {x : α}
  {y : β}
  {p q : Prop}

theorem Emits.congr
    {action : Write α}
    (hAction : action.Emits start source x p)
    (hFits : p ↔ q) :
    action.Emits start source x q := by
  intro dest hRoom
  rw [← hFits]
  exact hAction dest hRoom

theorem emits_pure
    (x : α) :
    (pure x : Write α).Emits start [] x True := by
  intro dest _
  left
  rw [Bytes.overwrite_nil, pure_apply]
  exact ⟨trivial, rfl⟩

theorem emits_copy
    (source : Bytes) :
    (copy start source).Emits start source
      source.length True := by
  intro dest hRoom
  exact .inl ⟨trivial, copy_of_room hRoom⟩

theorem Emits.after
    {action : Write α}
    (hAction : action.Emits start source x p)
    (n : Nat) :
    (after n action).Emits start source x p := by
  intro dest hRoom
  rcases hAction dest hRoom with
    ⟨hFits, hOk⟩ | ⟨hFits, failure, left, hError⟩
  · exact .inl ⟨hFits, after_of_ok hOk⟩
  · exact .inr ⟨hFits, _, left, after_of_error hError⟩

/- Two actions emit one after the other. -/
theorem Emits.bind
    {first : Write α}
    {next : α → Write β}
    (hFirst : first.Emits start a x p)
    (hNext : (next x).Emits (start + a.length) b y q) :
    (first >>= next).Emits start (a ++ b) y (p ∧ q) := by
  intro dest hRoom
  have hLength := hRoom
  rw [List.length_append] at hLength
  rcases hFirst dest (by omega) with
    ⟨hP, hOk⟩ | ⟨hP, failure, left, hError⟩
  · have hMore :
        start + a.length + b.length ≤
          (dest.overwrite start a).length := by
      rw [Bytes.length_overwrite (by omega)]
      omega
    rw [bind_of_ok hOk]
    rcases hNext _ hMore with
      ⟨hQ, hOk⟩ | ⟨hQ, failure, left, hError⟩
    · left
      rw [hOk, Bytes.overwrite_next hRoom]
      exact ⟨⟨hP, hQ⟩, rfl⟩
    · right
      refine ⟨?_, failure, left, hError⟩
      intro hBoth
      exact hQ hBoth.2
  · right
    refine ⟨?_, failure, left, bind_of_error hError⟩
    intro hBoth
    exact hP hBoth.1

/- Two actions can be done before what follows them. -/
theorem Emits.of_pair
    {γ : Type}
    {first : Write α}
    {next : α → Write β}
    {last : α → β → Write γ}
    {z : γ}
    (hPair :
      ((first >>= fun a => next a >>= fun b =>
          (pure (a, b) : Write (α × β))) >>= fun pair =>
        last pair.1 pair.2).Emits start source z p) :
    (first >>= fun a => next a >>= fun b =>
      last a b).Emits start source z p := by
  simp only [bind_assoc, pure_bind] at hPair
  exact hPair

/- An action followed by an answer emits what it did. -/
theorem Emits.answer
    {first : Write α}
    {next : α → β}
    (hFirst : first.Emits start source x p) :
    (first >>= fun a => pure (next a)).Emits start source
      (next x) p := by
  have hBoth :
      (first >>= fun a => (pure (next a) : Write β)).Emits
        start (source ++ []) (next x) (p ∧ True) :=
    hFirst.bind (emits_pure (next x))
  rw [List.append_nil] at hBoth
  apply hBoth.congr
  rw [and_true]

/-
  What is followed by a sure failure emits nothing that
  fits.
-/
theorem Emits.fail
    {first : Write α}
    {next : α → Write β}
    {final : Bytes}
    (hFirst : first.Emits start source x p)
    (hLength : source.length = final.length)
    (hFits : ¬q)
    (hNext :
      ∀ dest, ∃ failure left,
        next x dest = (.error failure, left)) :
    (first >>= next).Emits start final y q := by
  intro dest hRoom
  right
  refine ⟨hFits, ?_⟩
  rcases hFirst dest (hLength ▸ hRoom) with
    ⟨_, hOk⟩ | ⟨_, failure, left, hError⟩
  · rw [bind_of_ok hOk]
    exact hNext _
  · exact ⟨failure, left, bind_of_error hError⟩

/-
  A word that is put over four bytes emitted before takes
  their place.
-/
theorem Emits.patch
    {first : Write α}
    {next : α → Write β}
    {old c : Bytes}
    {pos : Nat}
    {field : Int32}
    (hFirst : first.Emits start (a ++ (old ++ c)) x p)
    (hOld : old.length = 4)
    (hPos : pos = start + a.length)
    (hNext :
      ∀ dest left,
        putInt32 pos field dest = (.ok (), left) →
          next x dest = (.ok y, left)) :
    (first >>= next).Emits start
      (a ++ (Word.ofInt32 field ++ c)) y p := by
  intro dest hRoom
  have hSame : old.length = (Word.ofInt32 field).length := by
    rw [hOld]
    exact (Word.length_bytes 4 _).symm
  have hLength :
      (a ++ (old ++ c)).length =
        (a ++ (Word.ofInt32 field ++ c)).length := by
    simp only [List.length_append, hSame]
  rw [← hLength] at hRoom
  rcases hFirst dest hRoom with
    ⟨hFits, hOk⟩ | ⟨hFits, failure, left, hError⟩
  · left
    refine ⟨hFits, ?_⟩
    rw [bind_of_ok hOk, ← Bytes.overwrite_inside hRoom hSame,
      ← hPos]
    apply hNext
    apply putInt32_of_room
    rw [Bytes.length_overwrite hRoom, hPos]
    simp only [List.length_append, hOld] at hRoom
    omega
  · right
    exact ⟨hFits, failure, left, bind_of_error hError⟩

/-
  So does a length field, if the length fits it, and that
  it does is all that what comes before asks for.
-/
theorem Emits.patchLength
    {first : Write α}
    {next : α → Write β}
    {old c : Bytes}
    {n pos length : Nat}
    (hFirst : first.Emits start (a ++ (old ++ c)) x p)
    (hOld : old.length = 4)
    (hPos : pos = start + a.length)
    (hFits : length ≤ Word.maxLength → p)
    (hNext :
      next x =
        Write.after n (putLength pos length) >>= fun _ =>
          pure y) :
    (first >>= next).Emits start
      (a ++ (Word.ofLength length ++ c)) y
      (length ≤ Word.maxLength) := by
  by_cases hSmall : length ≤ Word.maxLength
  · have hBoth :=
      hFirst.congr (iff_of_true (hFits hSmall) hSmall)
    rw [← Word.ofInt32_ofNat hSmall]
    apply hBoth.patch hOld hPos
    intro dest left hPut
    rw [← putLength_of_small hSmall] at hPut
    rw [hNext, bind_of_ok (after_of_ok hPut), pure_apply]
  · have hLong := Nat.lt_of_not_le hSmall
    refine hFirst.fail ?_ hSmall ?_
    · simp only [List.length_append, hOld,
        Word.length_ofLength]
    · intro dest
      rw [hNext]
      exact
        ⟨_, _, bind_of_error (after_of_error
          (putLength_of_long hLong dest))⟩

end

end Write

end BsonView

------------------------------------------------------------
-- Documents
------------------------------------------------------------

namespace BsonView

namespace Write

open Grammar

section

variable
  {start : Nat}
  {body dest : Bytes}
  (hRoom :
    start + (documentForm body).length ≤ dest.length)

include hRoom

/- The closing null byte is put right after the body. -/
theorem copy_closing :
    copy (start + 4 + body.length) [0]
        (dest.overwrite (start + 4) body) =
      (.ok 1, dest.overwrite (start + 4) (body ++ [0])) := by
  rw [length_documentForm] at hRoom
  have hBody :
      start + 4 + (body ++ [0]).length ≤ dest.length := by
    rw [List.length_append, List.length_singleton]
    omega
  have hInside :
      start + 4 + body.length + [(0 : UInt8)].length ≤
        (dest.overwrite (start + 4) body).length := by
    rw [Bytes.length_overwrite (by omega),
      List.length_singleton]
    omega
  rw [copy_of_room hInside, Bytes.overwrite_next hBody]
  rfl

/-
  Closing a document puts a null byte after its body and its
  length before it.
-/
theorem close_of_small
    (hSmall :
      (documentForm body).length ≤ Word.maxLength) :
    close start (start + 4 + body.length)
        (dest.overwrite (start + 4) body) =
      (.ok (documentForm body).length,
        dest.overwrite start (documentForm body)) := by
  have hCopy := copy_closing hRoom
  rw [length_documentForm] at hRoom hSmall ⊢
  have hBody :
      start + 4 + (body ++ [0]).length ≤ dest.length := by
    rw [List.length_append, List.length_singleton]
    omega
  have hLength :
      start + 4 + body.length + 1 - start =
        body.length + 5 := by omega
  have hField :
      (Word.ofInt32 (Int32.ofNat (body.length + 5))).length =
        4 := Word.length_bytes 4 _
  have hPut :
      putInt32 start (Int32.ofNat (body.length + 5))
          (dest.overwrite (start + 4) (body ++ [0])) =
        (.ok (),
          dest.overwrite start (documentForm body)) := by
    rw [putInt32_of_room, ← hField,
      Bytes.overwrite_before, Word.ofInt32_ofNat hSmall,
      documentForm]
    · rw [List.length_append, hField]
      omega
    · rw [Bytes.length_overwrite hBody]
      omega
  unfold close
  rw [bind_of_ok (after_of_ok hCopy), hLength,
    Word.lengthField, if_pos hSmall]
  change
    (after (body.length + 5)
        (putInt32 start (Int32.ofNat (body.length + 5))) >>=
      fun _ => pure (body.length + 5)) _ = _
  rw [bind_of_ok (after_of_ok hPut), pure_apply]

/- A document that is too long is not closed. -/
theorem close_of_long
    (hLong :
      Word.maxLength < (documentForm body).length) :
    ∃ failure left,
      close start (start + 4 + body.length)
          (dest.overwrite (start + 4) body) =
        (.error failure, left) := by
  have hCopy := copy_closing hRoom
  rw [length_documentForm] at hLong
  have hLength :
      start + 4 + body.length + 1 - start =
        body.length + 5 := by omega
  unfold close
  rw [bind_of_ok (after_of_ok hCopy), hLength,
    Word.lengthField, if_neg (Nat.not_le.mpr hLong)]
  exact ⟨_, _, rfl⟩

end

/-
  A length field, a body after it and a closing null byte
  make a document. It fits when its own length does, for no
  length inside it is greater.
-/
theorem emits_document
    {start : Nat}
    {body : Bytes}
    {write : Nat → Write Nat}
    {p : Prop}
    (hBody :
      (write (start + 4)).Emits (start + 4) body
        (start + 4 + body.length) p)
    (hFits :
      (documentForm body).length ≤ Word.maxLength → p) :
    Emits
      (do
        let pos ← reserve start
        let pos ← write pos
        close start pos)
      start (documentForm body)
      (documentForm body).length
      ((documentForm body).length ≤ Word.maxLength) := by
  intro dest hRoom
  have hLength := hRoom
  rw [length_documentForm] at hLength
  have hReserve :
      reserve start dest = (.ok (start + 4), dest) := by
    unfold reserve
    dsimp only
    rw [if_pos (by omega)]
  rw [bind_of_ok hReserve]
  rcases hBody dest (by omega) with
    ⟨_, hOk⟩ | ⟨hP, failure, left, hError⟩
  · rw [bind_of_ok hOk]
    by_cases hSmall :
        (documentForm body).length ≤ Word.maxLength
    · exact .inl ⟨hSmall, close_of_small hRoom hSmall⟩
    · have hLong := Nat.lt_of_not_le hSmall
      exact .inr ⟨hSmall, close_of_long hRoom hLong⟩
  · right
    refine ⟨?_, failure, left, bind_of_error hError⟩
    intro hSmall
    exact hP (hFits hSmall)

end Write

end BsonView
