import BsonView.Proofs.Reading.Causes
import BsonView.Proofs.Writing.Actions

/-
  What writing can fail with.

  An action fails with what one of its parts fails with. The
  parts fail where a destination ends, where a length does
  not fit its field, and where the bytes to be copied cannot
  be told; only a payload that does not go with its type is
  refused for that.

  Main declarations:
    * `Error.NoMismatch`
    * `Write.FailsOnly`
    * `Write.FailsOnly.bind`
    * `Write.close_failsOnly`
    * `Place.copyRaw_failsOnly`
    * `Place.copyRawCode_failsOnly`
-/

------------------------------------------------------------
-- Actions
------------------------------------------------------------

namespace BsonView

/- The error is not that a type is not the one expected. -/
def Error.NoMismatch : Error → Prop
| .typeMismatch _ _ => False
| _ => True

/- What is found in bytes is no remark on a type. -/
theorem Error.Found.noMismatch
    {error : Error}
    (hFound : error.Found) :
    error.NoMismatch := by
  cases error <;> trivial

theorem FailsOnly.noMismatch
    {α : Type}
    {outcome : Except Error α}
    (hOutcome : FailsOnly Error.Found outcome) :
    FailsOnly Error.NoMismatch outcome :=
  hOutcome.weaken fun _ hFound => hFound.noMismatch

namespace Write

/- In every destination it fails only as is `Allowed`. -/
def FailsOnly
    {α : Type}
    (Allowed : Error → Prop)
    (action : Write α) : Prop :=
  ∀ dest,
    BsonView.FailsOnly
      (fun failure => Allowed failure.error)
      (action dest).1

section

variable
  {α β : Type}
  {Allowed : Error → Prop}

theorem failsOnly_pure
    (a : α) :
    FailsOnly Allowed (pure a) :=
  fun _ => failsOnly_ok a

/- A sequence of actions fails as one of them does. -/
theorem FailsOnly.bind
    {first : Write α}
    {next : α → Write β}
    (hFirst : FailsOnly Allowed first)
    (hNext : ∀ a, FailsOnly Allowed (next a)) :
    FailsOnly Allowed (first >>= next) := by
  intro dest
  have hAnswer := hFirst dest
  rcases hOutcome : first dest with ⟨failure | a, left⟩
  · rw [bind_of_error hOutcome]
    rw [hOutcome] at hAnswer
    exact failsOnly_error (hAnswer failure rfl)
  · rw [bind_of_ok hOutcome]
    exact hNext a left

/- Progress does not change what an action fails with. -/
theorem FailsOnly.after
    {action : Write α}
    (hAction : FailsOnly Allowed action)
    (n : Nat) :
    FailsOnly Allowed (Write.after n action) := by
  intro dest
  have hAnswer := hAction dest
  rcases hOutcome : action dest with ⟨failure | a, left⟩
  · rw [after_of_error hOutcome]
    rw [hOutcome] at hAnswer
    have hAllowed : Allowed failure.error :=
      hAnswer failure rfl
    exact failsOnly_error hAllowed
  · rw [after_of_ok hOutcome]
    exact failsOnly_ok a

/- What follows an answer may know that it is the answer. -/
theorem failsOnly_lift_bind
    {outcome : Except Error α}
    {next : α → Write β}
    (hOutcome : BsonView.FailsOnly Allowed outcome)
    (hNext :
      ∀ a, outcome = .ok a → FailsOnly Allowed (next a)) :
    FailsOnly Allowed
      ((liftM outcome : Write α) >>= next) := by
  cases outcome with
  | error error =>
      intro dest
      have hError : Allowed error := hOutcome error rfl
      exact failsOnly_error hError
  | ok a => exact hNext a rfl

/- What needs no destination fails as it does. -/
theorem failsOnly_lift
    {outcome : Except Error α}
    (hOutcome : BsonView.FailsOnly Allowed outcome) :
    FailsOnly Allowed (liftM outcome : Write α) := by
  intro dest
  change
    BsonView.FailsOnly _ (outcome.mapError (Error.after 0))
  exact FailsOnly.mapError hOutcome

end

end Write

end BsonView

------------------------------------------------------------
-- Parts Of Writes
------------------------------------------------------------

namespace BsonView

namespace Write

variable (start : Nat)

theorem copy_failsOnly
    (source : Bytes) :
    FailsOnly Error.NoMismatch (copy start source) := by
  intro dest
  unfold copy
  dsimp only
  split
  · exact failsOnly_ok _
  · exact failsOnly_error trivial

theorem putInt32_failsOnly
    (n : Int32) :
    FailsOnly Error.NoMismatch (putInt32 start n) := by
  intro dest
  unfold putInt32 Word.putInt32
  split
  · exact failsOnly_ok _
  next error hPut =>
    split at hPut
    · cases hPut
    · cases hPut
      exact failsOnly_error trivial

theorem lengthField_failsOnly
    (length : Nat) :
    BsonView.FailsOnly Error.NoMismatch
      (Word.lengthField length) := by
  unfold Word.lengthField
  split
  · exact failsOnly_ok _
  · exact failsOnly_error trivial

theorem putLength_failsOnly
    (length : Nat) :
    FailsOnly Error.NoMismatch (putLength start length) :=
  (failsOnly_lift (lengthField_failsOnly length)).bind
    fun _ => putInt32_failsOnly start _

theorem reserve_failsOnly :
    FailsOnly Error.NoMismatch (reserve start) := by
  intro dest
  unfold reserve
  dsimp only
  split
  · exact failsOnly_ok _
  · exact failsOnly_error trivial

theorem close_failsOnly
    (pos : Nat) :
    FailsOnly Error.NoMismatch (close start pos) := by
  refine ((copy_failsOnly pos [0]).after _).bind ?_
  intro closing
  refine (failsOnly_lift (lengthField_failsOnly _)).bind ?_
  intro field
  refine ((putInt32_failsOnly start field).after _).bind ?_
  exact fun _ => failsOnly_pure _

end Write

end BsonView

------------------------------------------------------------
-- Payloads In Buffers
------------------------------------------------------------

namespace BsonView

namespace Place

variable (place : Place)

theorem tag_failsOnly :
    FailsOnly Error.NoMismatch place.tag := by
  unfold Place.tag
  split
  · exact (Framing.tag_failsOnly _).noMismatch
  · exact failsOnly_error trivial

theorem slice_failsOnly
    (first stop : Nat) :
    FailsOnly Error.NoMismatch (place.slice first stop) := by
  unfold slice
  split
  · exact failsOnly_ok _
  · exact failsOnly_error trivial

theorem rawSize_failsOnly :
    FailsOnly Error.NoMismatch place.rawSize := by
  refine place.tag_failsOnly.bind ?_
  intro tag _
  refine FailsOnly.bind ?_ fun _ _ => failsOnly_ok _
  exact (Framing.payloadLength_failsOnly _ tag).noMismatch

theorem copyRaw_failsOnly
    (first size start : Nat) :
    Write.FailsOnly Error.NoMismatch
      (place.copyRaw first size start) :=
  (Write.failsOnly_lift (place.slice_failsOnly _ _)).bind
    fun source => Write.copy_failsOnly start source

theorem outerLengths_failsOnly :
    FailsOnly Error.NoMismatch place.outerLengths := by
  refine place.scopeOffset_failsOnly.noMismatch.bind ?_
  intro lead _
  refine (Word.readLength_failsOnly _).noMismatch.bind ?_
  intro scope _
  refine (Write.lengthField_failsOnly _).bind ?_
  intro total _
  refine (Word.readInt32_failsOnly _).noMismatch.bind ?_
  exact fun _ _ => failsOnly_ok _

theorem copyRawCode_failsOnly
    (first size start : Nat) :
    Write.FailsOnly Error.NoMismatch
      (place.copyRawCode first size start) := by
  refine
    (Write.failsOnly_lift place.outerLengths_failsOnly).bind
      ?_
  rintro ⟨declared, total⟩
  refine (place.copyRaw_failsOnly first size start).bind ?_
  intro n
  dsimp only
  split
  · refine
      ((Write.putInt32_failsOnly _ total).after n).bind ?_
    exact fun _ => Write.failsOnly_pure n
  · exact Write.failsOnly_pure n

end Place

end BsonView
