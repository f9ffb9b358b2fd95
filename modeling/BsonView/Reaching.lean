import BsonView.Writing

/-
  Accesses that may be out of range.

  The functions on bytes answer something whatever they are
  asked for. Here are accesses that have no answer where
  there is nothing: a part that is not all there, a byte
  past the end, a difference below zero, a sum that is no
  position, room that no buffer can have. A function that
  reaches for none of these answers what it answers without
  the guards.

  Main declarations:
    * `Bytes.Addressable`
    * `Bytes.slice?`
    * `Bytes.zeros?`
    * `Bytes.grown?`
    * `Position.sum?`
    * `Position.difference?`
    * `Reaching`
    * `Reaching.after`
    * `Reaching.Keeps`
    * `Reaching.Refines`
-/

------------------------------------------------------------
-- Guards
------------------------------------------------------------

namespace BsonView

namespace Bytes

/- Buffers have bytes at half of the positions at most. -/
def Addressable (bytes : Bytes) : Prop :=
  2 * bytes.length < positionLimit

/- The bytes between two positions, which must be there. -/
def slice?
    (bytes : Bytes)
    (first stop : Nat) : Option Bytes :=
  if first ≤ stop ∧ stop ≤ bytes.length then
    some ((bytes.take stop).drop first)
  else
    none

/- The byte at a position, which must be there. -/
def byte? (bytes : Bytes) (i : Nat) : Option UInt8 :=
  bytes[i]?

/- Zero bytes, if a buffer can have so many. -/
def zeros? (n : Nat) : Option Bytes :=
  if 2 * n < positionLimit then
    some (List.replicate n 0)
  else
    none

/-
  The bytes with zeros behind them up to a position, if they
  do not reach it and a buffer can.
-/
def grown? (bytes : Bytes) (stop : Nat) : Option Bytes :=
  if stop ≤ bytes.length then
    some bytes
  else if 2 * stop < positionLimit then
    some (bytes ++ List.replicate (stop - bytes.length) 0)
  else
    none

theorem slice?_of_le
    {bytes : Bytes}
    {first stop : Nat}
    (hFirst : first ≤ stop)
    (hStop : stop ≤ bytes.length) :
    bytes.slice? first stop =
      some ((bytes.take stop).drop first) :=
  if_pos ⟨hFirst, hStop⟩

theorem zeros?_of_lt
    {n : Nat}
    (hRoom : 2 * n < positionLimit) :
    zeros? n = some (List.replicate n 0) :=
  if_pos hRoom

theorem eq_of_zeros?
    {n : Nat}
    {bytes : Bytes}
    (hZeros : zeros? n = some bytes) :
    bytes = List.replicate n 0 := by
  unfold zeros? at hZeros
  split at hZeros
  · exact (Option.some.inj hZeros).symm
  · cases hZeros

end Bytes

namespace Position

/- A sum, which must be a position. -/
def sum? (a b : Nat) : Option Nat :=
  if a + b < positionLimit then some (a + b) else none

/- A difference, which must not be below zero. -/
def difference? (a b : Nat) : Option Nat :=
  if b ≤ a then some (a - b) else none

theorem sum?_of_lt
    {a b : Nat}
    (hLimit : a + b < positionLimit) :
    sum? a b = some (a + b) :=
  if_pos hLimit

theorem difference?_of_le
    {a b : Nat}
    (hLess : b ≤ a) :
    difference? a b = some (a - b) :=
  if_pos hLess

theorem eq_of_sum?
    {a b sum : Nat}
    (hSum : sum? a b = some sum) :
    sum = a + b := by
  unfold sum? at hSum
  split at hSum
  · exact (Option.some.inj hSum).symm
  · cases hSum

theorem eq_of_difference?
    {a b difference : Nat}
    (hDifference : difference? a b = some difference) :
    difference = a - b := by
  unfold difference? at hDifference
  split at hDifference
  · exact (Option.some.inj hDifference).symm
  · cases hDifference

/- What is found is gone on with. -/
theorem access_eq
    {α β : Type}
    {found : Option α}
    {a : α}
    {next : α → Option β}
    {outcome : Option β}
    (hFound : found = some a)
    (hNext : next a = outcome) :
    (found >>= next) = outcome := by
  rw [hFound]
  exact hNext

end Position

end BsonView

------------------------------------------------------------
-- Guarded Computations
------------------------------------------------------------

namespace BsonView

/-
  A computation with guarded accesses that may also fail. It
  has no outcome at all if an access is out of range.
-/
def Reaching (ε α : Type) : Type :=
  Option (Except ε α)

namespace Reaching

variable {ε α β : Type}

instance : Monad (Reaching ε) where
  pure a := some (.ok a)
  bind first next :=
    match first with
    | none => none
    | some (.error error) => some (.error error)
    | some (.ok a) => next a

/- An outcome that needs no access. -/
instance : MonadLift (Except ε) (Reaching ε) where
  monadLift outcome := some outcome

/- An access on its own does not fail. -/
instance : MonadLift Option (Reaching ε) where
  monadLift found := found.map .ok

/- Stop with a failure. -/
def fail (error : ε) : Reaching ε α :=
  some (.error error)

/- The computation with its failures changed. -/
def mapError
    {δ : Type}
    (change : ε → δ)
    (computation : Reaching ε α) : Reaching δ α :=
  Option.map (Except.mapError change) computation

/-
  The computation of a part behind `n` bytes, which count in
  its failures. How many bytes those count is a position.
-/
def after
    (n : Nat)
    (part : Reaching Failure α) : Reaching Failure α :=
  match part with
  | some (.error failure) => do
      let progress ← Position.sum? n failure.progress
      fail { failure with progress := progress }
  | answered => answered

/-
  All accesses are in range, and the outcome is what it is
  without the guards.
-/
def Keeps
    (computation : Reaching ε α)
    (outcome : Except ε α) : Prop :=
  computation = some outcome

theorem keeps_pure
    (a : α) :
    (pure a : Reaching ε α).Keeps (.ok a) :=
  rfl

theorem keeps_lift
    (outcome : Except ε α) :
    (liftM outcome : Reaching ε α).Keeps outcome :=
  rfl

/- What follows a part may rely on the part's answer. -/
theorem Keeps.bind
    {first : Reaching ε α}
    {outcome : Except ε α}
    {next : α → Reaching ε β}
    {after : α → Except ε β}
    (hFirst : first.Keeps outcome)
    (hNext :
      ∀ a, outcome = .ok a → (next a).Keeps (after a)) :
    (first >>= next).Keeps (outcome >>= after) := by
  cases hFirst
  cases outcome with
  | error error => rfl
  | ok a => exact hNext a rfl

theorem Keeps.mapError
    {δ : Type}
    {computation : Reaching ε α}
    {outcome : Except ε α}
    (hKeeps : computation.Keeps outcome)
    (change : ε → δ) :
    (computation.mapError change).Keeps
      (outcome.mapError change) :=
  congrArg (Option.map (Except.mapError change)) hKeeps

/- What depends on a decision does so in both. -/
theorem keeps_ite
    {c : Prop}
    [Decidable c]
    {computation other : Reaching ε α}
    {outcome alternative : Except ε α}
    (hThen : computation.Keeps outcome)
    (hElse : other.Keeps alternative) :
    (if c then computation else other).Keeps
      (if c then outcome else alternative) := by
  split
  · exact hThen
  · exact hElse

/- An access in range is nothing to the outcome. -/
theorem keeps_access
    {found : Option α}
    {a : α}
    {next : α → Reaching ε β}
    {outcome : Except ε β}
    (hFound : found = some a)
    (hNext : (next a).Keeps outcome) :
    ((liftM found : Reaching ε α) >>= next).Keeps
      outcome := by
  rw [hFound]
  exact hNext

/- What a part answers is gone on with. -/
theorem Keeps.bind_ok
    {first : Reaching ε α}
    {a : α}
    {next : α → Reaching ε β}
    {outcome : Except ε β}
    (hFirst : first.Keeps (.ok a))
    (hNext : (next a).Keeps outcome) :
    (first >>= next).Keeps outcome := by
  cases hFirst
  exact hNext

theorem keeps_sum
    {a b : Nat}
    (hLimit : a + b < positionLimit) :
    (liftM (Position.sum? a b) : Reaching ε Nat).Keeps
      (.ok (a + b)) := by
  rw [Position.sum?_of_lt hLimit]
  rfl

/- A part that succeeds does so behind other bytes. -/
theorem Keeps.after
    {part : Reaching Failure α}
    {a : α}
    (hKeeps : part.Keeps (.ok a))
    (n : Nat) :
    (part.after n).Keeps (.ok a) := by
  cases hKeeps
  rfl

/- An outcome, if there is one, is that without the guards. -/
def Refines
    (computation : Reaching ε α)
    (outcome : Except ε α) : Prop :=
  ∀ found, computation = some found → found = outcome

theorem Keeps.refines
    {computation : Reaching ε α}
    {outcome : Except ε α}
    (hKeeps : computation.Keeps outcome) :
    computation.Refines outcome := by
  intro found hFound
  exact Option.some.inj (hFound.symm.trans hKeeps)

/- What follows a part may rely on the part's answer. -/
theorem Refines.bind
    {first : Reaching ε α}
    {outcome : Except ε α}
    {next : α → Reaching ε β}
    {following : α → Except ε β}
    (hFirst : first.Refines outcome)
    (hNext : ∀ a, (next a).Refines (following a)) :
    (first >>= next).Refines (outcome >>= following) := by
  intro found hFound
  rcases first with _ | error | a
  · cases hFound
  · rw [← hFirst _ rfl]
    exact (Option.some.inj hFound).symm
  · rw [← hFirst _ rfl]
    exact hNext a found hFound

theorem Refines.mapError
    {δ : Type}
    {computation : Reaching ε α}
    {outcome : Except ε α}
    (hRefines : computation.Refines outcome)
    (change : ε → δ) :
    (computation.mapError change).Refines
      (outcome.mapError change) := by
  intro found hFound
  rcases Option.map_eq_some_iff.mp hFound with
    ⟨first, hFirst, rfl⟩
  rw [hRefines first hFirst]

/- What is found may be relied on. -/
theorem refines_access
    {found : Option α}
    {next : α → Reaching ε β}
    {outcome : Except ε β}
    (hNext :
      ∀ a, found = some a → (next a).Refines outcome) :
    ((liftM found : Reaching ε α) >>= next).Refines
      outcome := by
  cases found with
  | none =>
      intro other hOther
      cases hOther
  | some a => exact hNext a rfl

/- A sum that is a position is the sum. -/
theorem refines_sum
    (a b : Nat) :
    (liftM (Position.sum? a b) : Reaching ε Nat).Refines
      (.ok (a + b)) := by
  intro found hFound
  rcases Option.map_eq_some_iff.mp hFound with
    ⟨sum, hSum, rfl⟩
  rw [Position.eq_of_sum? hSum]

/- It is gone on with as the sum. -/
theorem refines_sum_bind
    {a b : Nat}
    {next : Nat → Reaching ε α}
    {outcome : Except ε α}
    (hNext : (next (a + b)).Refines outcome) :
    ((liftM (Position.sum? a b) : Reaching ε Nat) >>=
      next).Refines outcome := by
  apply refines_access
  intro sum hSum
  rw [Position.eq_of_sum? hSum]
  exact hNext

theorem refines_difference_bind
    {a b : Nat}
    {next : Nat → Reaching ε α}
    {outcome : Except ε α}
    (hNext : (next (a - b)).Refines outcome) :
    ((liftM (Position.difference? a b) : Reaching ε Nat) >>=
      next).Refines outcome := by
  apply refines_access
  intro difference hDifference
  rw [Position.eq_of_difference? hDifference]
  exact hNext

theorem Refines.after
    {part : Reaching Failure α}
    {outcome : Except Failure α}
    (hPart : part.Refines outcome)
    (n : Nat) :
    (part.after n).Refines
      (outcome.mapError (Failure.after n)) := by
  rcases part with _ | failure | a
  · intro found hFound
    cases hFound
  · rw [← hPart _ rfl]
    exact refines_sum_bind (keeps_lift _).refines
  · rw [← hPart _ rfl]
    exact (keeps_lift _).refines

end Reaching

end BsonView
