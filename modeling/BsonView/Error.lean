import BsonView.Tag
import BsonView.Text.Hex

/-
  What can go wrong, and how far things got before it did.

  An `Error` names a cause together with the numbers that
  its message shows. A `Failure` is an error with the count
  of bytes that had been accounted for when it arose: sizes
  summed by a validation, bytes placed by a write.

  Main declarations:
    * `Error`
    * `Error.message`
    * `Failure`
    * `Failure.message`
    * `Failure.after`
    * `bind_eq_ok`
    * `mapError_eq_ok`
    * `lift_eq_mapError`
-/

------------------------------------------------------------
-- Causes
------------------------------------------------------------

namespace BsonView

/- The causes of failure. -/
inductive Error
| custom (text : String)
| streamFull
| nilElement
| uninitializedValue
| invalidKey
| destinationTooSmall (needed available : Nat)
| invalidWriteTarget
| endOfFile
| invalidTag (byte : UInt8)
| invalidLength (declared : Int) (actual : Nat)
| missingTerminator
| invalidBoolean (byte : UInt8)
| maxDepthExceeded (maxDepth : Nat)
| typeMismatch (expected actual : Tag)
| invalidUtf8
deriving DecidableEq, Repr

namespace Error

/- The text shown for a cause. -/
def message : Error → String
| .custom text => text
| .streamFull => "failed to write whole buffer"
| .nilElement => "element is nil"
| .uninitializedValue => "value is uninitialized"
| .invalidKey =>
    "key has no null terminator within bounds"
| .destinationTooSmall needed available =>
    s!"destination too small: {needed} bytes needed, " ++
      s!"{available} available"
| .invalidWriteTarget => "invalid write target"
| .endOfFile => "unexpected end of input"
| .invalidTag b =>
    "invalid BSON element type: 0x" ++ Hex.pair b
| .invalidLength declared actual =>
    s!"length prefix mismatch: declared {declared}, " ++
      s!"actual {actual}"
| .missingTerminator => "missing null terminator"
| .invalidBoolean b =>
    "invalid boolean byte: 0x" ++ Hex.pair b
| .maxDepthExceeded maxDepth =>
    s!"maximum nesting depth {maxDepth} exceeded"
| .typeMismatch expected actual =>
    "type mismatch: expected " ++ expected.name ++
      ", got " ++ actual.name
| .invalidUtf8 => "invalid UTF-8"

end Error

end BsonView

------------------------------------------------------------
-- Causes With Progress
------------------------------------------------------------

namespace BsonView

/-
  An error and the number of bytes accounted for before it.
-/
structure Failure where
  progress : Nat
  error : Error
deriving DecidableEq, Repr

/- An error that arose after `n` bytes. -/
def Error.after
    (n : Nat)
    (error : Error) : Failure :=
  ⟨n, error⟩

namespace Failure

/- A failure of a part that began after `n` bytes. -/
def after
    (n : Nat)
    (failure : Failure) : Failure :=
  { failure with progress := n + failure.progress }

/- The text shown for a failure. -/
def message (failure : Failure) : String :=
  failure.error.message ++
    s!" (after {failure.progress} bytes)"

@[simp] theorem after_zero
    (failure : Failure) :
    failure.after 0 = failure := by
  simp [after]

theorem after_after
    (m n : Nat)
    (failure : Failure) :
    (failure.after n).after m =
      failure.after (m + n) := by
  simp [after, Nat.add_assoc]

end Failure

/- An error without progress is a failure at the start. -/
instance : MonadLift (Except Error) (Except Failure) where
  monadLift outcome :=
    outcome.mapError (Error.after 0)

end BsonView

------------------------------------------------------------
-- Outcomes
------------------------------------------------------------

namespace BsonView

/-
  A sequence succeeds when its first part does and what
  follows succeeds with the answer of the first.
-/
theorem bind_eq_ok
    {ε α β : Type}
    {first : Except ε α}
    {next : α → Except ε β}
    {b : β} :
    first >>= next = .ok b ↔
      ∃ a, first = .ok a ∧ next a = .ok b := by
  cases first with
  | error e =>
      constructor
      · intro hBind
        cases hBind
      · intro hExists
        rcases hExists with ⟨a, hFirst, _⟩
        cases hFirst
  | ok a =>
      constructor
      · intro hBind
        exact ⟨a, rfl, hBind⟩
      · intro hExists
        rcases hExists with ⟨a', hFirst, hNext⟩
        cases hFirst
        exact hNext

section

variable {ε ε' α β : Type}

/- What follows a success works on its answer. -/
@[simp] theorem ok_bind
    (a : α)
    (next : α → Except ε β) :
    Except.ok a >>= next = next a := rfl

/- Nothing follows a failure. -/
@[simp] theorem error_bind
    (e : ε)
    (next : α → Except ε β) :
    Except.error e >>= next = .error e := rfl

@[simp] theorem mapError_ok
    (change : ε → ε')
    (a : α) :
    (Except.ok a).mapError change = .ok a := rfl

@[simp] theorem mapError_error
    (change : ε → ε')
    (e : ε) :
    (Except.error e : Except ε α).mapError change =
      .error (change e) := rfl

/- Changing its error makes nothing succeed. -/
@[simp] theorem mapError_eq_ok
    {change : ε → ε'}
    {outcome : Except ε α}
    {a : α} :
    outcome.mapError change = .ok a ↔ outcome = .ok a := by
  cases outcome <;> simp

theorem mapError_eq_error
    {change : ε → ε'}
    {outcome : Except ε α}
    {e : ε'} :
    outcome.mapError change = .error e ↔
      ∃ cause, outcome = .error cause ∧ change cause = e := by
  cases outcome <;> simp

/-
  A sequence fails when its first part does or when what
  follows fails with the answer of the first.
-/
theorem bind_eq_error
    {first : Except ε α}
    {next : α → Except ε β}
    {e : ε} :
    first >>= next = .error e ↔
      first = .error e ∨
        ∃ a, first = .ok a ∧ next a = .error e := by
  cases first <;> simp

/- Lifting an outcome gives its error no progress. -/
theorem lift_eq_mapError
    (outcome : Except Error α) :
    (liftM outcome : Except Failure α) =
      outcome.mapError (Error.after 0) := rfl

end

end BsonView
