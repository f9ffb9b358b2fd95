import BsonView.Access
import BsonView.Proofs.Reading.Measures
import BsonView.Proofs.Validation.Faults

/-
  What reading can fail with.

  Measuring, splitting and validating bytes fail with what
  is found wrong in them, never with a remark on the views
  that they are reached through.

  Main declarations:
    * `FailsOnly`
    * `FailsOnly.bind`
    * `Error.Found`
    * `Framing.payloadLength_failsOnly`
    * `Document.readFrom_failsOnly`
    * `Validation.Plain.payload_failsOnly`
-/

------------------------------------------------------------
-- Outcomes
------------------------------------------------------------

namespace BsonView

/- The outcome is an answer or an `Allowed` error. -/
def FailsOnly
    {ε α : Type}
    (Allowed : ε → Prop)
    (outcome : Except ε α) : Prop :=
  ∀ error, outcome = .error error → Allowed error

section

variable
  {ε ε' α β : Type}
  {Allowed Other : ε → Prop}

/- An answer is no failure. -/
theorem failsOnly_ok
    (a : α) :
    FailsOnly Allowed (.ok a) := by
  intro error hError
  cases hError

theorem failsOnly_error
    {error : ε}
    (hAllowed : Allowed error) :
    FailsOnly Allowed (.error error : Except ε α) := by
  intro found hFound
  cases hFound
  exact hAllowed

/- A sequence fails as one of its parts does. -/
theorem FailsOnly.bind
    {first : Except ε α}
    {next : α → Except ε β}
    (hFirst : FailsOnly Allowed first)
    (hNext :
      ∀ a, first = .ok a → FailsOnly Allowed (next a)) :
    FailsOnly Allowed (first >>= next) := by
  intro error hError
  rcases bind_eq_error.mp hError with
    hFails | ⟨a, hAnswer, hFails⟩
  · exact hFirst error hFails
  · exact hNext a hAnswer error hFails

/- A change of errors is allowed where its results are. -/
theorem FailsOnly.mapError
    {change : ε' → ε}
    {outcome : Except ε' α}
    (hOutcome :
      FailsOnly (fun error => Allowed (change error))
        outcome) :
    FailsOnly Allowed (outcome.mapError change) := by
  intro error hError
  rcases mapError_eq_error.mp hError with
    ⟨cause, hCause, rfl⟩
  exact hOutcome cause hCause

theorem FailsOnly.weaken
    {outcome : Except ε α}
    (hOutcome : FailsOnly Allowed outcome)
    (hWeaker : ∀ error, Allowed error → Other error) :
    FailsOnly Other outcome :=
  fun error hError => hWeaker error (hOutcome error hError)

end

end BsonView

------------------------------------------------------------
-- Framing
------------------------------------------------------------

namespace BsonView

/- The causes of failure that are found in bytes. -/
def Error.Found : Error → Prop
| .invalidKey => True
| .endOfFile => True
| .invalidTag _ => True
| .invalidLength _ _ => True
| .missingTerminator => True
| .invalidBoolean _ => True
| .maxDepthExceeded _ => True
| _ => False

variable (bytes : Bytes)

theorem Word.readLength_failsOnly :
    FailsOnly Error.Found (readLength bytes) := by
  intro error hError
  rcases readLength_eq_error hError with
    rfl | ⟨_, _, rfl⟩
  · trivial
  · trivial

theorem Word.readInt32_failsOnly :
    FailsOnly Error.Found (readInt32 bytes) := by
  unfold readInt32 readUInt32 front
  split
  · exact failsOnly_ok _
  · exact failsOnly_error trivial

theorem Bytes.cstringLength_failsOnly :
    FailsOnly Error.Found (cstringLength bytes) := by
  unfold cstringLength
  split
  · exact failsOnly_ok _
  · exact failsOnly_error trivial

namespace Framing

theorem tag_failsOnly
    (b : UInt8) :
    FailsOnly Error.Found (Framing.tag b) := by
  unfold Framing.tag
  split
  · exact failsOnly_ok _
  · exact failsOnly_error trivial

theorem claim_failsOnly
    (length : Nat) :
    FailsOnly Error.Found (claim length bytes) := by
  unfold claim
  split
  · exact failsOnly_ok _
  · exact failsOnly_error trivial

theorem stringLength_failsOnly :
    FailsOnly Error.Found (stringLength bytes) := by
  refine (Word.readLength_failsOnly bytes).bind ?_
  intro length _
  dsimp only
  split
  · exact failsOnly_error trivial
  · refine (claim_failsOnly bytes _).bind ?_
    intro total _
    split
    · exact failsOnly_error trivial
    · exact failsOnly_ok _

theorem documentLength_failsOnly :
    FailsOnly Error.Found (documentLength bytes) := by
  intro error hError
  rcases documentLength_eq_error hError with
    rfl | ⟨_, _, rfl⟩
  · trivial
  · trivial

/- No payload is measured without a cause in its bytes. -/
theorem payloadLength_failsOnly
    (tag : Tag) :
    FailsOnly Error.Found (payloadLength tag bytes) := by
  cases tag with
  | string | javaScript | symbol =>
      exact stringLength_failsOnly bytes
  | embeddedDocument | array =>
      exact documentLength_failsOnly bytes
  | binary =>
      refine (Word.readLength_failsOnly bytes).bind ?_
      exact fun length _ => claim_failsOnly bytes _
  | regex =>
      refine (Bytes.cstringLength_failsOnly bytes).bind ?_
      intro pattern _
      refine (Bytes.cstringLength_failsOnly _).bind ?_
      exact fun options _ => failsOnly_ok _
  | dbPointer =>
      refine (stringLength_failsOnly bytes).bind ?_
      exact fun name _ => claim_failsOnly bytes _
  | codeWithScope =>
      refine (claim_failsOnly bytes 4).bind ?_
      intro header _
      refine (stringLength_failsOnly _).bind ?_
      intro code _
      refine (documentLength_failsOnly _).bind ?_
      exact fun scope _ => failsOnly_ok _
  | _ => exact claim_failsOnly bytes _

/- No scalar is checked without a cause in its bytes. -/
theorem scalarLength_failsOnly
    (tag : Tag) :
    FailsOnly Error.Found (scalarLength tag bytes) := by
  by_cases hTag : tag = .boolean
  · rw [hTag, scalarLength.eq_def]
    dsimp only
    split
    · exact failsOnly_error trivial
    · split
      · exact failsOnly_ok _
      · exact failsOnly_error trivial
  · rw [scalarLength_of_ne_boolean hTag]
    exact payloadLength_failsOnly bytes tag

end Framing

end BsonView

------------------------------------------------------------
-- Splitting
------------------------------------------------------------

namespace BsonView

theorem Span.split_failsOnly
    (bytes : Bytes)
    (pos : Nat) :
    FailsOnly Error.Found (split bytes pos) := by
  fun_induction split bytes pos with
  | case1 => exact failsOnly_error trivial
  | case2 => exact failsOnly_ok _
  | case3 pos b rest hNull ih =>
      refine (Framing.tag_failsOnly b).bind ?_
      intro tag _
      refine FailsOnly.bind ?_ ?_
      · exact FailsOnly.mapError fun _ _ => trivial
      intro key _
      refine (Framing.payloadLength_failsOnly _ _).bind ?_
      intro length _
      refine (ih key length).bind ?_
      exact fun found _ => failsOnly_ok _

theorem Document.readFrom_failsOnly
    (buffer : Bytes)
    (offset : Nat) :
    FailsOnly Error.Found (readFrom buffer offset) := by
  refine FailsOnly.bind ?_ fun spans _ => failsOnly_ok _
  refine (Word.readLength_failsOnly _).bind ?_
  intro length _
  dsimp only
  split
  · exact failsOnly_error trivial
  · refine (Span.split_failsOnly _ _).bind ?_
    intro found _
    split
    · exact failsOnly_error trivial
    · exact failsOnly_ok _

theorem ArrayDoc.readFrom_failsOnly
    (buffer : Bytes)
    (offset : Nat) :
    FailsOnly Error.Found (readFrom buffer offset) :=
  (Document.readFrom_failsOnly buffer offset).bind
    fun _ _ => failsOnly_ok _

theorem Place.scopeOffset_failsOnly
    (place : Place) :
    FailsOnly Error.Found place.scopeOffset :=
  (Word.readLength_failsOnly _).bind
    fun _ _ => failsOnly_ok _

theorem Place.readScope_failsOnly
    (place : Place) :
    FailsOnly Error.Found place.readScope :=
  place.scopeOffset_failsOnly.bind
    fun _ _ => Document.readFrom_failsOnly _ _

end BsonView

------------------------------------------------------------
-- Validation
------------------------------------------------------------

namespace BsonView

namespace Validation

/- What is wrong with a component is found in its bytes. -/
theorem Component.found_of_check
    {limits : Limits}
    {component : Component}
    {error : Error}
    (hCheck : component.check limits = some error) :
    error.Found := by
  cases component with
  | document depth bytes =>
      simp only [check] at hCheck
      split at hCheck
      · cases hCheck
        trivial
      · exact
          Framing.documentLength_failsOnly bytes error
            (error?_eq_some.mp hCheck)
  | elements depth length total bytes =>
      cases bytes with
      | nil =>
          cases hCheck
          trivial
      | cons b rest =>
          simp only [check] at hCheck
          split at hCheck
          · cases hCheck
          split at hCheck
          next hTag =>
            cases hCheck
            exact Framing.tag_failsOnly b error hTag
          · cases hCheck
            trivial
          · cases hCheck
  | payload depth tag bytes =>
      simp only [check] at hCheck
      split at hCheck
      · cases hCheck
      split at hCheck
      · exact
          Word.readInt32_failsOnly bytes error
            (error?_eq_some.mp hCheck)
      · exact
          Framing.scalarLength_failsOnly bytes tag error
            (error?_eq_some.mp hCheck)
  | code bytes =>
      exact
        Framing.stringLength_failsOnly bytes error
          (error?_eq_some.mp hCheck)
  | trailing length total bytes =>
      cases hCheck
      trivial

/- A payload fails with what is wrong with a part of it. -/
theorem Plain.payload_failsOnly
    (limits : Limits)
    (depth : Nat)
    (tag : Tag)
    (bytes : Bytes) :
    FailsOnly (fun failure => failure.error.Found)
      (payload limits depth tag bytes) := by
  rintro ⟨progress, error⟩ hError
  have hFails :
      (Component.payload depth tag bytes).Fails limits
        progress error := hError
  rcases Component.fails_iff.mp hFails with
    ⟨part, _, hCheck⟩
  exact Component.found_of_check hCheck

end Validation

end BsonView
