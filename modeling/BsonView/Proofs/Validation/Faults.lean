import BsonView.Proofs.Validation.Walk
import Mathlib.Data.List.Infix

/-
  Where a validation fails.

  A document is checked component by component: its depth
  and length, the type byte and key of an element, the
  payload, the code string or the document in it, and the
  end. A component is reached when everything before it is
  valid. The progress of a failure is the distance from the
  start of the document to the first component at fault.

  Main declarations:
    * `Validation.Component`
    * `Validation.Component.check`
    * `Validation.Component.Part`
    * `Validation.Component.Reaches`
    * `Validation.document_follows_recursion`
-/

------------------------------------------------------------
-- Components
------------------------------------------------------------

namespace BsonView

namespace Validation

/-
  What a check is made on, with the bytes it begins at. A
  document has `depth` others around it. What is left of a
  document's body has `total` of the document's bytes before
  it, of which the document declares `length`; so have the
  bytes that trail its terminator.
-/
inductive Component
| document (depth : Nat) (bytes : Bytes)
| elements (depth length total : Nat) (bytes : Bytes)
| payload (depth : Nat) (tag : Tag) (bytes : Bytes)
| code (bytes : Bytes)
| trailing (length total : Nat) (bytes : Bytes)

namespace Component

/- The bytes that the component begins at. -/
def bytes : Component → Bytes
| .document _ bytes => bytes
| .elements _ _ _ bytes => bytes
| .payload _ _ bytes => bytes
| .code bytes => bytes
| .trailing _ _ bytes => bytes

/- The error of an outcome, if it is one. -/
def error? {α : Type} : Except Error α → Option Error
| .ok _ => none
| .error error => some error

/-
  What is wrong with a component itself, apart from the
  components inside it.
-/
def check
    (limits : Limits) :
    Component → Option Error
| .document depth bytes =>
    if limits.maxDepth < depth then
      some (.maxDepthExceeded limits.maxDepth)
    else
      error? (Framing.documentLength bytes)
| .elements _ _ _ [] => some .missingTerminator
| .elements _ _ _ (b :: rest) =>
    if b = 0 then
      none
    else
      match Framing.tag b, Bytes.cstringLength rest with
      | .error error, _ => some error
      | .ok _, .error _ => some .invalidKey
      | .ok _, .ok _ => none
| .payload _ tag bytes =>
    if tag.isContainer then
      none
    else if tag = .codeWithScope then
      error? (Word.readInt32 bytes)
    else
      error? (Framing.scalarLength tag bytes)
| .code bytes => error? (Framing.stringLength bytes)
| .trailing length total _ =>
    some (.invalidLength length total)

/-
  A component is checked as part of another, at a distance
  from where that begins, once what comes before it in the
  other is found valid.
-/
inductive Part
    (limits : Limits) :
    Component → Nat → Component → Prop
| body
    {depth length : Nat}
    {bytes : Bytes}
    (hDepth : depth ≤ limits.maxDepth)
    (hLength : Framing.documentLength bytes = .ok length) :
    Part limits (.document depth bytes) 4
      (.elements depth length 4
        ((bytes.take length).drop 4))
| payload
    {depth length total key : Nat}
    {b : UInt8}
    {rest : Bytes}
    {tag : Tag}
    (hNull : b ≠ 0)
    (hTag : Framing.tag b = .ok tag)
    (hKey : Bytes.cstringLength rest = .ok key) :
    Part limits (.elements depth length total (b :: rest))
      (1 + key + 1)
      (.payload depth tag (rest.drop (key + 1)))
| rest
    {depth length total key size : Nat}
    {b : UInt8}
    {rest : Bytes}
    {tag : Tag}
    (hNull : b ≠ 0)
    (hTag : Framing.tag b = .ok tag)
    (hKey : Bytes.cstringLength rest = .ok key)
    (hSize :
      Plain.payload limits depth tag
        (rest.drop (key + 1)) = .ok size) :
    Part limits (.elements depth length total (b :: rest))
      (1 + key + 1 + size)
      (.elements depth length
        (total + (1 + key + 1 + size))
        (rest.drop (key + 1 + size)))
| trailing
    {depth length total : Nat}
    {rest : Bytes}
    (hMore : rest ≠ []) :
    Part limits (.elements depth length total (0 :: rest))
      1 (.trailing length (total + 1) rest)
| container
    {depth : Nat}
    {tag : Tag}
    {bytes : Bytes}
    (hKind : tag.isContainer = true) :
    Part limits (.payload depth tag bytes) 0
      (.document (depth + 1) bytes)
| code
    {depth : Nat}
    {outer : Int32}
    {bytes : Bytes}
    (hOuter : Word.readInt32 bytes = .ok outer) :
    Part limits (.payload depth .codeWithScope bytes) 4
      (.code (bytes.drop 4))
| scope
    {depth code : Nat}
    {outer : Int32}
    {bytes : Bytes}
    (hOuter : Word.readInt32 bytes = .ok outer)
    (hCode :
      Framing.stringLength (bytes.drop 4) = .ok code) :
    Part limits (.payload depth .codeWithScope bytes)
      (4 + code)
      (.document (depth + 1) (bytes.drop (4 + code)))

/- A component is reached at a distance from another. -/
inductive Reaches
    (limits : Limits) :
    Component → Nat → Component → Prop
| self
    (component : Component) :
    Reaches limits component 0 component
| inside
    {component part found : Component}
    {distance further : Nat}
    (hPart : Part limits component distance part)
    (hReaches : Reaches limits part further found) :
    Reaches limits component (distance + further) found

end Component

end Validation

end BsonView

------------------------------------------------------------
-- Distances
------------------------------------------------------------

namespace BsonView

namespace Validation

namespace Component

variable {limits : Limits}

/- A part stands at its distance in the bytes. -/
theorem Part.prefix_bytes
    {component part : Component}
    {distance : Nat}
    (hPart : Part limits component distance part) :
    part.bytes <+: component.bytes.drop distance := by
  cases hPart with
  | body hDepth hLength =>
      simp only [Component.bytes, List.drop_take]
      exact List.take_prefix _ _
  | @payload _ _ _ key b rest _ hNull hTag hKey =>
      have hDrop :
          (b :: rest).drop (1 + key + 1) =
            rest.drop (key + 1) :=
        Bytes.drop_header b rest key 0
      simp only [Component.bytes]
      rw [hDrop]
  | @rest _ _ _ key size b rest _ hNull hTag hKey hSize =>
      simp only [Component.bytes]
      rw [Bytes.drop_header]
  | trailing hMore => exact List.prefix_rfl
  | container hKind => exact List.prefix_rfl
  | code hOuter => exact List.prefix_rfl
  | scope hOuter hCode => exact List.prefix_rfl

/- What is reached stands at its distance in the bytes. -/
theorem Reaches.prefix_bytes
    {component found : Component}
    {distance : Nat}
    (hReaches : Reaches limits component distance found) :
    found.bytes <+: component.bytes.drop distance := by
  induction hReaches with
  | self component => exact List.prefix_rfl
  | inside hPart hReaches ih =>
      rw [← List.drop_drop]
      exact ih.trans (hPart.prefix_bytes.drop _)

end Component

end Validation

end BsonView

------------------------------------------------------------
-- Failures
------------------------------------------------------------

namespace BsonView

namespace Validation

namespace Component

variable {limits : Limits}

/-
  The plain recursion fails in a component, at a distance
  from where that begins.
-/
def Fails
    (limits : Limits) :
    Component → Nat → Error → Prop
| .document depth bytes, progress, error =>
    Plain.document limits depth bytes =
      .error ⟨progress, error⟩
| .elements depth length total bytes, progress, error =>
    Plain.elements limits depth length total bytes =
      .error ⟨total + progress, error⟩
| .payload depth tag bytes, progress, error =>
    Plain.payload limits depth tag bytes =
      .error ⟨progress, error⟩
| .code bytes, progress, error =>
    progress = 0 ∧
      Framing.stringLength bytes = .error error
| .trailing length total _, progress, error =>
    progress = 0 ∧ error = .invalidLength length total

theorem error?_eq_some
    {α : Type}
    {outcome : Except Error α}
    {error : Error} :
    error? outcome = some error ↔ outcome = .error error := by
  cases outcome <;> simp [error?]

theorem check_payload_of_isScalar
    {tag : Tag}
    (hScalar : tag.isScalar = true)
    (depth : Nat)
    (bytes : Bytes) :
    check limits (.payload depth tag bytes) =
      error? (Framing.scalarLength tag bytes) := by
  have hContainer := Tag.isContainer_of_isScalar hScalar
  have hCode := Tag.ne_codeWithScope_of_isScalar hScalar
  simp [check, hContainer, hCode]

/- A component fails where one of its parts does. -/
theorem Part.fails
    {component part : Component}
    {distance progress : Nat}
    {error : Error}
    (hPart : Part limits component distance part)
    (hFails : part.Fails limits progress error) :
    component.Fails limits (distance + progress) error := by
  cases hPart with
  | body hDepth hLength =>
      simp only [Fails] at hFails ⊢
      rw [Plain.document, Limits.checkDepth,
        if_neg (Nat.not_lt.mpr hDepth), hLength]
      exact hFails
  | @payload _ _ total _ _ _ _ hNull hTag hKey =>
      simp only [Fails] at hFails ⊢
      rw [Plain.elements, if_neg hNull, hTag, hKey]
      simp only [mapError_ok, ok_bind, hFails,
        mapError_error, error_bind, Failure.after,
        Nat.add_assoc]
  | @rest _ _ total _ _ _ _ _ hNull hTag hKey hSize =>
      simp only [Fails] at hFails ⊢
      rw [Plain.elements, if_neg hNull, hTag, hKey]
      simp only [mapError_ok, ok_bind, hSize]
      rw [Nat.add_assoc total] at hFails
      exact hFails
  | trailing hMore =>
      rcases hFails with ⟨rfl, rfl⟩
      simp only [Fails]
      rw [Plain.elements, if_pos rfl, if_neg hMore]
      rfl
  | container hKind =>
      simp only [Fails] at hFails ⊢
      rw [Plain.payload_of_isContainer hKind, hFails,
        Nat.zero_add]
  | code hOuter =>
      rcases hFails with ⟨rfl, hCode⟩
      simp only [Fails]
      rw [Plain.payload, hOuter, hCode]
      rfl
  | scope hOuter hCode =>
      simp only [Fails] at hFails ⊢
      rw [Plain.payload, hOuter, hCode]
      simp only [lift_eq_mapError, mapError_ok, ok_bind,
        hFails]
      rfl

/- A component that is wrong itself fails at its front. -/
theorem fails_of_check
    {component : Component}
    {error : Error}
    (hCheck : component.check limits = some error) :
    component.Fails limits 0 error := by
  cases component with
  | document depth bytes =>
      simp only [check] at hCheck
      simp only [Fails]
      rw [Plain.document, Limits.checkDepth]
      by_cases hDepth : limits.maxDepth < depth
      · rw [if_pos hDepth] at hCheck ⊢
        cases hCheck
        rfl
      · rw [if_neg hDepth] at hCheck ⊢
        rw [error?_eq_some.mp hCheck]
        rfl
  | elements depth length total bytes =>
      simp only [Fails]
      cases bytes with
      | nil =>
          cases hCheck
          rw [Plain.elements]
          rfl
      | cons b rest =>
          rw [Plain.elements]
          simp only [check] at hCheck
          by_cases hNull : b = 0
          · rw [if_pos hNull] at hCheck
            cases hCheck
          rw [if_neg hNull] at hCheck
          simp only [if_neg hNull]
          split at hCheck
          next hTag =>
            cases hCheck
            rw [hTag]
            rfl
          next hTag hKey =>
            cases hCheck
            rw [hTag, hKey]
            rfl
          · cases hCheck
  | payload depth tag bytes =>
      simp only [Fails]
      rcases tag.kinds with hContainer | rfl | hScalar
      · simp only [check, if_pos hContainer] at hCheck
        cases hCheck
      · have hOuter := error?_eq_some.mp hCheck
        rw [Plain.payload, hOuter]
        rfl
      · rw [check_payload_of_isScalar hScalar] at hCheck
        rw [Plain.payload_of_isScalar hScalar,
          error?_eq_some.mp hCheck]
        rfl
  | code bytes => exact ⟨rfl, error?_eq_some.mp hCheck⟩
  | trailing length total bytes =>
      cases hCheck
      exact ⟨rfl, rfl⟩

/- Elements fail at the first of them or after it. -/
theorem elements_cause
    {depth length total progress : Nat}
    {b : UInt8}
    {rest : Bytes}
    {error : Error}
    (hFails :
      Plain.elements limits depth length total (b :: rest) =
        .error ⟨total + progress, error⟩) :
    (progress = 0 ∧
        (elements depth length total
          (b :: rest)).check limits = some error) ∨
      ∃ distance further part,
        progress = distance + further ∧
          Part limits
            (.elements depth length total (b :: rest))
            distance part ∧
          part.Fails limits further error := by
  rcases Plain.elements_cons_eq_error hFails with
    ⟨rfl, hMore, hSame⟩ | ⟨hNull, cause, hTag, hSame⟩ |
      ⟨hNull, tag, cause, hTag, hKey, hSame⟩ |
      ⟨hNull, tag, key, cause, hTag, hKey, hSize, hSame⟩ |
      ⟨hNull, tag, key, size, hTag, hKey, hSize, hMore⟩
  · rcases Failure.mk.inj hSame with ⟨hTotal, rfl⟩
    exact .inr
      ⟨1, 0, _, by omega, .trailing hMore, rfl, rfl⟩
  · rcases Failure.mk.inj hSame with ⟨hTotal, rfl⟩
    refine .inl ⟨by omega, ?_⟩
    simp only [check, if_neg hNull, hTag]
  · rcases Failure.mk.inj hSame with ⟨hTotal, rfl⟩
    refine .inl ⟨by omega, ?_⟩
    simp only [check, if_neg hNull, hTag, hKey]
  · rcases Failure.mk.inj hSame with ⟨hTotal, rfl⟩
    exact .inr
      ⟨1 + key + 1, cause.progress, _, by omega,
        .payload hNull hTag hKey, hSize⟩
  · have hLeast :
        total + (1 + key + 1 + size) ≤ total + progress :=
      Plain.le_progress_of_elements hMore
    refine .inr
      ⟨1 + key + 1 + size, progress - (1 + key + 1 + size),
        _, by omega, .rest hNull hTag hKey hSize, ?_⟩
    have hSame :
        total + (1 + key + 1 + size) +
            (progress - (1 + key + 1 + size)) =
          total + progress := by omega
    simp only [Fails]
    rw [hSame]
    exact hMore

/- A payload fails at its front or in a part of it. -/
theorem payload_cause
    {depth progress : Nat}
    {tag : Tag}
    {bytes : Bytes}
    {error : Error}
    (hFails :
      Plain.payload limits depth tag bytes =
        .error ⟨progress, error⟩) :
    (progress = 0 ∧
        (payload depth tag bytes).check limits =
          some error) ∨
      ∃ distance further part,
        progress = distance + further ∧
          Part limits (.payload depth tag bytes)
            distance part ∧
          part.Fails limits further error := by
  rcases tag.kinds with hContainer | rfl | hScalar
  · rw [Plain.payload_of_isContainer hContainer] at hFails
    exact .inr
      ⟨0, progress, _, by omega, .container hContainer,
        hFails⟩
  · rw [Plain.payload] at hFails
    cases hOuter : Word.readInt32 bytes with
    | error cause =>
        rw [hOuter] at hFails
        cases hFails
        refine .inl ⟨rfl, ?_⟩
        simp [check, Tag.isContainer, hOuter, error?]
    | ok outer =>
    cases hCode : Framing.stringLength (bytes.drop 4) with
    | error cause =>
        rw [hOuter, hCode] at hFails
        cases hFails
        exact .inr
          ⟨4, 0, _, rfl, .code hOuter, rfl, hCode⟩
    | ok code =>
    rw [hOuter, hCode] at hFails
    cases hScope :
        Plain.document limits (depth + 1)
          (bytes.drop (4 + code)) with
    | ok scope =>
        simp only [lift_eq_mapError, mapError_ok, ok_bind,
          hScope] at hFails
        cases hFails
    | error cause =>
        simp only [lift_eq_mapError, mapError_ok, ok_bind,
          hScope] at hFails
        cases hFails
        exact .inr
          ⟨4 + code, cause.progress, _, rfl,
            .scope hOuter hCode, hScope⟩
  · rw [Plain.payload_of_isScalar hScalar] at hFails
    rcases mapError_eq_error.mp hFails with
      ⟨cause, hLength, hSame⟩
    cases hSame
    refine .inl ⟨rfl, ?_⟩
    rw [check_payload_of_isScalar hScalar, hLength]
    rfl

/-
  A component that fails is wrong itself, or the failure is
  one of a part of it.
-/
theorem Fails.cause
    {component : Component}
    {progress : Nat}
    {error : Error}
    (hFails : component.Fails limits progress error) :
    (progress = 0 ∧
        component.check limits = some error) ∨
      ∃ distance further part,
        progress = distance + further ∧
          Part limits component distance part ∧
          part.Fails limits further error := by
  cases component with
  | document depth bytes =>
      simp only [Fails] at hFails
      rw [Plain.document, Limits.checkDepth] at hFails
      by_cases hDepth : limits.maxDepth < depth
      · rw [if_pos hDepth] at hFails
        cases hFails
        exact .inl ⟨rfl, if_pos hDepth⟩
      rw [if_neg hDepth] at hFails
      cases hLength : Framing.documentLength bytes with
      | error cause =>
          rw [hLength] at hFails
          cases hFails
          refine .inl ⟨rfl, ?_⟩
          simp only [check, if_neg hDepth, hLength, error?]
      | ok length =>
          rw [hLength] at hFails
          have hBody :
              Plain.elements limits depth length 4
                  ((bytes.take length).drop 4) =
                .error ⟨progress, error⟩ := hFails
          have hLeast : 4 ≤ progress :=
            Plain.le_progress_of_elements hBody
          refine .inr
            ⟨4, progress - 4, _, by omega,
              .body (Nat.le_of_not_lt hDepth) hLength, ?_⟩
          simp only [Fails]
          rw [Nat.add_sub_cancel' hLeast]
          exact hBody
  | elements depth length total bytes =>
      simp only [Fails] at hFails
      cases bytes with
      | nil =>
          rw [Plain.elements] at hFails
          rcases Failure.mk.inj (Except.error.inj hFails) with
            ⟨hTotal, rfl⟩
          exact .inl ⟨by omega, rfl⟩
      | cons b rest =>
          exact elements_cause hFails
  | payload depth tag bytes => exact payload_cause hFails
  | code bytes =>
      rcases hFails with ⟨rfl, hCode⟩
      exact .inl ⟨rfl, error?_eq_some.mpr hCode⟩
  | trailing length total bytes =>
      rcases hFails with ⟨rfl, rfl⟩
      exact .inl ⟨rfl, rfl⟩

end Component

end Validation

end BsonView

------------------------------------------------------------
-- The First Fault
------------------------------------------------------------

namespace BsonView

namespace Validation

namespace Component

variable {limits : Limits}

/- The parts of a component are smaller than itself. -/
def size : Component → Nat
| .document _ bytes => 3 * bytes.length + 1
| .elements _ _ _ bytes => 3 * bytes.length
| .payload _ _ bytes => 3 * bytes.length + 2
| .code _ => 0
| .trailing _ _ _ => 0

theorem Part.size_lt
    {component part : Component}
    {distance : Nat}
    (hPart : Part limits component distance part) :
    part.size < component.size := by
  cases hPart <;>
    simp only [size, List.length_drop, List.length_take,
      List.length_cons] <;>
    omega

/-
  A component fails with what is wrong with a component that
  is reached in it, and at the distance of that one.
-/
theorem fails_iff
    {component : Component}
    {progress : Nat}
    {error : Error} :
    component.Fails limits progress error ↔
      ∃ part, Reaches limits component progress part ∧
        part.check limits = some error := by
  constructor
  · intro hFails
    induction hSize : component.size using Nat.strongRecOn
      generalizing component progress with
    | ind m ih =>
        rcases hFails.cause with
          ⟨rfl, hCheck⟩ |
            ⟨distance, further, part, rfl, hPart, hFails⟩
        · exact ⟨component, .self component, hCheck⟩
        · rcases ih part.size (hSize ▸ hPart.size_lt)
              hFails rfl with
            ⟨found, hReaches, hCheck⟩
          exact ⟨found, .inside hPart hReaches, hCheck⟩
  · intro hExists
    rcases hExists with ⟨part, hReaches, hCheck⟩
    induction hReaches with
    | self component => exact fails_of_check hCheck
    | inside hPart _ ih => exact hPart.fails (ih hCheck)

end Component

/- A document fails where the first fault in it is. -/
theorem Plain.document_eq_error
    {limits : Limits}
    {depth progress : Nat}
    {bytes : Bytes}
    {error : Error} :
    Plain.document limits depth bytes =
        .error ⟨progress, error⟩ ↔
      ∃ part,
        Component.Reaches limits (.document depth bytes)
            progress part ∧
          part.check limits = some error :=
  @Component.fails_iff limits (.document depth bytes)
    progress error

/-
  No terminator is found missing where the outermost
  document begins: its length field comes before.
-/
theorem Plain.document_ne_missingTerminator
    (limits : Limits)
    (depth : Nat)
    (bytes : Bytes) :
    Plain.document limits depth bytes ≠
      .error (Error.missingTerminator.after 0) := by
  intro hFails
  have hFails :
      (Component.document depth bytes).Fails limits 0
        .missingTerminator := hFails
  rcases hFails.cause with
    ⟨_, hCheck⟩ | ⟨distance, further, part, hZero, hPart, _⟩
  · simp only [Component.check] at hCheck
    split at hCheck
    · cases hCheck
    · rcases Framing.documentLength_eq_error
          (Component.error?_eq_some.mp hCheck) with
        hCause | ⟨_, _, hCause⟩
      · cases hCause
      · cases hCause
  · cases hPart
    omega

/-
  The walk answers what the plain recursion does. When it
  fails, it is with what is wrong with the component that
  begins `progress` bytes after the document, everything
  before which is valid. The walk never runs out of frames.
-/
theorem document_follows_recursion
    (limits : Limits)
    (data : Bytes)
    (offset depth : Nat) :
    document limits data offset depth =
        Plain.document limits depth (data.drop offset) ∧
      (∀ progress error,
        document limits data offset depth =
            .error ⟨progress, error⟩ ↔
          ∃ part,
            Component.Reaches limits
                (.document depth (data.drop offset))
                progress part ∧
              part.bytes <+: data.drop (offset + progress) ∧
              part.check limits = some error) ∧
      document limits data offset depth ≠
        .error (Error.missingTerminator.after 0) := by
  rw [document_eq_plain]
  refine ⟨rfl, ?_, ?_⟩
  · intro progress error
    constructor
    · intro hFails
      rcases Plain.document_eq_error.mp hFails with
        ⟨part, hReaches, hCheck⟩
      have hPrefix := hReaches.prefix_bytes
      simp only [Component.bytes, List.drop_drop] at hPrefix
      exact ⟨part, hReaches, hPrefix, hCheck⟩
    · intro hExists
      rcases hExists with ⟨part, hReaches, _, hCheck⟩
      exact
        Plain.document_eq_error.mpr ⟨part, hReaches, hCheck⟩
  · exact Plain.document_ne_missingTerminator limits depth _

end Validation

end BsonView
