import BsonView.Proofs.Validation.Recursion

/-
  The walk with a stack of frames answers what the plain
  recursion answers.

  A frame stands for a call of the recursion: it has to
  validate the rest of its document and to hand the length
  of the document to the frame below. So a walk from a frame
  either fails where the recursion does, or goes on below
  that frame with fuel to spare for the bytes that are left.

  Main declarations:
    * `Validation.Frame.Sound`
    * `Validation.Continues`
    * `Validation.run_frame`
    * `Validation.document_eq_plain`
    * `Validation.payload_eq_plain`
-/

------------------------------------------------------------
-- Frames
------------------------------------------------------------

namespace BsonView

namespace Validation

namespace Frame

/- The bytes of the frame's document not yet passed. -/
def window
    (frame : Frame)
    (data : Bytes) : Bytes :=
  (data.take frame.stop).drop frame.pos

/- The length that the frame's document declares. -/
def declared (frame : Frame) : Nat :=
  frame.stop - (frame.pos - frame.total)

/- The frame with `n` more bytes passed. -/
def advance
    (frame : Frame)
    (n : Nat) : Frame :=
  { frame with
      total := frame.total + n
      pos := frame.pos + n }

/- What the recursion answers for the rest of a frame. -/
def finish
    (limits : Limits)
    (data : Bytes)
    (frame : Frame) : Except Failure Nat :=
  Plain.elements limits frame.depth frame.declared
    frame.total (frame.window data)

/-
  The next byte is in the frame's document, whose end is in
  the data, and the bytes accounted for come before it.
-/
structure Sound
    (data : Bytes)
    (frame : Frame) : Prop where
  total_le : frame.total ≤ frame.pos
  pos_le : frame.pos ≤ frame.stop
  stop_le : frame.stop ≤ data.length

theorem length_window
    {data : Bytes}
    {frame : Frame}
    (hSound : frame.Sound data) :
    (frame.window data).length =
      frame.stop - frame.pos := by
  have hStop := hSound.stop_le
  rw [window, List.length_drop, List.length_take]
  omega

/- Passing bytes shortens the window by them. -/
theorem window_advance
    (data : Bytes)
    (frame : Frame)
    (n : Nat) :
    (frame.advance n).window data =
      (frame.window data).drop n := by
  simp only [window, advance, List.drop_drop]

theorem declared_advance
    (frame : Frame)
    (n : Nat) :
    (frame.advance n).declared = frame.declared := by
  simp only [declared, advance]
  congr 1
  omega

theorem Sound.advance
    {data : Bytes}
    {frame : Frame}
    {n : Nat}
    (hSound : frame.Sound data)
    (hFits : n ≤ (frame.window data).length) :
    (frame.advance n).Sound data := by
  rw [length_window hSound] at hFits
  rcases hSound with ⟨hTotal, hPos, hStop⟩
  constructor
  · exact Nat.add_le_add_right hTotal n
  · simp only [Frame.advance]
    omega
  · exact hStop

/- Where the recursion goes on past a payload. -/
theorem finish_advance
    (limits : Limits)
    (data : Bytes)
    (frame : Frame)
    (n : Nat) :
    (frame.advance n).finish limits data =
      Plain.elements limits frame.depth frame.declared
        (frame.total + n)
        ((frame.window data).drop n) := by
  rw [finish, window_advance, declared_advance]
  rfl

end Frame

end Validation

end BsonView

------------------------------------------------------------
-- Going On
------------------------------------------------------------

namespace BsonView

namespace Validation

/-
  What is left to do once a document of the given length is
  validated that ends at `stop` and comes after `lead` bytes
  of its element.
-/
def close
    (stop lead length : Nat) :
    List Frame → Step
| [] => .done length
| parent :: rest =>
    .next
      ({ parent with
          total := parent.total + (lead + length)
          pos := stop } :: rest)

/- Go on with what a step has left to do. -/
def proceed
    (limits : Limits)
    (data : Bytes)
    (fuel : Nat) : Step → Except Failure Nat
| .done length => .ok length
| .next stack => run limits data fuel stack

/-
  An outcome follows from an answer of the recursion: it is
  the failure, with the bytes before it added, or what comes
  next after that many bytes. Of the fuel one unit at most
  is used for each of these bytes.
-/
def Continues
    (base fuel : Nat)
    (next : Nat → Nat → Except Failure Nat)
    (outcome : Except Failure Nat) :
    Except Failure Nat → Prop
| .error failure => outcome = .error (failure.after base)
| .ok length =>
    ∃ left, fuel ≤ left + length ∧
      outcome = next left length

theorem Continues.congr
    {base fuel : Nat}
    {next next' : Nat → Nat → Except Failure Nat}
    {outcome answer : Except Failure Nat}
    (hNext :
      ∀ left length, next left length = next' left length)
    (hFollows :
      Continues base fuel next outcome answer) :
    Continues base fuel next' outcome answer := by
  cases answer with
  | error failure => exact hFollows
  | ok length =>
      rcases hFollows with ⟨left, hLeft, hOutcome⟩
      exact ⟨left, hLeft, hOutcome.trans (hNext left length)⟩

theorem Continues.weaken
    {base fuel more : Nat}
    {next : Nat → Nat → Except Failure Nat}
    {outcome answer : Except Failure Nat}
    (hFollows : Continues base more next outcome answer)
    (hFuel : fuel ≤ more) :
    Continues base fuel next outcome answer := by
  cases answer with
  | error failure => exact hFollows
  | ok length =>
      rcases hFollows with ⟨left, hLeft, hOutcome⟩
      exact ⟨left, Nat.le_trans hFuel hLeft, hOutcome⟩

/- An outcome from a part that begins `lead` bytes later. -/
theorem Continues.shift
    {base fuel lead : Nat}
    {next : Nat → Nat → Except Failure Nat}
    {outcome answer : Except Failure Nat}
    (hPart :
      Continues (base + lead) fuel
        (fun left length => next left (lead + length))
        outcome answer) :
    Continues base fuel next outcome
      (answer.mapError (Failure.after lead) >>=
        fun length => .ok (lead + length)) := by
  cases answer with
  | error failure =>
      change outcome =
        .error ((failure.after lead).after base)
      rw [Failure.after_after]
      exact hPart
  | ok length =>
      rcases hPart with ⟨left, hLeft, hOutcome⟩
      exact ⟨left, by omega, hOutcome⟩

/- Closing a document passes it in the frame below. -/
theorem proceed_close
    (limits : Limits)
    (data : Bytes)
    (left lead length : Nat)
    (parent : Frame)
    (rest : List Frame) :
    proceed limits data left
        (close (parent.pos + lead + length) lead length
          (parent :: rest)) =
      run limits data left
        (parent.advance (lead + length) :: rest) := by
  rw [Nat.add_assoc]
  rfl

theorem run_succ
    (limits : Limits)
    (data : Bytes)
    (fuel : Nat)
    (frame : Frame)
    (outer : List Frame) :
    run limits data (fuel + 1) (frame :: outer) =
      step limits data frame outer >>=
        proceed limits data fuel := by
  rw [run]
  congr 1

end Validation

end BsonView

------------------------------------------------------------
-- Nested Documents
------------------------------------------------------------

namespace BsonView

namespace Validation

variable {limits : Limits} {data : Bytes}

/-
  The bytes before `size` walks from a frame are what the
  recursion answers, whatever is below the frame.
-/
def Simulates
    (limits : Limits)
    (data : Bytes)
    (size : Nat) : Prop :=
  ∀ (frame : Frame) (outer : List Frame) (fuel : Nat),
    frame.Sound data →
    (frame.window data).length < size →
    (frame.window data).length < fuel →
    Continues frame.base (fuel + frame.total)
      (fun left length =>
        proceed limits data left
          (close frame.stop frame.lead length outer))
      (run limits data fuel (frame :: outer))
      (frame.finish limits data)

theorem Simulates.mono
    {small large : Nat}
    (hWalks : Simulates limits data large)
    (hSizes : small ≤ large) :
    Simulates limits data small := by
  intro frame outer fuel hSound hSmall hFuel
  exact hWalks frame outer fuel hSound
    (Nat.lt_of_lt_of_le hSmall hSizes) hFuel

/- The body of a document that is a part of the data. -/
theorem body_of_part
    {bytes : Bytes}
    {limit start length : Nat}
    (hBytes : bytes = (data.take limit).drop start)
    (hLength : length ≤ bytes.length)
    (hSome : 0 < length) :
    (bytes.take length).drop 4 =
      (data.take (start + length)).drop (start + 4) := by
  rw [hBytes, List.length_drop, List.length_take] at hLength
  rw [hBytes, List.take_drop, List.take_take,
    List.drop_drop]
  congr 2
  omega

/- The frame of a document of the given length. -/
def Frame.begin
    (start length depth base lead : Nat) : Frame where
  stop := start + length
  pos := start + 4
  total := 4
  depth := depth
  base := base
  lead := lead

/-
  Walking through a document does what the recursion does
  with its body.
-/
theorem run_begin
    {bytes : Bytes}
    {limit start length fuel : Nat}
    (depth base lead : Nat)
    (outer : List Frame)
    (hBytes : bytes = (data.take limit).drop start)
    (hWalks : Simulates limits data bytes.length)
    (hLength : Framing.documentLength bytes = .ok length)
    (hFuel : length ≤ fuel) :
    Continues base fuel
      (fun left length =>
        proceed limits data left
          (close (start + length) lead length outer))
      (run limits data fuel
        (.begin start length depth base lead :: outer))
      (Plain.elements limits depth length 4
        ((bytes.take length).drop 4)) := by
  rcases Framing.documentLength_eq_ok.mp hLength with
    ⟨_, hLeast, hThere⟩
  unfold Framing.emptyLength at hLeast
  have hStop : start + length ≤ data.length := by
    have hSizes := congrArg List.length hBytes
    rw [List.length_drop, List.length_take] at hSizes
    omega
  let child := Frame.begin start length depth base lead
  have hSound : child.Sound data :=
    ⟨Nat.le_add_left _ _,
      Nat.add_le_add_left (by omega) start, hStop⟩
  have hWindow :
      (child.window data).length = length - 4 := by
    rw [Frame.length_window hSound]
    exact Nat.add_sub_add_left start length 4
  have hChild :=
    hWalks child outer fuel hSound (by omega) (by omega)
  have hFinish :
      child.finish limits data =
        Plain.elements limits depth length 4
          ((bytes.take length).drop 4) := by
    rw [body_of_part hBytes hThere (by omega)]
    unfold Frame.finish Frame.declared
    congr 1
    simp only [child, Frame.begin]
    omega
  rw [hFinish] at hChild
  cases hBody :
      Plain.elements limits depth length 4
        ((bytes.take length).drop 4) with
  | error failure =>
      rw [hBody] at hChild
      exact hChild
  | ok n =>
      rw [hBody] at hChild
      rcases hChild with ⟨left, hLeft, hRun⟩
      have hTotal := Plain.elements_eq_ok_length hBody
      rw [List.length_drop, List.length_take] at hTotal
      have hSame : n = length := by omega
      refine ⟨left, by omega, ?_⟩
      rw [hRun, hSame]
      rfl

/-
  Entering a document and walking through it does what the
  recursion does with the document.
-/
theorem run_enter
    {bytes : Bytes}
    {limit start depth base lead fuel : Nat}
    (outer : List Frame)
    (hBytes : bytes = (data.take limit).drop start)
    (hWalks : Simulates limits data bytes.length)
    (hFuel : bytes.length ≤ fuel) :
    Continues base fuel
      (fun left length =>
        proceed limits data left
          (close (start + length) lead length outer))
      (Frame.enter limits bytes start depth base lead >>=
        fun child => run limits data fuel (child :: outer))
      (Plain.document limits depth bytes) := by
  unfold Frame.enter Plain.document Limits.checkDepth
  by_cases hDepth : limits.maxDepth < depth
  · rw [if_pos hDepth]
    rfl
  rw [if_neg hDepth]
  cases hLength : Framing.documentLength bytes with
  | error error => rfl
  | ok length =>
      have hThere :=
        (Framing.documentLength_eq_ok.mp hLength).2.2
      exact run_begin depth base lead outer hBytes hWalks
        hLength (Nat.le_trans hThere hFuel)

end Validation

end BsonView

------------------------------------------------------------
-- Elements
------------------------------------------------------------

namespace BsonView

namespace Validation

variable {limits : Limits} {data : Bytes}

/-
  Leaving the innermost document at a null byte does what
  the recursion does at the end of the elements.
-/
theorem leave_eq
    {frame : Frame}
    {outer : List Frame}
    {rest : Bytes}
    (hSound : frame.Sound data)
    (hWindow : frame.window data = 0 :: rest)
    (fuel : Nat) :
    Continues frame.base (fuel + 1 + frame.total)
      (fun left length =>
        proceed limits data left
          (close frame.stop frame.lead length outer))
      (leave frame outer >>= proceed limits data fuel)
      (frame.finish limits data) := by
  have hLength := Frame.length_window hSound
  rcases hSound with ⟨hTotal, hPos, _⟩
  rw [hWindow, List.length_cons] at hLength
  rw [Frame.finish, hWindow, Plain.elements, if_pos rfl]
  unfold leave
  by_cases hEnd : rest = []
  · rw [hEnd, List.length_nil] at hLength
    rw [if_pos hEnd]
    have hLast : ¬ frame.pos + 1 ≠ frame.stop := by omega
    rw [if_neg hLast]
    refine ⟨fuel, by omega, ?_⟩
    cases outer <;> rfl
  · have hMore := List.length_pos_iff.mpr hEnd
    rw [if_neg hEnd]
    have hEarly : frame.pos + 1 ≠ frame.stop := by omega
    rw [if_pos hEarly]
    have hDeclared :
        frame.stop - (frame.pos + 1 - (frame.total + 1)) =
          frame.declared := by
      rw [Nat.add_sub_add_right, Frame.declared]
    rw [hDeclared]
    rfl

section

variable {frame : Frame} {b : UInt8} {rest : Bytes}
variable {tag : Tag} {key : Nat}

/- An element with a document leads into that document. -/
theorem element_of_isContainer
    (outer : List Frame)
    (hTag : Framing.tag b = .ok tag)
    (hKey : Bytes.cstringLength rest = .ok key)
    (hKind : tag.isContainer = true) :
    element limits frame outer b rest =
      Frame.enter limits (rest.drop (key + 1))
          (frame.pos + (1 + key + 1)) (frame.depth + 1)
          (frame.base + frame.total + (1 + key + 1))
          (1 + key + 1) >>=
        fun child =>
          .ok (.next (child :: frame :: outer)) := by
  unfold element
  rw [hTag, hKey]
  cases tag <;> simp [Tag.isContainer] at hKind <;> rfl

/- An element with code leads into the scope behind it. -/
theorem element_of_codeWithScope
    (outer : List Frame)
    (hTag : Framing.tag b = .ok .codeWithScope)
    (hKey : Bytes.cstringLength rest = .ok key) :
    element limits frame outer b rest =
      (do
        let base :=
          frame.base + frame.total + (1 + key + 1)
        let payload := rest.drop (key + 1)
        let _ ←
          (Word.readInt32 payload).mapError
            (Error.after base)
        let code ←
          (Framing.stringLength (payload.drop 4)).mapError
            (Error.after (base + 4))
        let child ←
          Frame.enter limits (payload.drop (4 + code))
            (frame.pos + (1 + key + 1) + (4 + code))
            (frame.depth + 1) (base + (4 + code))
            (1 + key + 1 + (4 + code))
        return .next (child :: frame :: outer)) := by
  unfold element
  rw [hTag, hKey]
  rfl

/- Any other element is passed. -/
theorem element_of_isScalar
    (outer : List Frame)
    (hTag : Framing.tag b = .ok tag)
    (hKey : Bytes.cstringLength rest = .ok key)
    (hKind : tag.isScalar = true) :
    element limits frame outer b rest =
      (Framing.scalarLength tag
          (rest.drop (key + 1))).mapError
          (Error.after
            (frame.base + frame.total +
              (1 + key + 1))) >>=
        fun size =>
          .ok (.next
            (frame.advance (1 + key + 1 + size) ::
              outer)) := by
  unfold element Frame.advance
  rw [hTag, hKey]
  cases tag <;> simp [Tag.isScalar] at hKind <;>
    simp only [mapError_ok, ok_bind, Nat.add_assoc] <;> rfl

end

/- What is behind the header of the next element. -/
theorem Frame.drop_of_window
    {frame : Frame}
    {b : UInt8}
    {rest : Bytes}
    (hWindow : frame.window data = b :: rest)
    (key : Nat) :
    rest.drop (key + 1) =
      (data.take frame.stop).drop
        (frame.pos + (1 + key + 1)) :=
  calc
    rest.drop (key + 1)
      = (b :: rest).drop (1 + key + 1) :=
        (Bytes.drop_header b rest key 0).symm
    _ = (data.take frame.stop).drop
          (frame.pos + (1 + key + 1)) := by
        rw [← hWindow, window, List.drop_drop]

/-
  Passing an element, or entering its document and walking
  through it, does what the recursion does with its payload.
-/
theorem element_eq
    {frame : Frame}
    {b : UInt8}
    {rest : Bytes}
    {tag : Tag}
    {key fuel : Nat}
    (outer : List Frame)
    (hWindow : frame.window data = b :: rest)
    (hWalks : Simulates limits data (rest.length + 1))
    (hFuel : rest.length ≤ fuel)
    (hTag : Framing.tag b = .ok tag)
    (hKey : Bytes.cstringLength rest = .ok key) :
    Continues (frame.base + frame.total + (1 + key + 1))
      fuel
      (fun left size =>
        run limits data left
          (frame.advance (1 + key + 1 + size) :: outer))
      (element limits frame outer b rest >>=
        proceed limits data fuel)
      (Plain.payload limits frame.depth tag
        (rest.drop (key + 1))) := by
  have hPayload := Frame.drop_of_window hWindow key
  have hShorter :
      (rest.drop (key + 1)).length ≤ rest.length := by
    rw [List.length_drop]
    omega
  rcases tag.kinds with hContainer | rfl | hScalar
  · rw [element_of_isContainer outer hTag hKey hContainer,
      Plain.payload_of_isContainer hContainer]
    simp only [bind_assoc, ok_bind, ← proceed_close]
    exact run_enter (frame :: outer) hPayload
      (hWalks.mono (by omega)) (by omega)
  · rw [element_of_codeWithScope outer hTag hKey,
      Plain.payload]
    dsimp only
    cases Word.readInt32 (rest.drop (key + 1)) with
    | error error => rfl
    | ok _ =>
    cases Framing.stringLength
        ((rest.drop (key + 1)).drop 4) with
    | error error => rfl
    | ok code =>
    simp only [lift_eq_mapError, mapError_ok, ok_bind]
    have hScope :
        (rest.drop (key + 1)).drop (4 + code) =
          (data.take frame.stop).drop
            (frame.pos + (1 + key + 1) + (4 + code)) := by
      rw [hPayload, List.drop_drop]
    have hScopeShorter :
        ((rest.drop (key + 1)).drop (4 + code)).length ≤
          rest.length := by
      rw [List.length_drop]
      omega
    apply Continues.shift
    simp only [bind_assoc]
    refine Continues.congr ?_
      (run_enter (frame :: outer) hScope
        (hWalks.mono (by omega)) (by omega))
    intro left length
    rw [Nat.add_assoc frame.pos, proceed_close,
      Nat.add_assoc (1 + key + 1)]
  · rw [element_of_isScalar outer hTag hKey hScalar,
      Plain.payload_of_isScalar hScalar]
    cases Framing.scalarLength tag (rest.drop (key + 1)) with
    | error error => rfl
    | ok size => exact ⟨fuel, Nat.le_add_right _ _, rfl⟩

end Validation

end BsonView

------------------------------------------------------------
-- Steps
------------------------------------------------------------

namespace BsonView

namespace Validation

section

variable {limits : Limits} {data : Bytes} {frame : Frame}
variable {b : UInt8} {rest : Bytes}

theorem step_of_null
    (outer : List Frame)
    (hWindow : frame.window data = 0 :: rest) :
    step limits data frame outer = leave frame outer := by
  unfold step
  rw [← Frame.window, hWindow]
  rfl

theorem step_of_ne_null
    (outer : List Frame)
    (hWindow : frame.window data = b :: rest)
    (hNull : b ≠ 0) :
    step limits data frame outer =
      element limits frame outer b rest := by
  unfold step
  rw [← Frame.window, hWindow]
  split
  next hNil => cases hNil
  next hZero =>
    cases hZero
    exact absurd rfl hNull
  next hCons =>
    cases hCons
    rfl

/-
  A step at an element, and the walk from there, do what the
  recursion does with this element and those after it.
-/
theorem element_simulates
    {outer : List Frame}
    {fuel : Nat}
    (hSound : frame.Sound data)
    (hWindow : frame.window data = b :: rest)
    (hNull : b ≠ 0)
    (hWalks : Simulates limits data (rest.length + 1))
    (hFuel : rest.length ≤ fuel) :
    Continues frame.base (fuel + 1 + frame.total)
      (fun left length =>
        proceed limits data left
          (close frame.stop frame.lead length outer))
      (element limits frame outer b rest >>=
        proceed limits data fuel)
      (frame.finish limits data) := by
  rw [Frame.finish, hWindow, Plain.elements, if_neg hNull]
  cases hTag : Framing.tag b with
  | error error =>
      unfold element
      rw [hTag]
      rfl
  | ok tag =>
  cases hKey : Bytes.cstringLength rest with
  | error error =>
      unfold element
      rw [hTag, hKey]
      rfl
  | ok key =>
  have hElement :=
    element_eq outer hWindow hWalks hFuel hTag hKey
  simp only [mapError_ok, ok_bind]
  cases hSize :
      Plain.payload limits frame.depth tag
        (rest.drop (key + 1)) with
  | error failure =>
      rw [hSize] at hElement
      change _ =
        Except.error
          ((failure.after _).after frame.base)
      rw [Failure.after_after, ← Nat.add_assoc]
      exact hElement
  | ok size =>
      rw [hSize] at hElement
      rcases hElement with ⟨left, hLeft, hRun⟩
      have hPayload := Plain.le_of_payload_eq_ok hSize
      have hHeader := Bytes.lt_of_cstringLength_eq_ok hKey
      rw [List.length_drop] at hPayload
      have hAdvance :=
        Frame.window_advance data frame (1 + key + 1 + size)
      rw [hWindow] at hAdvance
      have hShorter := congrArg List.length hAdvance
      rw [List.length_drop, List.length_cons] at hShorter
      have hFits :
          1 + key + 1 + size ≤
            (frame.window data).length := by
        rw [hWindow, List.length_cons]
        omega
      have hRest :=
        hWalks (frame.advance (1 + key + 1 + size)) outer
          left (hSound.advance hFits)
          (by omega) (by omega)
      rw [Frame.finish_advance, hWindow,
        Bytes.drop_header] at hRest
      rw [hRun]
      refine hRest.weaken ?_
      simp only [Frame.advance]
      omega

end

end Validation

end BsonView

------------------------------------------------------------
-- Whole Walks
------------------------------------------------------------

namespace BsonView

namespace Validation

/-
  A walk from a frame does what the recursion does with the
  rest of the frame's document, and goes on below.

  The induction is on the bytes of the document that are
  left: a nested document is a part of them, and so is what
  comes after an element.
-/
theorem run_frame
    (limits : Limits)
    (data : Bytes)
    (size : Nat) :
    Simulates limits data size := by
  induction size with
  | zero =>
      intro frame outer fuel _ hNone
      exact absurd hNone (Nat.not_lt_zero _)
  | succ size ih =>
      intro frame outer fuel hSound hSize hFuel
      cases fuel with
      | zero => exact absurd hFuel (Nat.not_lt_zero _)
      | succ fuel =>
      rw [run_succ]
      cases hWindow : frame.window data with
      | nil =>
          rw [Frame.finish, hWindow, Plain.elements]
          unfold step
          rw [← Frame.window, hWindow]
          rfl
      | cons b rest =>
      rw [hWindow, List.length_cons] at hSize hFuel
      by_cases hNull : b = 0
      · rw [hNull] at hWindow
        rw [step_of_null outer hWindow]
        exact leave_eq hSound hWindow fuel
      · rw [step_of_ne_null outer hWindow hNull]
        exact element_simulates hSound hWindow hNull
          (ih.mono (Nat.le_of_lt_succ hSize))
          (by omega)

/- Without frames below, an outcome is the answer. -/
theorem Continues.eq_answer
    {fuel : Nat}
    {outcome answer : Except Failure Nat}
    (hFollows :
      Continues 0 fuel (fun _ length => .ok length)
        outcome answer) :
    outcome = answer := by
  cases answer with
  | error failure =>
      rw [← failure.after_zero]
      exact hFollows
  | ok length =>
      rcases hFollows with ⟨_, _, hOutcome⟩
      exact hOutcome

/-
  The walk answers what the plain recursion answers.
-/
theorem document_eq_plain
    (limits : Limits)
    (data : Bytes)
    (offset depth : Nat) :
    document limits data offset depth =
      Plain.document limits depth (data.drop offset) := by
  have hPart :
      data.drop offset =
        (data.take data.length).drop offset := by
    rw [List.take_length]
  unfold document Frame.enter Plain.document
    Limits.checkDepth
  by_cases hDepth : limits.maxDepth < depth
  · rw [if_pos hDepth]
    rfl
  rw [if_neg hDepth]
  cases hLength :
      Framing.documentLength (data.drop offset) with
  | error error => rfl
  | ok length =>
      have hFuel : length ≤ offset + length - offset :=
        Nat.le_of_eq (Nat.add_sub_cancel_left ..).symm
      exact Continues.eq_answer
        (run_begin depth 0 0 [] hPart
          (run_frame limits data _) hLength hFuel)

/- The same holds of the payload at a position. -/
theorem payload_eq_plain
    (limits : Limits)
    (tag : Tag)
    (data : Bytes)
    (offset depth : Nat)
    (hInside : offset ≤ data.length) :
    payload limits tag data offset depth =
      Plain.payload limits depth tag
        (data.drop offset) := by
  rcases tag.kinds with hContainer | rfl | hScalar
  · rw [Plain.payload_of_isContainer hContainer,
      ← document_eq_plain]
    cases tag <;> simp [Tag.isContainer] at hContainer <;>
      rfl
  · rw [payload, codeWithScope, Plain.payload]
    simp only [document_eq_plain, List.drop_drop,
      Nat.add_assoc]
  · rw [Plain.payload_of_isScalar hScalar]
    cases tag <;> simp [Tag.isScalar] at hScalar <;>
      exact if_pos hInside

end Validation

end BsonView
