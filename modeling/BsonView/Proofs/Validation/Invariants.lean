import BsonView.Proofs.Reading.Accesses
import BsonView.Proofs.Validation.Locality
import BsonView.Proofs.Validation.Walk

/-
  What holds at every step of the walk.

  A frame counts the bytes of its document up to its own
  position. The frame of a nested document begins where the
  frame below it stands, behind the header that leads to it,
  and ends where that one ends or before. That one stands
  still meanwhile, so no frame alone shows that the walk
  gets on: the position of the frame on top does, which
  moves towards the end of the outermost document with every
  step, also with one that leaves a document.

  Main declarations:
    * `Validation.Frame.Covers`
    * `Validation.Nested`
    * `Validation.Moves`
    * `Validation.Iterates`
    * `Validation.Returns`
    * `Validation.moves_of_step`
    * `Validation.Nested.of_moves`
    * `Validation.Nested.of_iterates`
    * `Validation.stepAt_keeps`
    * `Validation.walk_is_sound_and_ends`
-/

------------------------------------------------------------
-- Stacks Of Frames
------------------------------------------------------------

namespace BsonView

namespace Validation

namespace Frame

/-
  Where the document of a frame starts, in a walk that
  starts at `offset`.
-/
def start (frame : Frame) (offset : Nat) : Nat :=
  offset + frame.base

/-
  A frame is in a document that starts at a position and is
  as long as its length field says. The bytes that count are
  those before the next one. They include the length field.
-/
structure Covers
    (data : Bytes)
    (start : Nat)
    (frame : Frame) : Prop where
  declared_eq :
    Framing.documentLength (data.drop start) =
      .ok (frame.stop - start)
  pos_eq : frame.pos = start + frame.total
  least : start + 4 ≤ frame.pos
  pos_le : frame.pos ≤ frame.stop
  stop_le : frame.stop ≤ data.length

theorem Covers.sound
    {data : Bytes}
    {start : Nat}
    {frame : Frame}
    (hCovers : frame.Covers data start) :
    frame.Sound data where
  total_le := by
    rw [hCovers.pos_eq]
    exact Nat.le_add_left _ _
  pos_le := hCovers.pos_le
  stop_le := hCovers.stop_le

theorem Covers.advance
    {data : Bytes}
    {start n : Nat}
    {frame : Frame}
    (hCovers : frame.Covers data start)
    (hInside : frame.pos + n ≤ frame.stop) :
    (frame.advance n).Covers data start where
  declared_eq := hCovers.declared_eq
  pos_eq := by
    simp only [Frame.advance]
    rw [hCovers.pos_eq, Nat.add_assoc]
  least := Nat.le_add_right_of_le hCovers.least
  pos_le := hInside
  stop_le := hCovers.stop_le

end Frame

/-
  The frames of a walk that starts at `offset` with `depth`
  documents around it and whose outermost document ends at
  `stop`. There is at least one. Each other starts where the
  one below it stands and its lead ends, ends there or
  before, and is one deeper.
-/
inductive Nested
    (limits : Limits)
    (data : Bytes)
    (offset depth stop : Nat) : List Frame → Prop
| outermost
    {frame : Frame}
    (hCovers : frame.Covers data (frame.start offset))
    (hLimit : frame.depth ≤ limits.maxDepth)
    (hStart : frame.start offset = offset)
    (hStop : frame.stop = stop)
    (hDepth : frame.depth = depth) :
    Nested limits data offset depth stop [frame]
| inner
    {frame parent : Frame}
    {outer : List Frame}
    (hCovers : frame.Covers data (frame.start offset))
    (hLimit : frame.depth ≤ limits.maxDepth)
    (hStart :
      frame.start offset = parent.pos + frame.lead)
    (hStop : frame.stop ≤ parent.stop)
    (hDepth : frame.depth = parent.depth + 1)
    (hOuter :
      Nested limits data offset depth stop
        (parent :: outer)) :
    Nested limits data offset depth stop
      (frame :: parent :: outer)

/-
  How far the frame on top is from the end of the outermost
  document.
-/
def remaining (stop : Nat) : List Frame → Nat
| [] => 0
| top :: _ => stop - top.pos

namespace Nested

variable
  {limits : Limits}
  {data : Bytes}
  {offset depth stop : Nat}
  {top : Frame}
  {outer : List Frame}

theorem covers
    (hNested :
      Nested limits data offset depth stop (top :: outer)) :
    top.Covers data (top.start offset) := by
  cases hNested with
  | outermost hCovers => exact hCovers
  | inner hCovers => exact hCovers

theorem depth_le
    (hNested :
      Nested limits data offset depth stop (top :: outer)) :
    top.depth ≤ limits.maxDepth := by
  cases hNested with
  | outermost _ hLimit => exact hLimit
  | inner _ hLimit => exact hLimit

/- No frame ends behind the outermost one. -/
theorem stop_le
    (hNested :
      Nested limits data offset depth stop (top :: outer)) :
    top.stop ≤ stop := by
  generalize hStack : top :: outer = stack at hNested
  induction hNested generalizing top outer with
  | outermost _ _ _ hStop =>
      cases hStack
      exact Nat.le_of_eq hStop
  | inner _ _ _ hStop _ _ ih =>
      cases hStack
      exact Nat.le_trans hStop (ih rfl)

/- Passing bytes of the innermost document is no harm. -/
theorem advance
    {n : Nat}
    (hNested :
      Nested limits data offset depth stop (top :: outer))
    (hInside : top.pos + n ≤ top.stop) :
    Nested limits data offset depth stop
      (top.advance n :: outer) := by
  cases hNested with
  | outermost hCovers hLimit hStart hStop hDepth =>
      exact
        .outermost (hCovers.advance hInside) hLimit hStart
          hStop hDepth
  | inner hCovers hLimit hStart hStop hDepth hOuter =>
      exact
        .inner (hCovers.advance hInside) hLimit hStart hStop
          hDepth hOuter

end Nested

end Validation

end BsonView

------------------------------------------------------------
-- What A Step Does
------------------------------------------------------------

namespace BsonView

namespace Validation

/-
  A frame is that of the document which is entered from
  another frame.
-/
structure Frame.IsEnteredFrom
    (limits : Limits)
    (data : Bytes)
    (parent child : Frame) : Prop where
  base_eq :
    child.base = parent.base + parent.total + child.lead
  pos_eq : child.pos = parent.pos + child.lead + 4
  total_eq : child.total = 4
  depth_eq : child.depth = parent.depth + 1
  depth_le : child.depth ≤ limits.maxDepth
  declared_eq :
    Framing.documentLength
        (data.drop (parent.pos + child.lead)) =
      .ok (child.stop - (parent.pos + child.lead))
  least : child.pos ≤ child.stop
  stop_le : child.stop ≤ parent.stop

/-
  What a step does that goes on: it passes an element, it
  enters a document, or it leaves one, at its last byte.
-/
inductive Moves
    (limits : Limits)
    (data : Bytes)
    (frame : Frame) :
    List Frame → List Frame → Prop
| passed
    {outer : List Frame}
    {n : Nat}
    (hSome : 0 < n)
    (hInside : frame.pos + n ≤ frame.stop) :
    Moves limits data frame outer
      (frame.advance n :: outer)
| entered
    {outer : List Frame}
    {child : Frame}
    (hChild : frame.IsEnteredFrom limits data child) :
    Moves limits data frame outer (child :: frame :: outer)
| left
    {parent : Frame}
    {outer : List Frame}
    (hLast : frame.pos + 1 = frame.stop) :
    Moves limits data frame (parent :: outer)
      ({ parent with
          total :=
            parent.total + (frame.lead + (frame.total + 1))
          pos := frame.stop } :: outer)

variable
  {limits : Limits}
  {data : Bytes}
  {frame : Frame}
  {outer : List Frame}

/- A document is left at its last byte only. -/
theorem last_of_leave
    {after : Step}
    (hLeave : leave frame outer = .ok after) :
    frame.pos + 1 = frame.stop := by
  unfold leave at hLeave
  dsimp only at hLeave
  by_cases hLast : frame.pos + 1 = frame.stop
  · exact hLast
  · rw [if_pos hLast] at hLeave
    cases hLeave

theorem moves_of_leave
    {stack : List Frame}
    (hLeave : leave frame outer = .ok (.next stack)) :
    Moves limits data frame outer stack := by
  have hLast := last_of_leave hLeave
  unfold leave at hLeave
  dsimp only at hLeave
  rw [if_neg (by simp [hLast])] at hLeave
  cases outer with
  | nil => cases hLeave
  | cons parent rest =>
      cases hLeave
      exact .left hLast

/- A document is entered where it is not too deep. -/
theorem Frame.enter_eq_ok
    {bytes : Bytes}
    {start depth base lead : Nat} :
    enter limits bytes start depth base lead = .ok frame ↔
      depth ≤ limits.maxDepth ∧
        ∃ length,
          Framing.documentLength bytes = .ok length ∧
            frame = begin start length depth base lead := by
  unfold enter Limits.checkDepth
  by_cases hDepth : limits.maxDepth < depth
  · rw [if_pos hDepth]
    constructor
    · intro hEnter
      cases hEnter
    · rintro ⟨hLimit, _⟩
      exact absurd hDepth (Nat.not_lt_of_le hLimit)
  · rw [if_neg hDepth]
    cases Framing.documentLength bytes with
    | error error =>
        constructor
        · intro hEnter
          cases hEnter
        · rintro ⟨_, length, hLength, _⟩
          cases hLength
    | ok length =>
        constructor
        · intro hEnter
          exact
            ⟨Nat.le_of_not_lt hDepth, length, rfl,
              (Except.ok.inj hEnter).symm⟩
        · rintro ⟨_, _, hLength, rfl⟩
          cases hLength
          rfl

/-
  A document that is entered is in the part of the data that
  the frame is in.
-/
theorem isEnteredFrom_of_enter
    {child : Frame}
    {lead : Nat}
    (hEnter :
      Frame.enter limits
          ((data.take frame.stop).drop (frame.pos + lead))
          (frame.pos + lead) (frame.depth + 1)
          (frame.base + frame.total + lead) lead =
        .ok child) :
    frame.IsEnteredFrom limits data child := by
  rcases Frame.enter_eq_ok.mp hEnter with
    ⟨hLimit, length, hLength, rfl⟩
  rcases Framing.documentLength_eq_ok.mp hLength with
    ⟨_, hLeast, hThere⟩
  unfold Framing.emptyLength at hLeast
  rw [List.length_drop, List.length_take] at hThere
  have hFront :
      (data.take frame.stop).drop (frame.pos + lead) <+:
        data.drop (frame.pos + lead) :=
    (List.take_prefix _ _).drop _
  exact {
    base_eq := rfl
    pos_eq := rfl
    total_eq := rfl
    depth_eq := rfl
    depth_le := hLimit
    declared_eq := by
      simp only [Frame.begin, Nat.add_sub_cancel_left]
      exact Framing.documentLength_of_front hFront hLength
    least := by
      simp only [Frame.begin]
      omega
    stop_le := by
      simp only [Frame.begin]
      omega }

/- An element is passed, or its document is entered. -/
theorem moves_of_element
    {b : UInt8}
    {rest : Bytes}
    {after : Step}
    (hSound : frame.Sound data)
    (hWindow : frame.window data = b :: rest)
    (hElement :
      element limits frame outer b rest = .ok after) :
    ∃ stack, after = .next stack ∧
      Moves limits data frame outer stack := by
  rcases bind_eq_ok.mp hElement with ⟨tag, hTag, hRest⟩
  rcases bind_eq_ok.mp hRest with ⟨key, hKey, _⟩
  have hTag := mapError_eq_ok.mp hTag
  have hKey := mapError_eq_ok.mp hKey
  have hPayload := Frame.drop_of_window hWindow key
  rcases tag.kinds with hContainer | rfl | hScalar
  · rw [element_of_isContainer outer hTag hKey hContainer,
      hPayload] at hElement
    rcases bind_eq_ok.mp hElement with
      ⟨child, hEnter, hAfter⟩
    cases hAfter
    exact ⟨_, rfl, .entered (isEnteredFrom_of_enter hEnter)⟩
  · rw [element_of_codeWithScope outer hTag hKey, hPayload]
      at hElement
    rcases bind_eq_ok.mp hElement with ⟨_, _, hRest⟩
    rcases bind_eq_ok.mp hRest with ⟨code, _, hRest⟩
    rcases bind_eq_ok.mp hRest with ⟨child, hEnter, hAfter⟩
    cases hAfter
    rw [List.drop_drop, Nat.add_assoc frame.pos,
      Nat.add_assoc (frame.base + frame.total)] at hEnter
    exact ⟨_, rfl, .entered (isEnteredFrom_of_enter hEnter)⟩
  · rw [element_of_isScalar outer hTag hKey hScalar]
      at hElement
    rcases bind_eq_ok.mp hElement with ⟨size, hSize, hAfter⟩
    cases hAfter
    have hThere :=
      Framing.scalarLength_le (mapError_eq_ok.mp hSize)
    have hHeader := Bytes.lt_of_cstringLength_eq_ok hKey
    have hLength := Frame.length_window hSound
    rw [hWindow, List.length_cons] at hLength
    rw [List.length_drop] at hThere
    exact ⟨_, rfl, .passed (by omega) (by omega)⟩

/- A step that goes on is a move. -/
theorem moves_of_step
    {stack : List Frame}
    (hSound : frame.Sound data)
    (hStep :
      step limits data frame outer = .ok (.next stack)) :
    Moves limits data frame outer stack := by
  cases hWindow : frame.window data with
  | nil =>
      unfold step at hStep
      rw [← Frame.window, hWindow] at hStep
      cases hStep
  | cons b rest =>
      by_cases hNull : b = 0
      · subst hNull
        rw [step_of_null outer hWindow] at hStep
        exact moves_of_leave hStep
      · rw [step_of_ne_null outer hWindow hNull] at hStep
        rcases moves_of_element hSound hWindow hStep with
          ⟨_, hNext, hMoves⟩
        cases hNext
        exact hMoves

end Validation

end BsonView

------------------------------------------------------------
-- The Invariant
------------------------------------------------------------

namespace BsonView

namespace Validation

variable
  {limits : Limits}
  {data : Bytes}
  {offset depth stop : Nat}
  {frame : Frame}
  {outer : List Frame}

/- The document that is entered is in the right place. -/
theorem Frame.IsEnteredFrom.covers
    {child : Frame}
    (hChild : frame.IsEnteredFrom limits data child)
    (hCovers : frame.Covers data (frame.start offset)) :
    child.start offset = frame.pos + child.lead ∧
      child.Covers data (child.start offset) := by
  have hPos := hCovers.pos_eq
  have hBase := hChild.base_eq
  have hStart :
      child.start offset = frame.pos + child.lead := by
    unfold Frame.start at hPos ⊢
    omega
  refine ⟨hStart, ?_⟩
  rw [hStart]
  exact {
    declared_eq := hChild.declared_eq
    pos_eq := by rw [hChild.pos_eq, hChild.total_eq]
    least := Nat.le_of_eq hChild.pos_eq.symm
    pos_le := hChild.least
    stop_le :=
      Nat.le_trans hChild.stop_le hCovers.stop_le }

/-
  A move keeps the frames in order, and brings the one on
  top nearer to the end. The frame that is left gives its
  own end to the frame below, which has stood still since it
  was entered.
-/
theorem Nested.of_moves
    {stack : List Frame}
    (hNested :
      Nested limits data offset depth stop
        (frame :: outer))
    (hMoves : Moves limits data frame outer stack) :
    Nested limits data offset depth stop stack ∧
      remaining stop stack <
        remaining stop (frame :: outer) := by
  have hCovers := hNested.covers
  have hStop := hNested.stop_le
  have hInside := hCovers.pos_le
  cases hMoves with
  | passed hSome hThere =>
      refine ⟨hNested.advance hThere, ?_⟩
      simp only [remaining, Frame.advance]
      omega
  | entered hChild =>
      rcases hChild.covers hCovers with
        ⟨hStart, hChildCovers⟩
      refine
        ⟨.inner hChildCovers hChild.depth_le hStart
          hChild.stop_le hChild.depth_eq hNested, ?_⟩
      have hPos := hChild.pos_eq
      have hEnd := hChild.least
      have hWithin := hChild.stop_le
      simp only [remaining]
      omega
  | @left parent _ hLast =>
      cases hNested with
      | inner _ _ hStart hEnd _ hOuter =>
          have hPos := hCovers.pos_eq
          have hStop := hOuter.stop_le
          -- The frame below has not moved since, so it now
          -- passes its header and all that was inside.
          have hBack :
              frame.stop =
                parent.pos +
                  (frame.lead + (frame.total + 1)) := by
            omega
          have hThere :=
            hOuter.advance (hBack ▸ hEnd)
          rw [Frame.advance, ← hBack] at hThere
          refine ⟨hThere, ?_⟩
          simp only [remaining]
          omega

/- The first frame of a walk is in order. -/
theorem Nested.of_enter
    (hEnter :
      Frame.enter limits (data.drop offset) offset depth 0
          0 =
        .ok frame) :
    Nested limits data offset depth frame.stop [frame] := by
  rcases Frame.enter_eq_ok.mp hEnter with
    ⟨hLimit, length, hLength, rfl⟩
  rcases Framing.documentLength_eq_ok.mp hLength with
    ⟨_, hLeast, hThere⟩
  unfold Framing.emptyLength at hLeast
  rw [List.length_drop] at hThere
  refine .outermost ?_ hLimit rfl rfl rfl
  exact {
    declared_eq := by
      simp only [Frame.begin, Frame.start, Nat.add_zero,
        Nat.add_sub_cancel_left]
      exact hLength
    pos_eq := rfl
    least := Nat.le_refl _
    pos_le := by
      simp only [Frame.begin]
      omega
    stop_le := by
      simp only [Frame.begin]
      omega }

/- A document that is left is as long as it says. -/
theorem Nested.declared_of_leave
    {after : Step}
    (hNested :
      Nested limits data offset depth stop
        (frame :: outer))
    (hLeave : leave frame outer = .ok after) :
    Framing.documentLength
        (data.drop (frame.start offset)) =
      .ok (frame.total + 1) := by
  have hCovers := hNested.covers
  have hLast := last_of_leave hLeave
  have hPos := hCovers.pos_eq
  rw [hCovers.declared_eq]
  congr 1
  omega

end Validation

end BsonView

------------------------------------------------------------
-- Runs
------------------------------------------------------------

namespace BsonView

namespace Validation

/-
  So many steps that all go on lead from one stack to the
  other.
-/
inductive Iterates
    (limits : Limits)
    (data : Bytes) :
    Nat → List Frame → List Frame → Prop
| none (stack : List Frame) :
    Iterates limits data 0 stack stack
| more
    {n : Nat}
    {frame : Frame}
    {outer next last : List Frame}
    (hStep :
      step limits data frame outer = .ok (.next next))
    (hRest : Iterates limits data n next last) :
    Iterates limits data (n + 1) (frame :: outer) last

/- The step from a stack ends the walk with an outcome. -/
inductive Returns
    (limits : Limits)
    (data : Bytes) :
    List Frame → Except Failure Nat → Prop
| failed
    {frame : Frame}
    {outer : List Frame}
    {failure : Failure}
    (hStep :
      step limits data frame outer = .error failure) :
    Returns limits data (frame :: outer) (.error failure)
| left
    {frame : Frame}
    {outer : List Frame}
    {length : Nat}
    (hStep :
      step limits data frame outer = .ok (.done length)) :
    Returns limits data (frame :: outer) (.ok length)

variable
  {limits : Limits}
  {data : Bytes}
  {offset depth stop n : Nat}
  {stack last : List Frame}

/-
  Steps keep the frames in order, and no more are taken than
  bytes are left.
-/
theorem Nested.of_iterates
    (hNested : Nested limits data offset depth stop stack)
    (hIterates : Iterates limits data n stack last) :
    Nested limits data offset depth stop last ∧
      n + remaining stop last ≤ remaining stop stack := by
  induction hIterates with
  | none stack => exact ⟨hNested, by omega⟩
  | more hStep _ ih =>
      have hMoves :=
        moves_of_step hNested.covers.sound hStep
      rcases hNested.of_moves hMoves with ⟨hNext, hLess⟩
      rcases ih hNext with ⟨hLast, hSteps⟩
      exact ⟨hLast, by omega⟩

/- A walk from frames in order comes to an end. -/
theorem Nested.exists_returns
    (hNested : Nested limits data offset depth stop stack) :
    ∃ n last outcome,
      Iterates limits data n stack last ∧
        Returns limits data last outcome := by
  induction hLeft : remaining stop stack using
    Nat.strongRecOn generalizing stack with
  | ind left ih =>
  cases stack with
  | nil => cases hNested
  | cons frame outer =>
  cases hStep : step limits data frame outer with
  | error failure =>
      exact ⟨0, _, _, .none _, .failed hStep⟩
  | ok after =>
  cases after with
  | done length => exact ⟨0, _, _, .none _, .left hStep⟩
  | next next =>
      have hMoves :=
        moves_of_step hNested.covers.sound hStep
      rcases hNested.of_moves hMoves with ⟨hNext, hLess⟩
      rcases ih _ (hLeft ▸ hLess) hNext rfl with
        ⟨n, last, outcome, hIterates, hReturns⟩
      exact
        ⟨n + 1, last, outcome, .more hStep hIterates,
          hReturns⟩

/- With fuel for its steps a run does what the walk does. -/
theorem run_of_returns
    {outcome : Except Failure Nat}
    {fuel : Nat}
    (hIterates : Iterates limits data n stack last)
    (hReturns : Returns limits data last outcome)
    (hFuel : n < fuel) :
    run limits data fuel stack = outcome := by
  induction hIterates generalizing fuel with
  | none stack =>
      rcases Nat.exists_eq_succ_of_ne_zero
          (Nat.ne_of_gt hFuel) with
        ⟨less, rfl⟩
      cases hReturns with
      | failed hStep =>
          rw [run_succ, hStep]
          rfl
      | left hStep =>
          rw [run_succ, hStep]
          rfl
  | more hStep _ ih =>
      rcases Nat.exists_eq_succ_of_ne_zero
          (Nat.ne_of_gt (Nat.lt_of_le_of_lt
            (Nat.zero_le _) hFuel)) with
        ⟨less, rfl⟩
      rw [run_succ, hStep]
      exact ih hReturns (Nat.lt_of_succ_lt_succ hFuel)

end Validation

end BsonView

------------------------------------------------------------
-- Guarded Steps
------------------------------------------------------------

namespace BsonView

namespace Validation

/- Depths are 32-bit numbers. -/
def depthLimit : Nat := 4294967296

/- One deeper, which must be a depth. -/
def deeper? (depth : Nat) : Option Nat :=
  if depth + 1 < depthLimit then some (depth + 1) else none

/- Leave a document, with guarded differences. -/
def leaveAt
    (frame : Frame)
    (outer : List Frame) : Reaching Failure Step := do
  let total := frame.total + 1
  let pos := frame.pos + 1
  if pos ≠ frame.stop then
    let start ← Position.difference? pos total
    let declared ← Position.difference? frame.stop start
    Reaching.fail
      ((Error.invalidLength declared total).after
        (frame.base + total))
  else
    match outer with
    | [] => return .done total
    | parent :: rest =>
        return .next
          ({ parent with
              total := parent.total + (frame.lead + total)
              pos := frame.stop } :: rest)

/-
  Enter the document at a position of the body of a frame,
  one deeper than the frame.
-/
def enterAt
    (limits : Limits)
    (body : Bytes)
    (frame : Frame)
    (outer : List Frame)
    (start base lead : Nat) : Reaching Failure Step := do
  let depth ← deeper? frame.depth
  let child ←
    Frame.enter limits (body.drop start)
      start depth base lead
  return .next (child :: frame :: outer)

/-
  Pass an element of the body of a frame, or enter the
  document in it, by positions.
-/
def elementAt
    (limits : Limits)
    (body : Bytes)
    (frame : Frame)
    (outer : List Frame)
    (b : UInt8) : Reaching Failure Step := do
  let tag ← (Framing.tag b).mapError frame.failure
  let key ←
    (body.cstringLengthWithin (frame.pos + 1)
      frame.stop).mapError
      fun _ => frame.failure .invalidKey
  let header := 1 + key + 1
  let start := frame.pos + header
  let base := frame.base + frame.total + header
  match tag with
  | .embeddedDocument | .array =>
      enterAt limits body frame outer start base header
  | .codeWithScope =>
      let _ ←
        (Word.readInt32 (body.drop start)).mapError
          (Error.after base)
      let code ←
        (Framing.stringLengthAt body (start + 4)).mapError
          (Error.after (base + 4))
      let lead := 4 + code
      enterAt limits body frame outer
        (start + lead) (base + lead) (header + lead)
  | tag =>
      let length ←
        (Framing.scalarLengthAt tag body start).mapError
          (Error.after base)
      return .next
        ({ frame with
            total := frame.total + (header + length)
            pos := start + length } :: outer)

/-
  One step by positions. There is no outcome if an access is
  out of range.
-/
def stepAt
    (limits : Limits)
    (data : Bytes)
    (frame : Frame)
    (outer : List Frame) : Reaching Failure Step := do
  let body ← data.slice? 0 frame.stop
  match body.byte? frame.pos with
  | none => Reaching.fail (frame.failure .missingTerminator)
  | some b =>
      if b = 0 then
        leaveAt frame outer
      else
        elementAt limits body frame outer b

variable
  {limits : Limits}
  {data : Bytes}
  {frame : Frame}
  {outer : List Frame}

/- The differences that are reported are not below zero. -/
theorem leaveAt_keeps
    (hSound : frame.Sound data)
    (outer : List Frame) :
    (leaveAt frame outer).Keeps (leave frame outer) := by
  have hTotal := hSound.total_le
  have hPos := hSound.pos_le
  apply Reaching.keeps_ite
  · apply Reaching.keeps_access
      (Position.difference?_of_le (by omega))
    apply Reaching.keeps_access
      (Position.difference?_of_le (by omega))
    rfl
  · cases outer <;> rfl

/- The key of an element is looked for behind its type. -/
theorem keyAt_of_window
    {b : UInt8}
    {rest : Bytes}
    (hWindow : frame.window data = b :: rest) :
    Bytes.cstringLengthWithin (data.take frame.stop)
        (frame.pos + 1) frame.stop =
      Bytes.cstringLength rest := by
  have hRest :
      (data.take frame.stop).drop (frame.pos + 1) =
        rest := by
    rw [← List.drop_drop, ← Frame.window, hWindow,
      List.drop_one, List.tail_cons]
  have hLength := congrArg List.length hWindow
  rw [Frame.window, List.length_drop, List.length_take,
    List.length_cons] at hLength
  unfold Bytes.cstringLengthWithin
  rw [if_pos (by rw [List.length_take]; omega),
    List.take_take, Nat.min_self, hRest]

section

variable (hDepth : frame.depth + 1 < depthLimit)

include hDepth

/- There is a depth for a document that is entered. -/
theorem enterAt_keeps
    (body : Bytes)
    (outer : List Frame)
    (start base lead : Nat) :
    (enterAt limits body frame outer start base lead).Keeps
      (Frame.enter limits (body.drop start) start
          (frame.depth + 1) base lead >>=
        fun child =>
          .ok (.next (child :: frame :: outer))) := by
  apply Reaching.keeps_access (if_pos hDepth)
  apply (Reaching.keeps_lift _).bind
  intro child _
  rfl

/- An element stays in the body of the frame. -/
theorem elementAt_keeps
    {b : UInt8}
    {rest : Bytes}
    (hWindow : frame.window data = b :: rest)
    (outer : List Frame) :
    (elementAt limits (data.take frame.stop) frame outer
        b).Keeps
      (element limits frame outer b rest) := by
  unfold elementAt element
  rw [keyAt_of_window hWindow]
  apply (Reaching.keeps_lift _).bind
  intro tag _
  apply (Reaching.keeps_lift _).bind
  intro key _
  dsimp only
  rw [Frame.drop_of_window hWindow key]
  -- Most types share this case.
  have hScalar (tag : Tag) :=
    ((Framing.scalarLengthAt_keeps tag
      (data.take frame.stop)
      (frame.pos + (1 + key + 1))).mapError
      (Error.after
        (frame.base + frame.total +
          (1 + key + 1)))).bind
      (fun length _ =>
        Reaching.keeps_pure
          (Step.next
            ({ frame with
                total :=
                  frame.total + (1 + key + 1 + length)
                pos :=
                  frame.pos + (1 + key + 1) + length } ::
              outer)))
  cases tag with
  | embeddedDocument => exact enterAt_keeps hDepth _ _ _ _ _
  | array => exact enterAt_keeps hDepth _ _ _ _ _
  | codeWithScope =>
      apply (Reaching.keeps_lift _).bind
      intro _ _
      rw [List.drop_drop]
      apply ((Framing.stringLengthAt_keeps _ _).mapError
        _).bind
      intro code _
      rw [List.drop_drop]
      exact enterAt_keeps hDepth _ _ _ _ _
  | _ => exact hScalar _

/- A step stays in the data. -/
theorem stepAt_keeps
    (hSound : frame.Sound data)
    (outer : List Frame) :
    (stepAt limits data frame outer).Keeps
      (step limits data frame outer) := by
  have hByte :
      Bytes.byte? (data.take frame.stop) frame.pos =
        (frame.window data)[0]? := by
    rw [Frame.window, List.getElem?_drop, Nat.add_zero]
    rfl
  apply Reaching.keeps_access
    (Bytes.slice?_of_le (Nat.zero_le _) hSound.stop_le)
  rw [List.drop_zero, hByte]
  cases hWindow : frame.window data with
  | nil =>
      unfold step
      rw [← Frame.window, hWindow]
      rfl
  | cons b rest =>
      by_cases hNull : b = 0
      · subst hNull
        rw [step_of_null outer hWindow]
        exact leaveAt_keeps hSound outer
      · rw [step_of_ne_null outer hWindow hNull]
        simp only [List.getElem?_cons_zero, if_neg hNull]
        exact elementAt_keeps hDepth hWindow outer

end

end Validation

end BsonView

------------------------------------------------------------
-- Whole Walks
------------------------------------------------------------

namespace BsonView

namespace Validation

/-
  A step looks at nothing that is not there, comes nearer to
  the end if it goes on, and leaves a document only if that
  is as long as it says.
-/
structure StepIsSafe
    (limits : Limits)
    (data : Bytes)
    (offset stop : Nat)
    (top : Frame)
    (outer : List Frame) : Prop where
  keeps :
    (stepAt limits data top outer).Keeps
      (step limits data top outer)
  nearer :
    ∀ stack,
      step limits data top outer = .ok (.next stack) →
        remaining stop stack < remaining stop (top :: outer)
  declared :
    ∀ after, leave top outer = .ok after →
      Framing.documentLength
          (data.drop (top.start offset)) =
        .ok (top.total + 1)

variable
  {limits : Limits}
  {data : Bytes}
  {offset depth stop : Nat}

theorem Nested.stepIsSafe
    {top : Frame}
    {outer : List Frame}
    (hNested :
      Nested limits data offset depth stop (top :: outer))
    (hLimits : limits.maxDepth + 1 < depthLimit) :
    StepIsSafe limits data offset stop top outer where
  keeps := by
    have hDepth := hNested.depth_le
    exact
      stepAt_keeps (by omega) hNested.covers.sound outer
  nearer := by
    intro stack hStep
    have hMoves :=
      moves_of_step hNested.covers.sound hStep
    exact (hNested.of_moves hMoves).2
  declared := by
    intro after hLeave
    exact hNested.declared_of_leave hLeave

/-
  A walk from a frame in order answers after fewer steps
  than the document has bytes.
-/
theorem exists_returns_document
    {frame : Frame}
    (hEnter :
      Frame.enter limits (data.drop offset) offset depth 0
          0 =
        .ok frame) :
    ∃ n last, n < frame.stop - offset ∧
      Iterates limits data n [frame] last ∧
      Returns limits data last
        (document limits data offset depth) := by
  have hNested := Nested.of_enter hEnter
  rcases hNested.exists_returns with
    ⟨n, last, outcome, hIterates, hReturns⟩
  have hSteps := (hNested.of_iterates hIterates).2
  have hCovers := hNested.covers
  have hPos := hCovers.pos_le
  have hLeast := hCovers.least
  have hStart : offset ≤ frame.start offset :=
    Nat.le_add_right _ _
  have hFew : n < frame.stop - offset := by
    simp only [remaining] at hSteps
    omega
  have hRun := run_of_returns hIterates hReturns hFew
  rw [document, hEnter, ok_bind, hRun]
  exact ⟨n, last, hFew, hIterates, hReturns⟩

/-
  A walk either does not begin, and fails with the cause of
  that, or it keeps its frames in order. In whatever order
  its bytes lead it in and out of documents, each step is
  safe, and after fewer steps than the document declares
  bytes it returns its outcome. No depth is beyond what can
  be counted.
-/
theorem walk_is_sound_and_ends
    (limits : Limits)
    (data : Bytes)
    (offset depth : Nat)
    (hLimits : limits.maxDepth + 1 < depthLimit) :
    (∀ failure : Failure,
      Frame.enter limits (data.drop offset) offset depth 0
            0 =
          .error failure →
        document limits data offset depth =
          .error failure) ∧
      ∀ frame : Frame,
        Frame.enter limits (data.drop offset) offset depth 0
              0 =
            .ok frame →
          (∀ (n : Nat) (stack : List Frame),
            Iterates limits data n [frame] stack →
              Nested limits data offset depth frame.stop
                  stack ∧
                ∃ top outer, stack = top :: outer ∧
                  StepIsSafe limits data offset frame.stop
                    top outer) ∧
            ∃ declared n last,
              Framing.documentLength (data.drop offset) =
                  .ok declared ∧
                n < declared ∧
                Iterates limits data n [frame] last ∧
                Returns limits data last
                  (document limits data offset depth) := by
  constructor
  · intro failure hEnter
    rw [document, hEnter]
    rfl
  intro frame hEnter
  have hFirst := Nested.of_enter hEnter
  constructor
  · intro n stack hIterates
    have hNested := (hFirst.of_iterates hIterates).1
    refine ⟨hNested, ?_⟩
    cases stack with
    | nil => cases hNested
    | cons top outer =>
        exact ⟨top, outer, rfl, hNested.stepIsSafe hLimits⟩
  · rcases exists_returns_document hEnter with
      ⟨n, last, hFew, hIterates, hReturns⟩
    rcases Frame.enter_eq_ok.mp hEnter with
      ⟨_, declared, hLength, rfl⟩
    simp only [Frame.begin, Nat.add_sub_cancel_left] at hFew
    exact
      ⟨declared, n, last, hLength, hFew, hIterates,
        hReturns⟩

/-
  The document in a document is entered and left, and the
  walk ends.
-/
theorem walk_through_nested_document :
    let data : Bytes :=
      [9, 13, 0, 0, 0, 3, 97, 0, 5, 0, 0, 0, 0, 0]
    let whole : Frame := ⟨14, 5, 4, 0, 0, 0⟩
    let inside : Frame := ⟨13, 12, 4, 1, 7, 3⟩
    Nested .standard data 1 0 14 [inside, whole] ∧
      remaining 14 [inside, whole] < remaining 14 [whole] ∧
      Framing.documentLength (data.drop 8) =
        .ok (inside.total + 1) ∧
      ∃ n last, n < 13 ∧
        Iterates .standard data n [whole] last ∧
        Returns .standard data last (.ok 13) := by
  intro data whole inside
  have hLimits :
      Limits.standard.maxDepth + 1 < depthLimit := by
    decide
  rcases walk_is_sound_and_ends .standard data 1 0
      hLimits with
    ⟨_, hWalk⟩
  rcases hWalk whole rfl with
    ⟨hSteps, declared, n, last, hLength, hFew, hIterates,
      hReturns⟩
  cases hLength
  have hEntered :
      Iterates .standard data 1 [whole] [inside, whole] :=
    .more rfl (.none _)
  rcases hSteps 0 _ (.none _) with ⟨_, _, _, hFirst, hSafe⟩
  rcases hSteps 1 _ hEntered with
    ⟨hNested, _, _, hStack, hInside⟩
  cases hFirst
  cases hStack
  exact
    ⟨hNested, hSafe.nearer _ rfl, hInside.declared _ rfl, n,
      last, hFew, hIterates, hReturns⟩

end Validation

end BsonView
