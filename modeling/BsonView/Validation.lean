import BsonView.Framing

/-
  Validation of documents in their encoded form.

  A document is walked with an explicit stack: one frame for
  each document that has been entered and not yet left. Each
  step reads the next byte of the innermost document and
  either leaves that document, enters a nested one, passes a
  scalar element, or stops with a failure. How deep the
  input may nest is decided by the limit alone.

  The progress of a failure is the distance from the start
  of the outermost document to the part that is at fault.

  Main declarations:
    * `Limits`
    * `Limits.standard`
    * `Validation.Frame`
    * `Validation.step`
    * `Validation.run`
    * `Validation.document`
    * `Validation.payload`
-/

------------------------------------------------------------
-- Frames
------------------------------------------------------------

namespace BsonView

/-
  How deep documents may be nested in each other. Depths are
  counted without a bound of their own.
-/
structure Limits where
  maxDepth : Nat
deriving DecidableEq, Repr

/- The limits that hold where none are given. -/
def Limits.standard : Limits where
  maxDepth := 2048

/- Refuse a document with too many others around it. -/
def Limits.checkDepth
    (limits : Limits)
    (depth : Nat) : Except Failure Unit :=
  if limits.maxDepth < depth then
    throw
      ((Error.maxDepthExceeded limits.maxDepth).after 0)
  else
    return ()

namespace Validation

/-
  A document that has been entered and not yet left.

  `stop` is one past its last byte and `pos` the position of
  its next type byte; `total` of its bytes are accounted
  for. `depth` counts the documents around it. `base` bytes
  were accounted for before it, and `lead` bytes of the
  element that holds it come before it.
-/
structure Frame where
  stop : Nat
  pos : Nat
  total : Nat
  depth : Nat
  base : Nat
  lead : Nat
deriving DecidableEq, Repr

namespace Frame

/- A failure at the next byte of the frame's document. -/
def failure
    (frame : Frame)
    (error : Error) : Failure :=
  error.after (frame.base + frame.total)

/-
  Enter the document at the front of the bytes, which stand
  at position `start`.
-/
def enter
    (limits : Limits)
    (bytes : Bytes)
    (start depth base lead : Nat) :
    Except Failure Frame := do
  (limits.checkDepth depth).mapError (Failure.after base)
  let length ←
    (Framing.documentLength bytes).mapError
      (Error.after base)
  return {
    stop := start + length
    pos := start + 4
    total := 4
    depth
    base
    lead
  }

end Frame

end Validation

end BsonView

------------------------------------------------------------
-- Steps
------------------------------------------------------------

namespace BsonView

namespace Validation

/- What remains to be done after a step. -/
inductive Step
| done (length : Nat)
| next (stack : List Frame)

/-
  Leave the innermost document at its closing null byte,
  which has to be its last byte.
-/
def leave
    (frame : Frame)
    (outer : List Frame) : Except Failure Step :=
  let total := frame.total + 1
  let pos := frame.pos + 1
  if pos ≠ frame.stop then
    let declared := frame.stop - (pos - total)
    throw
      ((Error.invalidLength declared total).after
        (frame.base + total))
  else
    match outer with
    | [] => return .done total
    | parent :: rest =>
        return .next
          ({ parent with
              total := parent.total + (frame.lead + total)
              pos := frame.stop } :: rest)

/-
  Pass the element whose type byte is `b` and whose other
  bytes begin `rest`, or enter the document in it.
-/
def element
    (limits : Limits)
    (frame : Frame)
    (outer : List Frame)
    (b : UInt8)
    (rest : Bytes) : Except Failure Step := do
  let tag ← (Framing.tag b).mapError frame.failure
  let key ←
    rest.cstringLength.mapError
      fun _ => frame.failure .invalidKey
  let header := 1 + key + 1
  let payload := rest.drop (key + 1)
  let start := frame.pos + header
  let base := frame.base + frame.total + header
  match tag with
  | .embeddedDocument | .array =>
      let child ←
        Frame.enter limits payload
          start (frame.depth + 1) base header
      return .next (child :: frame :: outer)
  | .codeWithScope =>
      let _ ←
        (Word.readInt32 payload).mapError
          (Error.after base)
      let code ←
        (Framing.stringLength (payload.drop 4)).mapError
          (Error.after (base + 4))
      let lead := 4 + code
      let child ←
        Frame.enter limits (payload.drop lead)
          (start + lead) (frame.depth + 1)
          (base + lead) (header + lead)
      return .next (child :: frame :: outer)
  | tag =>
      let length ←
        (Framing.scalarLength tag payload).mapError
          (Error.after base)
      return .next
        ({ frame with
            total := frame.total + (header + length)
            pos := start + length } :: outer)

/- One step of the walk. -/
def step
    (limits : Limits)
    (data : Bytes)
    (frame : Frame)
    (outer : List Frame) : Except Failure Step :=
  match (data.take frame.stop).drop frame.pos with
  | [] => throw (frame.failure .missingTerminator)
  | 0 :: _ => leave frame outer
  | b :: rest => element limits frame outer b rest

end Validation

end BsonView

------------------------------------------------------------
-- Whole Walks
------------------------------------------------------------

namespace BsonView

namespace Validation

/- Take steps until the outermost document is left. -/
def run
    (limits : Limits)
    (data : Bytes) :
    Nat → List Frame → Except Failure Nat
| fuel + 1, frame :: outer => do
    match ← step limits data frame outer with
    | .done length => return length
    | .next stack => run limits data fuel stack
| _, _ => throw (Error.missingTerminator.after 0)

/-
  Validate the document at a position of a buffer.

  Every step that does not end the walk moves it at least
  one byte on, so a walk has no more steps than the document
  has bytes.
-/
def document
    (limits : Limits)
    (data : Bytes)
    (offset depth : Nat) : Except Failure Nat := do
  let frame ←
    Frame.enter limits (data.drop offset)
      offset depth 0 0
  run limits data (frame.stop - offset) [frame]

/-
  Validate a code with scope. Its outer length may be any
  number.
-/
def codeWithScope
    (limits : Limits)
    (data : Bytes)
    (offset depth : Nat) : Except Failure Nat := do
  let bytes := data.drop offset
  let _ ← Word.readInt32 bytes
  let code ←
    (Framing.stringLength (bytes.drop 4)).mapError
      (Error.after 4)
  let scope ←
    (document limits data
      (offset + 4 + code) depth).mapError
      (Failure.after (4 + code))
  return 4 + code + scope

/-
  Validate the payload at a position of a buffer, which has
  `depth` documents around it.
-/
def payload
    (limits : Limits)
    (tag : Tag)
    (data : Bytes)
    (offset depth : Nat) : Except Failure Nat :=
  match tag with
  | .embeddedDocument | .array =>
      document limits data offset (depth + 1)
  | .codeWithScope =>
      codeWithScope limits data offset (depth + 1)
  | tag =>
      if offset ≤ data.length then
        Framing.scalarLength tag (data.drop offset)
      else
        throw (Error.endOfFile.after 0)

end Validation

end BsonView
