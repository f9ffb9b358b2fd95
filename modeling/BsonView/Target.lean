import BsonView.Allocation

/-
  Targets of element writes.

  An element can be written over a part of a buffer, into a
  buffer that grows as needed, or to a stream. All three
  get the same bytes. An element that does not validate is
  not written at all, and there is no answer where its
  length cannot be counted or no buffer can be long enough.

  Main declarations:
    * `Stream`
    * `Stream.send`
    * `Target`
    * `Element.send?`
    * `Element.put?`
    * `Element.writeTo?`
-/

------------------------------------------------------------
-- Streams
------------------------------------------------------------

namespace BsonView

/-
  A stream: the bytes it has received, and how many more it
  takes.
-/
structure Stream where
  received : Bytes
  room : Nat
deriving DecidableEq, Repr

namespace Stream

/-
  Send bytes, of which the stream takes as many as it can.
  The sending fails if it does not take all.
-/
def send
    (stream : Stream)
    (bytes : Bytes) : Except Error Unit × Stream :=
  let taken := bytes.take stream.room
  let after :=
    ⟨stream.received ++ taken, stream.room - taken.length⟩
  if bytes.length ≤ stream.room then
    (.ok (), after)
  else
    (.error .streamFull, after)

end Stream

end BsonView

------------------------------------------------------------
-- Targets
------------------------------------------------------------

namespace BsonView

/- What an element can be written to. -/
inductive Target
| fixed (dest : Bytes)
| growing (dest : Bytes)
| stream (stream : Stream)
deriving DecidableEq, Repr

namespace Element

/- Send the element's encoding to a stream. -/
def send?
    (element : Element)
    (stream : Stream) :
    Option (Except Error Nat × Stream) :=
  match element.encode? with
  | none => none
  | some (.error error) => some (.error error, stream)
  | some (.ok bytes) =>
      let (sent, stream) := stream.send bytes
      some (sent.map fun _ => bytes.length, stream)

/-
  Write the element, key included, at `start`, in as many
  bytes as it was counted to have. A buffer that grows is
  filled up with zeros; a stream has no place but its end,
  which is `start` zero.
-/
def put?
    (element : Element)
    (size start : Nat) :
    Target → Option (Except Error Nat × Target)
| .fixed dest =>
    let written := element.write true start size dest
    some (written.outcome.mapError Failure.error,
      .fixed written.dest)
| .growing dest =>
    if positionLimit ≤ start + size then
      some (.error .endOfFile, .growing dest)
    else do
      let dest ← dest.grown? (start + size)
      let written := element.write true start size dest
      return (written.outcome.mapError Failure.error,
        .growing written.dest)
| .stream stream =>
    if start ≠ 0 then
      some (.error .invalidWriteTarget, .stream stream)
    else do
      let (sent, stream) ← element.send? stream
      return (sent, .stream stream)

/- Validate the element and write it to a target. -/
def writeTo?
    (element : Element)
    (start : Nat)
    (target : Target) :
    Option (Except Error Nat × Target) :=
  match element.validate? with
  | none => none
  | some (.error failure) =>
      some (.error failure.error, target)
  | some (.ok size) => element.put? size start target

end Element

end BsonView
