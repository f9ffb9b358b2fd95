import BsonView.Access
import BsonView.Validation.Views

/-
  Writing views into destinations of a fixed length.

  A payload in a buffer is copied as it is. An opened
  container takes only its framing from its buffer and
  writes itself after it; its length field is filled in when
  its end is known. The outer length of a code with scope is
  made to agree with its string and its scope, in the
  destination only. Writing never changes a view.

  A write that fails leaves what it has placed.

  Main declarations:
    * `Write`
    * `Written`
    * `Value.emit`
    * `Document.emit`
    * `ArrayDoc.emit`
    * `Element.write`
    * `Document.write`
    * `ArrayDoc.write`
    * `Element.encode`
    * `Document.encode`
    * `ArrayDoc.encode`
-/

------------------------------------------------------------
-- Writes
------------------------------------------------------------

namespace BsonView

/-
  A computation that changes a destination. What it changed
  before it failed stays changed.
-/
def Write (α : Type) : Type :=
  Bytes → Except Failure α × Bytes

/- How a write ended and the destination as it left it. -/
structure Written where
  outcome : Except Failure Nat
  dest : Bytes

/- What follows a part works on what that part left. -/
instance : Monad Write where
  pure a := fun dest => (.ok a, dest)
  bind first next := fun dest =>
    match first dest with
    | (.ok a, dest) => next a dest
    | (.error failure, dest) => (.error failure, dest)

/- An answer that needs no destination. -/
instance : MonadLift (Except Failure) Write where
  monadLift outcome := fun dest => (outcome, dest)

namespace Write

/- Stop with a failure. -/
def fail
    {α : Type}
    (failure : Failure) : Write α :=
  fun dest => (.error failure, dest)

/- A failure counts the bytes placed before this part. -/
def after
    {α : Type}
    (n : Nat)
    (action : Write α) : Write α :=
  fun dest =>
    match action dest with
    | (.ok a, dest) => (.ok a, dest)
    | (.error failure, dest) =>
        (.error (failure.after n), dest)

/-
  Copy bytes to a position, where all of them have to fit,
  and answer how many they are.
-/
def copy
    (start : Nat)
    (source : Bytes) : Write Nat :=
  fun dest =>
    let stop := start + source.length
    if stop ≤ dest.length then
      (.ok source.length, dest.overwrite start source)
    else
      (.error
        ((Error.destinationTooSmall
          stop dest.length).after 0), dest)

/- Put a 32-bit word at a position. -/
def putInt32
    (start : Nat)
    (n : Int32) : Write Unit :=
  fun dest =>
    match Word.putInt32 dest start n with
    | .ok dest => (.ok (), dest)
    | .error error => (.error (error.after 0), dest)

/- Put the length field of a length at a position. -/
def putLength
    (start length : Nat) : Write Unit := do
  let field ← Word.lengthField length
  putInt32 start field

/-
  Leave room for a length field and answer the position
  after it.
-/
def reserve (start : Nat) : Write Nat :=
  fun dest =>
    let stop := start + 4
    if stop ≤ dest.length then
      (.ok stop, dest)
    else
      (.error
        ((Error.destinationTooSmall
          stop dest.length).after 0), dest)

/-
  Close the document that began at `start` with a null byte
  at `pos`, fill in its length field and answer its length.
-/
def close
    (start pos : Nat) : Write Nat := do
  let closing ← after (pos - start) (copy pos [0])
  let length := pos + closing - start
  let field ← Word.lengthField length
  after length (putInt32 start field)
  return length

/-
  Write into the bytes before `stop`; those from there on
  are out of reach.
-/
def within
    (stop : Nat)
    (action : Write Nat)
    (dest : Bytes) : Written :=
  let (outcome, window) := action (dest.take stop)
  ⟨outcome, window ++ dest.drop stop⟩

end Write

end BsonView

------------------------------------------------------------
-- Payloads In Buffers
------------------------------------------------------------

namespace BsonView

namespace Place

/- The bytes between two positions of the buffer. -/
def slice
    (place : Place)
    (first stop : Nat) : Except Error Bytes :=
  if first ≤ stop ∧ stop ≤ place.buffer.length then
    .ok ((place.buffer.take stop).drop first)
  else
    .error .endOfFile

/- Size of an element whose payload is in the buffer. -/
def rawSize (place : Place) : Except Error Nat := do
  let tag ← place.tag
  let length ← Framing.payloadLength tag place.rest
  return place.headerLength + length

/- Copy the element's bytes from `first` on. -/
def copyRaw
    (place : Place)
    (first size start : Nat) : Write Nat := do
  let source ← place.slice first (place.start + size)
  Write.copy start source

/-
  The outer length that a code with scope declares, and the
  one that agrees with its string and its scope.
-/
def outerLengths
    (place : Place) : Except Error (Int32 × Int32) := do
  let lead ← place.scopeOffset
  let scope ← Word.readLength (place.rest.drop lead)
  let total ← Word.lengthField (lead + scope)
  let declared ← Word.readInt32 place.rest
  return (declared, total)

/-
  Copy the bytes of a code with scope from `first` on, and
  correct the outer length in the copy if it disagrees.
-/
def copyRawCode
    (place : Place)
    (first size start : Nat) : Write Nat := do
  let (declared, total) ← place.outerLengths
  let n ← place.copyRaw first size start
  if declared ≠ total then
    Write.after n
      (Write.putInt32
        (start + (place.offset - first)) total)
  return n

end Place

end BsonView

------------------------------------------------------------
-- Views
------------------------------------------------------------

namespace BsonView

mutual

/-
  Write a value at `start`, with its type byte and key if
  `keyed`. The size of its element is given or else taken
  from its framing.
-/
def Value.emit
    (keyed : Bool)
    (size? : Option Nat)
    (start : Nat) :
    Value → Write Nat
| ⟨place, payload⟩ => do
    let first :=
      if keyed then place.start else place.offset
    let tag ← place.tag
    payload.emit place tag first size? start

/- Write the payload of a place that has a type. -/
def Payload.emit
    (place : Place)
    (tag : Tag)
    (first : Nat)
    (size? : Option Nat)
    (start : Nat) :
    Payload → Write Nat
| .raw => do
    let size ←
      match size? with
      | some size => pure size
      | none => liftM place.rawSize
    match tag with
    | .codeWithScope => place.copyRawCode first size start
    | _ => place.copyRaw first size start
| .document doc =>
    match tag with
    | .embeddedDocument => do
        let header ← place.slice first place.offset
        let n ← Write.copy start header
        let body ← Write.after n (doc.emit (start + n))
        return n + body
    | .codeWithScope => do
        let lead ← place.scopeOffset
        let framing ←
          place.slice first (place.offset + lead)
        let n ← Write.copy start framing
        let body ← Write.after n (doc.emit (start + n))
        Write.after (n + body)
          (Write.putLength
            (start + (place.offset - first))
            (lead + body))
        return n + body
    | tag =>
        Write.fail
          ((Error.typeMismatch
            .embeddedDocument tag).after 0)
| .array array =>
    match tag with
    | .array => do
        let header ← place.slice first place.offset
        let n ← Write.copy start header
        let body ← Write.after n (array.emit (start + n))
        return n + body
    | tag =>
        Write.fail
          ((Error.typeMismatch .array tag).after 0)

/- Write a document and answer its length. -/
def Document.emit
    (start : Nat) :
    Document → Write Nat
| ⟨elements⟩ => do
    let pos ← Write.reserve start
    let pos ← emitElements start pos elements
    Write.close start pos

/- Write an array with index keys and answer its length. -/
def ArrayDoc.emit
    (start : Nat) :
    ArrayDoc → Write Nat
| ⟨elements⟩ => do
    let pos ← Write.reserve start
    let pos ← emitValues start 0 pos elements
    Write.close start pos

/-
  Write elements from `pos` on, in the document that began
  at `start`, and answer the position after them.
-/
def emitElements
    (start pos : Nat) :
    List Element → Write Nat
| [] => return pos
| ⟨value⟩ :: rest => do
    let n ←
      Write.after (pos - start)
        (value.emit true none pos)
    emitElements start (pos + n) rest

/-
  Write values from `pos` on, each with its position as its
  key, and answer the position after them.
-/
def emitValues
    (start index pos : Nat) :
    List Element → Write Nat
| [] => return pos
| ⟨value⟩ :: rest => do
    let tag ←
      Write.after (pos - start) (liftM value.tag)
    let header :=
      tag.byte :: Index.digits index ++ [0]
    let n ←
      Write.after (pos - start) (Write.copy pos header)
    let pos := pos + n
    let n ←
      Write.after (pos - start)
        (value.emit false none pos)
    emitValues start (index + 1) (pos + n) rest

end

end BsonView

------------------------------------------------------------
-- Into A Part Of A Destination
------------------------------------------------------------

namespace BsonView

/- Positions are 64-bit numbers. -/
def positionLimit : Nat := 18446744073709551616

namespace Write

/-
  Check that a part of the destination is there, and write
  into it and the bytes before it.
-/
def into
    (start length : Nat)
    (action : Write Nat)
    (dest : Bytes) : Written :=
  let stop := start + length
  if positionLimit ≤ stop then
    ⟨throw (Error.endOfFile.after 0), dest⟩
  else if dest.length < stop then
    ⟨throw
      ((Error.destinationTooSmall
        stop dest.length).after 0), dest⟩
  else
    within stop action dest

end Write

namespace Element

/-
  Write the element at `start`, or its payload alone if not
  `keyed`. Its size is the one that validation answers; no
  byte beyond the room it asks for is touched.
-/
def write
    (element : Element)
    (keyed : Bool)
    (start size : Nat)
    (dest : Bytes) : Written :=
  let value := element.value
  let header := value.headerLength
  if !value.isInitialized then
    ⟨throw (Error.uninitializedValue.after 0), dest⟩
  else if size < header then
    ⟨throw
      ((Error.invalidLength size header).after 0), dest⟩
  else
    let length := if keyed then size else size - header
    Write.into start length
      (value.emit keyed (some size) start) dest

end Element

namespace Document

/-
  Write the document at `start`, in as many bytes as `size`
  says.
-/
def write
    (doc : Document)
    (start size : Nat)
    (dest : Bytes) : Written :=
  Write.into start size (doc.emit start) dest

end Document

namespace ArrayDoc

/-
  Write the array at `start`, in as many bytes as `size`
  says.
-/
def write
    (array : ArrayDoc)
    (start size : Nat)
    (dest : Bytes) : Written :=
  Write.into start size (array.emit start) dest

end ArrayDoc

end BsonView

------------------------------------------------------------
-- Into Bytes Of Their Own
------------------------------------------------------------

namespace BsonView

/-
  Validate a view and write it into as many zero bytes as it
  needs.
-/
def encodeWith
    (size : Except Failure Nat)
    (write : Nat → Bytes → Written) :
    Except Error Bytes := do
  let size ← size.mapError Failure.error
  let written := write size (List.replicate size 0)
  let _ ← written.outcome.mapError Failure.error
  return written.dest

namespace Element

/- The encoding of the element. -/
def encode (element : Element) : Except Error Bytes :=
  encodeWith element.validate (element.write true 0)

end Element

namespace Document

/- The encoding of the document. -/
def encode (doc : Document) : Except Error Bytes :=
  encodeWith doc.validate (doc.write 0)

end Document

namespace ArrayDoc

/- The encoding of the array. -/
def encode (array : ArrayDoc) : Except Error Bytes :=
  encodeWith array.validate (array.write 0)

end ArrayDoc

end BsonView
