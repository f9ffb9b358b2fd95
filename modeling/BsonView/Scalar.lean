import BsonView.Framing

/-
  Scalars and their payloads.

  A scalar is a payload with no document inside it. Its
  encoding and its reader stand side by side: the reader
  looks at bytes that begin with the payload.

  Main declarations:
    * `Double`
    * `Block`
    * `Scalar`
    * `Scalar.tag`
    * `Scalar.bytes`
    * `Layout`
    * `Tag.layout`
-/

------------------------------------------------------------
-- Scalars
------------------------------------------------------------

namespace BsonView

/-
  A floating-point number, kept as the bits of its IEEE 754
  binary64 form so that no NaN loses its payload.
-/
structure Double where
  bits : UInt64
deriving DecidableEq, Repr

/- A fixed number of bytes. -/
structure Block (n : Nat) where
  bytes : Bytes
  length_eq : bytes.length = n
deriving DecidableEq, Repr

/- The payloads that hold no document. -/
inductive Scalar
| double (x : Double)
| string (text : String)
| binary (subtype : UInt8) (data : Bytes)
| undefined
| objectId (id : Block 12)
| boolean (b : Bool)
| dateTime (milliseconds : Int64)
| null
| regex (pattern options : String)
| dbPointer (name : String) (id : Block 12)
| javaScript (code : String)
| symbol (text : String)
| int32 (n : Int32)
| timestamp (time increment : UInt32)
| int64 (n : Int64)
| decimal128 (digits : Block 16)
| minKey
| maxKey
deriving DecidableEq, Repr

namespace Block

/- The bytes as a block, if there are as many as asked. -/
def ofBytes?
    (n : Nat)
    (bytes : Bytes) : Option (Block n) :=
  if h : bytes.length = n then
    some ⟨bytes, h⟩
  else
    none

end Block

end BsonView

------------------------------------------------------------
-- Encoding
------------------------------------------------------------

namespace BsonView

namespace Scalar

/- The type of a scalar. -/
def tag : Scalar → Tag
| .double _ => .double
| .string _ => .string
| .binary _ _ => .binary
| .undefined => .undefined
| .objectId _ => .objectId
| .boolean _ => .boolean
| .dateTime _ => .dateTime
| .null => .null
| .regex _ _ => .regex
| .dbPointer _ _ => .dbPointer
| .javaScript _ => .javaScript
| .symbol _ => .symbol
| .int32 _ => .int32
| .timestamp _ _ => .timestamp
| .int64 _ => .int64
| .decimal128 _ => .decimal128
| .minKey => .minKey
| .maxKey => .maxKey

/-
  A string: its length with the null byte, its bytes, and
  the null byte.
-/
def stringBytes (text : String) : Bytes :=
  let bytes := Bytes.ofText text
  Word.ofLength (bytes.length + 1) ++ bytes ++ [0]

/- A string that ends at its first null byte. -/
def cstringBytes (text : String) : Bytes :=
  Bytes.ofText text ++ [0]

/-
  The payload of a scalar. A timestamp stores its increment
  before its time.
-/
def bytes : Scalar → Bytes
| .double x => Word.ofUInt64 x.bits
| .string text => stringBytes text
| .binary subtype data =>
    Word.ofLength data.length ++ [subtype] ++ data
| .undefined => []
| .objectId id => id.bytes
| .boolean b => [b.toUInt8]
| .dateTime milliseconds => Word.ofInt64 milliseconds
| .null => []
| .regex pattern options =>
    cstringBytes pattern ++ cstringBytes options
| .dbPointer name id => stringBytes name ++ id.bytes
| .javaScript code => stringBytes code
| .symbol text => stringBytes text
| .int32 n => Word.ofInt32 n
| .timestamp time increment =>
    Word.ofUInt32 increment ++ Word.ofUInt32 time
| .int64 n => Word.ofInt64 n
| .decimal128 digits => digits.bytes
| .minKey => []
| .maxKey => []

end Scalar

end BsonView

------------------------------------------------------------
-- Readers
------------------------------------------------------------

namespace BsonView

/- The first `n` bytes. -/
def Block.read
    (n : Nat)
    (bytes : Bytes) : Except Error (Block n) :=
  if h : n ≤ bytes.length then
    .ok ⟨bytes.take n, by simp [h]⟩
  else
    .error .endOfFile

namespace Scalar

/- The number at the front. -/
def readDouble (bytes : Bytes) : Except Error Double :=
  return ⟨← Word.readUInt64 bytes⟩

/- The text of the string at the front. -/
def readString (bytes : Bytes) : Except Error String := do
  let total ← Framing.stringLength bytes
  Bytes.text ((bytes.drop 4).take (total - 5))

/-
  The text of the null-terminated string at the front, and
  the bytes after its terminator.
-/
def readCString
    (bytes : Bytes) : Except Error (String × Bytes) := do
  let length ← bytes.cstringLength
  let text ← Bytes.text (bytes.take length)
  return (text, bytes.drop (length + 1))

/- Subtype and data of the binary payload at the front. -/
def readBinary
    (bytes : Bytes) : Except Error (UInt8 × Bytes) := do
  let length ← Framing.payloadLength .binary bytes
  return (bytes.getD 4 0, (bytes.take length).drop 5)

/- The truth value at the front. -/
def readBoolean : Bytes → Except Error Bool
| [] => .error .endOfFile
| 0 :: _ => .ok false
| 1 :: _ => .ok true
| b :: _ => .error (.invalidBoolean b)

/- Pattern and options of the regex at the front. -/
def readRegex
    (bytes : Bytes) : Except Error (String × String) := do
  let (pattern, rest) ← readCString bytes
  let (options, _) ← readCString rest
  return (pattern, options)

/- Name and identifier of the pointer at the front. -/
def readDbPointer
    (bytes : Bytes) :
    Except Error (String × Block 12) := do
  let name ← readString bytes
  let total ← Framing.stringLength bytes
  let id ← Block.read 12 (bytes.drop total)
  return (name, id)

/- Time and increment of the timestamp at the front. -/
def readTimestamp
    (bytes : Bytes) : Except Error (UInt32 × UInt32) := do
  let increment ← Word.readUInt32 bytes
  let time ← Word.readUInt32 (bytes.drop 4)
  return (time, increment)

end Scalar

end BsonView

------------------------------------------------------------
-- Layouts
------------------------------------------------------------

namespace BsonView

/-
  What a payload consists of: a document, an array, code and
  a document, or a scalar, which has a reader.
-/
inductive Layout
| document
| array
| codeWithScope
| scalar (read : Bytes → Except Error Scalar)

namespace Tag

open Scalar in
/- The layout of the payloads of a type. -/
def layout : Tag → Layout
| .double =>
    .scalar fun bytes => .double <$> readDouble bytes
| .string =>
    .scalar fun bytes => .string <$> readString bytes
| .embeddedDocument => .document
| .array => .array
| .binary =>
    .scalar fun bytes => do
      let (subtype, data) ← readBinary bytes
      return .binary subtype data
| .undefined => .scalar fun _ => .ok .undefined
| .objectId =>
    .scalar fun bytes => .objectId <$> Block.read 12 bytes
| .boolean =>
    .scalar fun bytes => .boolean <$> readBoolean bytes
| .dateTime =>
    .scalar fun bytes => .dateTime <$> Word.readInt64 bytes
| .null => .scalar fun _ => .ok .null
| .regex =>
    .scalar fun bytes => do
      let (pattern, options) ← readRegex bytes
      return .regex pattern options
| .dbPointer =>
    .scalar fun bytes => do
      let (name, id) ← readDbPointer bytes
      return .dbPointer name id
| .javaScript =>
    .scalar fun bytes => .javaScript <$> readString bytes
| .symbol =>
    .scalar fun bytes => .symbol <$> readString bytes
| .codeWithScope => .codeWithScope
| .int32 =>
    .scalar fun bytes => .int32 <$> Word.readInt32 bytes
| .timestamp =>
    .scalar fun bytes => do
      let (time, increment) ← readTimestamp bytes
      return .timestamp time increment
| .int64 =>
    .scalar fun bytes => .int64 <$> Word.readInt64 bytes
| .decimal128 =>
    .scalar fun bytes =>
      .decimal128 <$> Block.read 16 bytes
| .minKey => .scalar fun _ => .ok .minKey
| .maxKey => .scalar fun _ => .ok .maxKey

end Tag

end BsonView
