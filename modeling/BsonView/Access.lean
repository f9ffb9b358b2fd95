import BsonView.Reading
import BsonView.Scalar

/-
  Typed access to values.

  Each accessor requires the value to be of its type and
  decodes the payload on the spot. A container that has been
  opened is answered as it stands; any other is split anew.

  Main declarations:
    * `Value.asDouble`
    * `Value.asString`
    * `Value.asDocument`
    * `Value.asArray`
    * `Value.asBinary`
    * `Value.asObjectId`
    * `Value.asBoolean`
    * `Value.asDateTime`
    * `Value.asRegex`
    * `Value.asDbPointer`
    * `Value.asJavaScript`
    * `Value.asSymbol`
    * `Value.asCodeWithScope`
    * `Value.asInt32`
    * `Value.asTimestamp`
    * `Value.asInt64`
    * `Value.asDecimal128`
-/

------------------------------------------------------------
-- Scalars
------------------------------------------------------------

namespace BsonView

namespace Value

/- The number of a double. -/
def asDouble (value : Value) : Except Error Double := do
  value.checkTag .double
  Scalar.readDouble value.rest

/- The text of a string. -/
def asString (value : Value) : Except Error String := do
  value.checkTag .string
  Scalar.readString value.rest

/- Subtype and data of a binary payload. -/
def asBinary
    (value : Value) : Except Error (UInt8 × Bytes) := do
  value.checkTag .binary
  Scalar.readBinary value.rest

/- The bytes of an object identifier. -/
def asObjectId
    (value : Value) : Except Error (Block 12) := do
  value.checkTag .objectId
  Block.read 12 value.rest

/- The truth value of a boolean. -/
def asBoolean (value : Value) : Except Error Bool := do
  value.checkTag .boolean
  Scalar.readBoolean value.rest

/- Milliseconds since the epoch. -/
def asDateTime (value : Value) : Except Error Int64 := do
  value.checkTag .dateTime
  Word.readInt64 value.rest

/- Pattern and options of a regular expression. -/
def asRegex
    (value : Value) : Except Error (String × String) := do
  value.checkTag .regex
  Scalar.readRegex value.rest

/- Name and identifier of a database pointer. -/
def asDbPointer
    (value : Value) :
    Except Error (String × Block 12) := do
  value.checkTag .dbPointer
  Scalar.readDbPointer value.rest

/- The text of a piece of code without a scope. -/
def asJavaScript
    (value : Value) : Except Error String := do
  value.checkTag .javaScript
  Scalar.readString value.rest

/- The text of a symbol. -/
def asSymbol (value : Value) : Except Error String := do
  value.checkTag .symbol
  Scalar.readString value.rest

/- The number of a 32-bit integer. -/
def asInt32 (value : Value) : Except Error Int32 := do
  value.checkTag .int32
  Word.readInt32 value.rest

/- Time and increment of a timestamp. -/
def asTimestamp
    (value : Value) : Except Error (UInt32 × UInt32) := do
  value.checkTag .timestamp
  Scalar.readTimestamp value.rest

/- The number of a 64-bit integer. -/
def asInt64 (value : Value) : Except Error Int64 := do
  value.checkTag .int64
  Word.readInt64 value.rest

/- The sixteen bytes of a decimal number. -/
def asDecimal128
    (value : Value) : Except Error (Block 16) := do
  value.checkTag .decimal128
  Block.read 16 value.rest

end Value

end BsonView

------------------------------------------------------------
-- Containers
------------------------------------------------------------

namespace BsonView

namespace Place

/- The text of the code of a code with scope. -/
def code (place : Place) : Except Error String :=
  Scalar.readString (place.rest.drop 4)

/-
  Length of everything in a code with scope that comes
  before its scope, as the length field of the code says.
-/
def scopeOffset (place : Place) : Except Error Nat := do
  let length ← Word.readLength (place.rest.drop 4)
  return 4 + 4 + length

/- The document that is the payload. -/
def readDocument
    (place : Place) : Except Error Document :=
  Document.readFrom place.buffer place.offset

/- The array that is the payload. -/
def readArray (place : Place) : Except Error ArrayDoc :=
  ArrayDoc.readFrom place.buffer place.offset

/- The scope of a code with scope. -/
def readScope (place : Place) : Except Error Document := do
  let lead ← place.scopeOffset
  Document.readFrom place.buffer (place.offset + lead)

end Place

namespace Value

/- The elements of an embedded document. -/
def asDocument
    (value : Value) : Except Error Document := do
  value.checkTag .embeddedDocument
  match value.payload with
  | .document doc => return doc
  | _ => value.readDocument

/- The values of an array. -/
def asArray (value : Value) : Except Error ArrayDoc := do
  value.checkTag .array
  match value.payload with
  | .array array => return array
  | _ => value.readArray

/- The text and the scope of a code with scope. -/
def asCodeWithScope
    (value : Value) :
    Except Error (String × Document) := do
  value.checkTag .codeWithScope
  let code ← value.code
  match value.payload with
  | .document scope => return (code, scope)
  | _ => return (code, ← value.readScope)

end Value

end BsonView
