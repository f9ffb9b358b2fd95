/-
  The type bytes of the format.

  Every element starts with one byte that says how its
  payload is laid out. Twenty-one bytes are assigned; all
  others are foreign to the format.

  Main declarations:
    * `Tag`
    * `Tag.byte`
    * `Tag.ofByte?`
    * `Tag.name`
    * `Tag.fixedWidth?`
    * `Tag.isContainer`
    * `Tag.isScalar`
-/

------------------------------------------------------------
-- Type Bytes
------------------------------------------------------------

namespace BsonView

/- The payload types of the format. -/
inductive Tag
| double
| string
| embeddedDocument
| array
| binary
| undefined
| objectId
| boolean
| dateTime
| null
| regex
| dbPointer
| javaScript
| symbol
| codeWithScope
| int32
| timestamp
| int64
| decimal128
| maxKey
| minKey
deriving DecidableEq, Repr

namespace Tag

/- The byte that announces a payload of this type. -/
def byte : Tag → UInt8
| .double => 0x01
| .string => 0x02
| .embeddedDocument => 0x03
| .array => 0x04
| .binary => 0x05
| .undefined => 0x06
| .objectId => 0x07
| .boolean => 0x08
| .dateTime => 0x09
| .null => 0x0A
| .regex => 0x0B
| .dbPointer => 0x0C
| .javaScript => 0x0D
| .symbol => 0x0E
| .codeWithScope => 0x0F
| .int32 => 0x10
| .timestamp => 0x11
| .int64 => 0x12
| .decimal128 => 0x13
| .maxKey => 0x7F
| .minKey => 0xFF

/- The type a byte announces, if it is assigned. -/
def ofByte? : UInt8 → Option Tag
| 0x01 => some .double
| 0x02 => some .string
| 0x03 => some .embeddedDocument
| 0x04 => some .array
| 0x05 => some .binary
| 0x06 => some .undefined
| 0x07 => some .objectId
| 0x08 => some .boolean
| 0x09 => some .dateTime
| 0x0A => some .null
| 0x0B => some .regex
| 0x0C => some .dbPointer
| 0x0D => some .javaScript
| 0x0E => some .symbol
| 0x0F => some .codeWithScope
| 0x10 => some .int32
| 0x11 => some .timestamp
| 0x12 => some .int64
| 0x13 => some .decimal128
| 0x7F => some .maxKey
| 0xFF => some .minKey
| _ => none

/- The words a reader is told for a type. -/
def name : Tag → String
| .double => "double"
| .string => "string"
| .embeddedDocument => "embedded document"
| .array => "array"
| .binary => "binary"
| .undefined => "undefined"
| .objectId => "objectID"
| .boolean => "boolean"
| .dateTime => "UTC datetime"
| .null => "null"
| .regex => "regex"
| .dbPointer => "dbPointer"
| .javaScript => "javascript"
| .symbol => "symbol"
| .codeWithScope => "code with scope"
| .int32 => "32-bit integer"
| .timestamp => "timestamp"
| .int64 => "64-bit integer"
| .decimal128 => "128-bit decimal"
| .maxKey => "max key"
| .minKey => "min key"

/-
  Payload width of the types whose payloads all have one
  width; `none` for those that announce their own length.
-/
def fixedWidth? : Tag → Option Nat
| .undefined | .null | .minKey | .maxKey => some 0
| .boolean => some 1
| .int32 => some 4
| .double | .dateTime | .timestamp | .int64 => some 8
| .objectId => some 12
| .decimal128 => some 16
| _ => none

/- The types whose whole payload is a nested document. -/
def isContainer : Tag → Bool
| .embeddedDocument | .array => true
| _ => false

/- The types whose payloads hold no document. -/
def isScalar : Tag → Bool
| .embeddedDocument | .array | .codeWithScope => false
| _ => true

/- The types whose whole payload is a string. -/
def isText : Tag → Bool
| .string | .javaScript | .symbol => true
| _ => false

/- A payload is a document, has one at its end, or none. -/
theorem kinds
    (tag : Tag) :
    tag.isContainer = true ∨ tag = .codeWithScope ∨
      tag.isScalar = true := by
  cases tag <;> simp [isContainer, isScalar]

theorem isContainer_of_isScalar
    {tag : Tag}
    (hScalar : tag.isScalar = true) :
    tag.isContainer = false := by
  cases tag <;> simp_all [isContainer, isScalar]

theorem ne_codeWithScope_of_isScalar
    {tag : Tag}
    (hScalar : tag.isScalar = true) :
    tag ≠ .codeWithScope := by
  rintro rfl
  cases hScalar

/- Reading back the byte of a type gives that type. -/
@[simp] theorem ofByte?_byte
    (tag : Tag) :
    ofByte? tag.byte = some tag := by
  cases tag <;> rfl

/- A byte that announces a type is that type's byte. -/
theorem byte_of_ofByte?_eq_some
    {b : UInt8}
    {tag : Tag}
    (hTag : ofByte? b = some tag) :
    tag.byte = b := by
  unfold ofByte? at hTag
  split at hTag <;> cases hTag <;> rfl

/- Different types have different bytes. -/
theorem byte_injective
    {a b : Tag}
    (hByte : a.byte = b.byte) :
    a = b := by
  have hTag := ofByte?_byte a
  rw [hByte, ofByte?_byte] at hTag
  exact (Option.some.inj hTag).symm

/- No type is announced by the null byte. -/
theorem byte_ne_zero
    (tag : Tag) :
    tag.byte ≠ 0 := by
  cases tag <;> decide

end Tag

end BsonView
