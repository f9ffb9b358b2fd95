import BsonView.Decimal.Binary64
import BsonView.Snapshot
import BsonView.Text.Quoted

/-
  The texts of views.

  A text shows what is seen in a view. What cannot be read
  shows as a placeholder, and the rest around it is shown
  all the same.

  Main declarations:
    * `Scalar.text`
    * `Snapshot.text`
    * `Value.text`
    * `Value.typedText`
    * `Element.text`
    * `Document.text`
    * `ArrayDoc.text`
-/

------------------------------------------------------------
-- Scalars
------------------------------------------------------------

namespace BsonView

/- Bytes as decimal numbers in brackets. -/
def Bytes.listText (bytes : Bytes) : String :=
  "[" ++
    String.intercalate ", "
      (bytes.map fun b => toString b.toNat) ++
    "]"

namespace Scalar

/- A scalar as it is shown. -/
def text : Scalar → String
| .double x => x.text
| .string text => Quoted.quote text
| .binary subtype data =>
    "Binary(0x" ++ Hex.pair subtype ++ ", " ++
      Bytes.listText data ++ ")"
| .undefined => "undefined"
| .objectId id =>
    "ObjectID(\"" ++ Hex.pairs id.bytes ++ "\")"
| .boolean b => if b then "true" else "false"
| .dateTime milliseconds =>
    "DateTime(" ++ toString milliseconds.toInt ++ ")"
| .null => "null"
| .regex pattern options =>
    "/" ++ pattern ++ "/" ++ options
| .dbPointer name _ =>
    "DBPointer(" ++ Quoted.quote name ++ ")"
| .javaScript code =>
    "JavaScript(" ++ Quoted.quote code ++ ")"
| .symbol text =>
    "Symbol(" ++ Quoted.quote text ++ ")"
| .int32 n => toString n.toInt
| .timestamp time increment =>
    "Timestamp(" ++ toString time.toNat ++ ", " ++
      toString increment.toNat ++ ")"
| .int64 n => toString n.toInt
| .decimal128 digits =>
    "Decimal128(" ++ Bytes.listText digits.bytes ++ ")"
| .minKey => "MinKey"
| .maxKey => "MaxKey"

end Scalar

end BsonView

------------------------------------------------------------
-- Snapshots
------------------------------------------------------------

namespace BsonView

/- Element texts as the text of their document. -/
def documentText (elements : List String) : String :=
  "bson.Document\x7b" ++
    String.intercalate ", " elements ++ "\x7d"

/- Value texts as the text of their array. -/
def arrayText (values : List String) : String :=
  "bson.Array[" ++ String.intercalate ", " values ++ "]"

/- The text of an element whose value has a given text. -/
def elementText
    (key? : Option String)
    (tag : Except Error Tag)
    (value : String) : String :=
  match tag, key? with
  | .ok tag, some key =>
      "bson.Element\x7b[" ++ tag.name ++ "]" ++
        Quoted.quote key ++ ": " ++ value ++ "\x7d"
  | _, _ => "bson.Element\x7b<invalid>\x7d"

mutual

/- A value as it is shown. -/
def Snapshot.text : Snapshot → String
| .blank => "<uninitialized>"
| .foreign _ => "<uninitialized>"
| .unreadable _ _ => "<invalid>"
| .scalar _ content _ =>
    match content with
    | .ok scalar => scalar.text
    | .error _ => "<invalid>"
| .document entries =>
    documentText (entryTexts entries)
| .array values => arrayText (snapshotTexts values)
| .code text scope =>
    "CodeWithScope(" ++ Quoted.quote text ++ ", " ++
      documentText (entryTexts scope) ++ ")"

/- Elements as they are shown. -/
def entryTexts : List Entry → List String
| [] => []
| ⟨key?, value⟩ :: rest =>
    elementText key? value.tag value.text ::
      entryTexts rest

/- Values as they are shown. -/
def snapshotTexts : List Snapshot → List String
| [] => []
| value :: rest => value.text :: snapshotTexts rest

end

end BsonView

------------------------------------------------------------
-- Views
------------------------------------------------------------

namespace BsonView

namespace Value

/- The text of a value. -/
def text (value : Value) : String :=
  value.snapshot.text

/- The text of a value with the name of its type. -/
def typedText (value : Value) : String :=
  match value.tag with
  | .ok tag =>
      "Value[" ++ tag.name ++ "](" ++ value.text ++ ")"
  | .error _ => "Value(<uninitialized>)"

end Value

namespace Element

/- The text of an element. -/
def text (element : Element) : String :=
  elementText element.key? element.value.tag
    element.value.text

end Element

namespace Document

/- The text of a document. -/
def text (doc : Document) : String :=
  documentText (entryTexts doc.entries)

end Document

namespace ArrayDoc

/- The text of an array. -/
def text (array : ArrayDoc) : String :=
  arrayText (snapshotTexts array.snapshots)

end ArrayDoc

end BsonView
