import BsonView.Snapshot

/-
  Views as data trees.

  A data tree is what a view offers to other formats: maps,
  sequences and plain values. Documents are maps in the
  order of their elements, repeated keys included. Types
  that other formats lack become tuples. A view with
  anything unreadable in it has no tree, and the first
  failure in order is told by its text alone.

  Main declarations:
    * `Datum`
    * `Scalar.datum`
    * `Snapshot.datum`
    * `Value.datum`
    * `Element.datum`
    * `Document.datum`
    * `ArrayDoc.datum`
-/

------------------------------------------------------------
-- Data Trees
------------------------------------------------------------

namespace BsonView

/- Data without a format. -/
inductive Datum where
| bool (b : Bool)
| int32 (n : Int32)
| int64 (n : Int64)
| uint8 (n : UInt8)
| uint32 (n : UInt32)
| double (x : Double)
| string (text : String)
| bytes (bytes : Bytes)
| unit
| sequence (members : List Datum)
| tuple (members : List Datum)
| map (entries : List (String × Datum))

namespace Scalar

/- The data of a scalar. -/
def datum : Scalar → Datum
| .double x => .double x
| .string text => .string text
| .binary subtype data =>
    .tuple [.uint8 subtype, .bytes data]
| .undefined => .unit
| .objectId id => .bytes id.bytes
| .boolean b => .bool b
| .dateTime milliseconds => .int64 milliseconds
| .null => .unit
| .regex pattern options =>
    .tuple [.string pattern, .string options]
| .dbPointer name id =>
    .tuple [.string name, .bytes id.bytes]
| .javaScript code => .string code
| .symbol text => .string text
| .int32 n => .int32 n
| .timestamp time increment =>
    .tuple [.uint32 time, .uint32 increment]
| .int64 n => .int64 n
| .decimal128 digits => .bytes digits.bytes
| .minKey => .unit
| .maxKey => .unit

end Scalar

end BsonView

------------------------------------------------------------
-- Snapshots
------------------------------------------------------------

namespace BsonView

/- An error that is told by its text alone. -/
def Error.told (error : Error) : Error :=
  .custom error.message

/- The key that an element needs to be part of a map. -/
def mapKey (key? : Option String) : Except Error String :=
  match key? with
  | some key => .ok key
  | none => .error Error.invalidKey.told

mutual

/- The data seen in a value. -/
def Snapshot.datum : Snapshot → Except Error Datum
| .blank => .error Error.uninitializedValue.told
| .foreign b => .error (Error.invalidTag b).told
| .unreadable _ error => .error error.told
| .scalar _ content _ =>
    match content with
    | .ok scalar => .ok scalar.datum
    | .error error => .error error.told
| .document entries => .map <$> entriesData entries
| .array values => .sequence <$> snapshotsData values
| .code text scope => do
    let scope ← entriesData scope
    return .tuple [.string text, .map scope]

/- The data seen in elements. -/
def entriesData :
    List Entry → Except Error (List (String × Datum))
| [] => .ok []
| ⟨key?, value⟩ :: rest => do
    let key ← mapKey key?
    let datum ← value.datum
    return (key, datum) :: (← entriesData rest)

/- The data seen in values. -/
def snapshotsData :
    List Snapshot → Except Error (List Datum)
| [] => .ok []
| value :: rest => do
    let datum ← value.datum
    return datum :: (← snapshotsData rest)

end

end BsonView

------------------------------------------------------------
-- Views
------------------------------------------------------------

namespace BsonView

namespace Value

/- The data of a value. -/
def datum (value : Value) : Except Error Datum :=
  value.snapshot.datum

end Value

namespace Document

/- The data of a document. -/
def datum (doc : Document) : Except Error Datum :=
  .map <$> entriesData doc.entries

end Document

namespace ArrayDoc

/- The data of an array. -/
def datum (array : ArrayDoc) : Except Error Datum :=
  .sequence <$> snapshotsData array.snapshots

end ArrayDoc

namespace Element

/- The data of an element: a map with one entry. -/
def datum (element : Element) : Except Error Datum :=
  .map <$> entriesData [element.entry]

end Element

end BsonView
