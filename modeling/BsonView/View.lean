import BsonView.Datum
import BsonView.Display
import BsonView.Editing
import BsonView.Opening
import BsonView.Validation.Views

/-
  Views of any kind, and paths to the views inside them.

  A path leads from a view to one inside it, step by step:
  by key, by position, to the value of an element, or into a
  container, which is opened on the way. Acting at the end
  of a path changes the views along it and nothing beside
  it. A path that cannot be followed to its end still leaves
  open what it has opened.

  Main declarations:
    * `View`
    * `View.text`
    * `View.typedText`
    * `View.validateWith`
    * `View.datum`
    * `View.openAll`
    * `PathStep`
    * `Obstacle`
    * `View.actAt`
-/

------------------------------------------------------------
-- Views
------------------------------------------------------------

namespace BsonView

/- A view of any kind. -/
inductive View
| document (doc : Document)
| array (array : ArrayDoc)
| element (element : Element)
| value (value : Value)

namespace View

/- The text of a view. -/
def text : View → String
| .document d => d.text
| .array a => a.text
| .element e => e.text
| .value v => v.text

/- The text of a view, a value's with its type. -/
def typedText : View → String
| .value v => v.typedText
| view => view.text

/- Validate a view within limits. -/
def validateWith
    (limits : Limits) :
    View → Except Failure Nat
| .document d => d.validateWith limits
| .array a => a.validateWith limits
| .element e => e.validateWith limits
| .value v => v.validateWith limits

/- The data of a view. -/
def datum : View → Except Error Datum
| .document d => d.datum
| .array a => a.datum
| .element e => e.datum
| .value v => v.datum

/- Open all containers in a view and count them. -/
def openAll : View → Except Error Nat × View
| .document d => d.openAll.map id .document
| .array a => a.openAll.map id .array
| .element e => e.openAll.map id .element
| .value v => v.openAll.map id .value

/- The value of a view that is or has a single one. -/
def value? : View → Option Value
| .value v => some v
| .element e => some e.value
| _ => none

/- The view with its single value replaced. -/
def withValue
    (view : View)
    (value : Value) : View :=
  match view with
  | .value _ => .value value
  | .element _ => .element ⟨value⟩
  | view => view

end View

end BsonView

------------------------------------------------------------
-- Paths
------------------------------------------------------------

namespace BsonView

/- One step of a path. -/
inductive PathStep
| key (key : String)
| index (index : Nat)
| value
| document
| array
| scope
deriving DecidableEq, Repr

/- What can keep a step from being taken. -/
inductive Obstacle
| missing (step : PathStep)
| failed (error : Error)

namespace View

/- Put an element back where one was taken from. -/
def putElement
    (doc : Document)
    (index : Nat) :
    View → View
| .element e => .document (doc.replaceAt index e)
| _ => .document doc

/- Put a value back where one was taken from. -/
def putValue
    (items : ArrayDoc)
    (index : Nat) :
    View → View
| .value v => .array (items.replaceAt index v)
| _ => .array items

/- Put a container back into the value it was opened in. -/
def putContainer
    (outer : View)
    (value : Value) :
    View → View
| .document d =>
    outer.withValue (value.holding (.document d))
| .array a =>
    outer.withValue (value.holding (.array a))
| _ => outer

/- Open the container that a step leads into. -/
def enter
    (step : PathStep)
    (value : Value) : Except Obstacle View :=
  match step with
  | .document =>
      (.document <$> value.openDocument).mapError .failed
  | .array =>
      (.array <$> value.openArray).mapError .failed
  | .scope =>
      (.document <$> value.openScope).mapError .failed
  | step => .error (.missing step)

/-
  The view that a step leads to, and how to put a changed
  view back in its place.
-/
def follow
    (step : PathStep)
    (view : View) :
    Except Obstacle (View × (View → View)) :=
  match step, view with
  | .key key, .document doc =>
      match doc.position? key, doc.find? key with
      | some index, some e =>
          .ok (.element e, putElement doc index)
      | _, _ => .error (.missing step)
  | .index index, .document doc =>
      match doc.elements[index]? with
      | some e => .ok (.element e, putElement doc index)
      | none => .error (.missing step)
  | .index index, .array items =>
      match items.get? index with
      | some v => .ok (.value v, putValue items index)
      | none => .error (.missing step)
  | .value, view =>
      match view.value? with
      | some v =>
          .ok (.value v, fun inner =>
            match inner with
            | .value v => view.withValue v
            | _ => view)
      | none => .error (.missing step)
  | step, view =>
      match view.value? with
      | some v => do
          let inner ← enter step v
          return (inner, putContainer view v)
      | none => .error (.missing step)

/-
  Act on the view at the end of a path. The action answers
  and leaves a view of the same kind.
-/
def actAt
    {α : Type}
    (act : View → α × View) :
    List PathStep → View → Except Obstacle α × View
| [], view =>
    let (answer, changed) := act view
    (.ok answer, changed)
| step :: rest, view =>
    match view.follow step with
    | .error obstacle => (.error obstacle, view)
    | .ok (inner, putBack) =>
        let (answer, changed) := actAt act rest inner
        (answer, putBack changed)

end View

end BsonView
