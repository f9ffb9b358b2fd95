import BsonView.OuterLength
import BsonView.Proofs.Opening.Steps

/-
  What a caller can do.

  A caller holds views and names them by their slots. An
  operation makes one more view, out of contents, of bytes
  or of views that are held already, or it edits a view at
  the end of a path in one that is held. An operation that
  fails makes nothing and leaves what it has opened open.
  Copies are independent of what they were made from.

  Main declarations:
    * `Making`
    * `Making.result`
    * `Edit`
    * `Edit.apply`
    * `Operation`
    * `Operation.step`
    * `heldAfter`
-/

------------------------------------------------------------
-- Views That Are Held
------------------------------------------------------------

namespace BsonView

/- An outcome is an option that forgets why it failed. -/
theorem toOption_eq_some
    {ε α : Type}
    {outcome : Except ε α}
    {a : α} :
    outcome.toOption = some a ↔ outcome = .ok a := by
  cases outcome <;> simp [Except.toOption]

namespace View

/- The document that a view is. -/
def document? : View → Option Document
| .document d => some d
| _ => none

/- The array that a view is. -/
def array? : View → Option ArrayDoc
| .array a => some a
| _ => none

/- The element that a view is. -/
def element? : View → Option Element
| .element e => some e
| _ => none

end View

end BsonView

------------------------------------------------------------
-- Making Views
------------------------------------------------------------

namespace BsonView

/-
  The ways to make a view. Those of the first group need
  nothing but what is given; those of the second are made
  of views in slots.
-/
inductive Making
| blankValue
| blankElement
| emptyDocument
| emptyArray
| scalar (scalar : Scalar)
| positions (buffer : Bytes) (start offset : Nat)
| readElement (bytes : Bytes)
| readDocument (bytes : Bytes)
| readArray (bytes : Bytes)
| document (slot : Nat)
| array (slot : Nat)
| code (text : String) (slot : Nat)
| element (key : String) (slot : Nat)
| collect (slots : List Nat)
| values (slots : List Nat)
| copy (slot : Nat) (path : List PathStep)
| asDocument (slot : Nat)
| asArray (slot : Nat)
| asScope (slot : Nat)

namespace Making

/-
  The view that is made, if it can be. A view is copied with
  all that is opened in it, also out of another view. From
  slots that hold no element none is collected.
-/
def result (held : List View) : Making → Option View
| .blankValue => some (.value .blank)
| .blankElement => some (.element .blank)
| .emptyDocument => some (.document .empty)
| .emptyArray => some (.array .empty)
| .scalar content => some (.value (.ofScalar content))
| .positions buffer start offset =>
    some (.element (.ofPositions buffer start offset))
| .readElement bytes => do
    let element ← (Element.read bytes).toOption
    return .element element
| .readDocument bytes => do
    let doc ← (Document.read bytes).toOption
    return .document doc
| .readArray bytes => do
    let array ← (ArrayDoc.read bytes).toOption
    return .array array
| .document slot => do
    let doc ← held[slot]?.bind View.document?
    return .value (.ofDocument doc)
| .array slot => do
    let array ← held[slot]?.bind View.array?
    return .value (.ofArray array)
| .code text slot => do
    let scope ← held[slot]?.bind View.document?
    return .value (.ofCode text scope)
| .element key slot => do
    let value ← held[slot]?.bind View.value?
    let element ← Element.make? key value
    return .element element
| .collect slots =>
    some (.document ⟨slots.filterMap fun slot =>
      held[slot]?.bind View.element?⟩)
| .values slots => do
    let values :=
      slots.filterMap fun slot =>
        held[slot]?.bind View.value?
    let array ← (ArrayDoc.ofValues values).toOption
    return .array array
| .copy slot path => do
    let view ← held[slot]?
    (view.lookAlong path).toOption
| .asDocument slot => do
    let value ← held[slot]?.bind View.value?
    let doc ← value.asDocument.toOption
    return .document doc
| .asArray slot => do
    let value ← held[slot]?.bind View.value?
    let array ← value.asArray.toOption
    return .array array
| .asScope slot => do
    let value ← held[slot]?.bind View.value?
    let (_, scope) ← value.asCodeWithScope.toOption
    return .document scope

end Making

end BsonView

------------------------------------------------------------
-- Editing Views
------------------------------------------------------------

namespace BsonView

/-
  The ways to edit a view in place, with values, elements
  and other views out of slots.
-/
inductive Edit
| set (key : String) (slot : Nat)
| append (slot : Nat)
| remove (key : String)
| push (slot : Nat)
| removeAt (index : Nat)
| overwrite (slot : Nat)
| normalize

namespace Edit

/- The view after the edit, if the edit can be made. -/
def attempt (held : List View) :
    Edit → View → Option View
| .set key slot, .document doc => do
    let value ← held[slot]?.bind View.value?
    let (changed, _) ← (doc.set key value).toOption
    return .document changed
| .append slot, .document doc => do
    let element ← held[slot]?.bind View.element?
    return .document (doc.push element)
| .remove key, .document doc => do
    let (changed, _) ← doc.erase? key
    return .document changed
| .push slot, .array items => do
    let value ← held[slot]?.bind View.value?
    let changed ← (items.push value).toOption
    return .array changed
| .removeAt index, .array items => do
    let (changed, _) ← items.erase? index
    return .array changed
| .overwrite slot, view => do
    let other ← held[slot]?
    if other.sameKind view then
      return other
    none
| .normalize, .document doc =>
    some (.document doc.normalizeLengths.2)
| .normalize, .element element =>
    some (.element element.normalizeLength.2)
| .normalize, .value value =>
    some (.value value.normalizeLength.2)
| _, _ => none

/- The view after the edit, or as it was. -/
def apply
    (held : List View)
    (edit : Edit)
    (view : View) : View :=
  (edit.attempt held view).getD view

end Edit

end BsonView

------------------------------------------------------------
-- Sessions
------------------------------------------------------------

namespace BsonView

/- What a caller does: make a view, or edit one. -/
inductive Operation
| make (making : Making)
| edit (slot : Nat) (path : List PathStep) (edit : Edit)

namespace Operation

/- What is held after an operation. -/
def step
    (held : List View) :
    Operation → List View
| .make making => held ++ (making.result held).toList
| .edit slot path change =>
    held.modify slot fun view =>
      (View.actAt
        (fun inner => ((), change.apply held inner))
        path view).2

end Operation

/-
  What is held after some operations, one after the other,
  by a caller who held nothing before.
-/
def heldAfter (operations : List Operation) : List View :=
  operations.foldl Operation.step []

/-
  What every operation leaves true of all views that are
  held is true of them after any operations that are
  `Allowed`.
-/
theorem heldAfter_keeps
    {Kept : View → Prop}
    {Allowed : Operation → Prop}
    (hStep :
      ∀ {operation : Operation} {held : List View},
        Allowed operation → (∀ view ∈ held, Kept view) →
          ∀ view ∈ operation.step held, Kept view)
    {operations : List Operation}
    (hAllowed :
      ∀ operation ∈ operations, Allowed operation) :
    ∀ view ∈ heldAfter operations, Kept view := by
  have hRun (held : List View)
      (hHeld : ∀ view ∈ held, Kept view) :
      ∀ view ∈ operations.foldl Operation.step held,
        Kept view := by
    induction operations generalizing held with
    | nil => exact hHeld
    | cons operation rest ih =>
        rcases List.forall_mem_cons.mp hAllowed with
          ⟨hFirst, hRest⟩
        exact ih hRest _ (hStep hFirst hHeld)
  exact hRun [] (by simp)

end BsonView
