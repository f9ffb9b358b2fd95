import BsonView.Proofs.Opening.Steps

/-
  Openings along paths.

  Following a path opens the containers on its way and edits
  nothing. What this does to a view is described once, by
  the relation of a view to the same view with containers
  opened; what every such opening keeps is kept by openings
  along any number of paths, one after the other.

  Main declarations:
    * `View.place?`
    * `View.openAlong`
    * `View.openEach`
    * `View.DecodesOnly`
    * `View.Opens`
    * `View.Opens.putBack`
    * `View.openAlong_opens`
    * `View.openEach_document`
-/

------------------------------------------------------------
-- Following Paths
------------------------------------------------------------

namespace BsonView

namespace View

/- The place of a view that is or has a single value. -/
def place? (view : View) : Option Place :=
  view.value?.map Value.toPlace

/- Open the containers along a path, as far as it leads. -/
def openAlong
    (view : View)
    (path : List PathStep) : View :=
  (actAt (fun inner => ((), inner)) path view).2

/- Open the containers along one path after the other. -/
def openEach
    (view : View)
    (paths : List (List PathStep)) : View :=
  paths.foldl openAlong view

/-
  Every array that is taken out of a buffer along a path is
  as `Allowed` says.
-/
def DecodesOnly
    (Allowed : ArrayDoc → Prop) :
    List PathStep → View → Prop
| [], _ => True
| step :: rest, view =>
    (∀ value array, step = .array →
        view.value? = some value → value.payload = .raw →
        value.openArray = .ok array → Allowed array) ∧
      ∀ inner putBack,
        view.follow step = .ok (inner, putBack) →
          DecodesOnly Allowed rest inner

/- So it is along one path after the other. -/
def DecodesOnlyEach
    (Allowed : ArrayDoc → Prop) :
    List (List PathStep) → View → Prop
| [], _ => True
| path :: rest, view =>
    DecodesOnly Allowed path view ∧
      DecodesOnlyEach Allowed rest (view.openAlong path)

/- What is said of all arrays is said along all paths. -/
theorem decodesOnlyEach_of_forall
    {Allowed : ArrayDoc → Prop}
    (hAllowed : ∀ array, Allowed array)
    (paths : List (List PathStep))
    (view : View) :
    DecodesOnlyEach Allowed paths view := by
  have hPath :
      ∀ path view, DecodesOnly Allowed path view := by
    intro path
    induction path with
    | nil => exact fun _ => trivial
    | cons step rest ih =>
        intro view
        exact
          ⟨fun _ array _ _ _ _ => hAllowed array,
            fun inner _ _ => ih inner⟩
  induction paths generalizing view with
  | nil => trivial
  | cons path rest ih =>
      exact ⟨hPath path view, ih (view.openAlong path)⟩

/- Along a path, what comes after a step is put back. -/
theorem openAlong_cons
    (step : PathStep)
    (rest : List PathStep)
    (view : View) :
    view.openAlong (step :: rest) =
      match view.follow step with
      | .error _ => view
      | .ok (inner, putBack) =>
          putBack (inner.openAlong rest) := by
  unfold openAlong
  rw [actAt]
  cases view.follow step <;> rfl

end View

end BsonView

------------------------------------------------------------
-- Views With Containers Opened
------------------------------------------------------------

namespace BsonView

namespace View

/-
  The second view is the first with some containers opened.
  Arrays taken out of a buffer are as `Allowed` says.
-/
inductive Opens
    (Allowed : ArrayDoc → Prop) : View → View → Prop
| unchanged
    (view : View) :
    Opens Allowed view view
| member
    {doc : Document}
    {index : Nat}
    {element changed : Element}
    (hElement : doc.elements[index]? = some element)
    (hOpens :
      Opens Allowed (.element element) (.element changed)) :
    Opens Allowed (.document doc)
      (.document (doc.replaceAt index changed))
| item
    {array : ArrayDoc}
    {index : Nat}
    {value changed : Value}
    (hValue : array.get? index = some value)
    (hOpens :
      Opens Allowed (.value value) (.value changed)) :
    Opens Allowed (.array array)
      (.array (array.replaceAt index changed))
| element
    {value changed : Value}
    (hOpens :
      Opens Allowed (.value value) (.value changed)) :
    Opens Allowed (.element ⟨value⟩) (.element ⟨changed⟩)
| document
    {value : Value}
    {doc changed : Document}
    (hOpen : value.openDocument = .ok doc)
    (hOpens :
      Opens Allowed (.document doc) (.document changed)) :
    Opens Allowed (.value value)
      (.value (value.holding (.document changed)))
| array
    {value : Value}
    {array changed : ArrayDoc}
    (hOpen : value.openArray = .ok array)
    (hAllowed : value.payload = .raw → Allowed array)
    (hOpens :
      Opens Allowed (.array array) (.array changed)) :
    Opens Allowed (.value value)
      (.value (value.holding (.array changed)))
| scope
    {value : Value}
    {scope changed : Document}
    (hOpen : value.openScope = .ok scope)
    (hOpens :
      Opens Allowed (.document scope) (.document changed)) :
    Opens Allowed (.value value)
      (.value (value.holding (.document changed)))

variable {Allowed : ArrayDoc → Prop}

/- A value is opened in the view that has it. -/
theorem Opens.withValue
    {view : View}
    {value changed : Value}
    (hValue : view.value? = some value)
    (hOpens :
      Opens Allowed (.value value) (.value changed)) :
    Opens Allowed view (view.withValue changed) := by
  rcases value?_eq_some.mp hValue with rfl | rfl
  · exact hOpens
  · exact .element hOpens

/-
  What is opened after a step is opened in the view that the
  step was taken from.
-/
theorem Opens.putBack
    {step : PathStep}
    {view inner changed : View}
    {putBack : View → View}
    (hLeads : Leads step view inner putBack)
    (hAllowed :
      ∀ value array, step = .array →
        view.value? = some value → value.payload = .raw →
        value.openArray = .ok array → Allowed array)
    (hOpens : Opens Allowed inner changed) :
    Opens Allowed view (putBack changed) := by
  cases hLeads with
  | member hElement =>
      cases changed with
      | element found => exact .member hElement hOpens
      | _ => exact .unchanged _
  | item hValue =>
      cases changed with
      | value found => exact .item hValue hOpens
      | _ => exact .unchanged _
  | value hValue =>
      cases changed with
      | value found => exact Opens.withValue hValue hOpens
      | _ => exact .unchanged _
  | document hValue hOpen =>
      cases changed with
      | document found =>
          exact
            Opens.withValue hValue (.document hOpen hOpens)
      | _ => cases hOpens
  | @array _ value array hValue hOpen =>
      cases changed with
      | array found =>
          have hDecoded (hRaw : value.payload = .raw) :
              Allowed array :=
            hAllowed value array rfl hValue hRaw hOpen
          exact
            Opens.withValue hValue
              (.array hOpen hDecoded hOpens)
      | _ => cases hOpens
  | scope hValue hOpen =>
      cases changed with
      | document found =>
          exact
            Opens.withValue hValue (.scope hOpen hOpens)
      | _ => cases hOpens

end View

end BsonView

------------------------------------------------------------
-- Openings
------------------------------------------------------------

namespace BsonView

namespace View

variable {Allowed : ArrayDoc → Prop}

/- What is opened along a path is opened in the view. -/
theorem openAlong_opens
    {path : List PathStep}
    {view : View}
    (hAllowed : DecodesOnly Allowed path view) :
    Opens Allowed view (view.openAlong path) := by
  induction path generalizing view with
  | nil => exact .unchanged view
  | cons step rest ih =>
      rcases hAllowed with ⟨hArrays, hRest⟩
      rw [openAlong_cons]
      cases hFollow : view.follow step with
      | error obstacle => exact .unchanged view
      | ok answer =>
          rcases answer with ⟨inner, putBack⟩
          exact Opens.putBack (leads_of_follow hFollow)
            hArrays (ih (hRest inner putBack hFollow))

/-
  What openings in a document keep is kept by all that are
  made along paths, one after the other.
-/
theorem openEach_document
    {Kept : Document → Prop}
    (hKept :
      ∀ {doc changed : Document},
        Opens Allowed (.document doc) (.document changed) →
          Kept doc → Kept changed)
    {paths : List (List PathStep)}
    {doc : Document}
    (hAllowed :
      DecodesOnlyEach Allowed paths (.document doc))
    (hDoc : Kept doc) :
    ∃ opened,
      (View.document doc).openEach paths =
        .document opened ∧
      Kept opened := by
  induction paths generalizing doc with
  | nil => exact ⟨doc, rfl, hDoc⟩
  | cons path rest ih =>
      rcases hAllowed with ⟨hPath, hRest⟩
      have hOpens := openAlong_opens hPath
      rw [openEach, List.foldl_cons]
      cases hNext : (View.document doc).openAlong path with
      | document next =>
          rw [hNext] at hOpens hRest
          exact ih hRest (hKept hOpens hDoc)
      | _ =>
          rw [hNext] at hOpens
          cases hOpens

end View

end BsonView
