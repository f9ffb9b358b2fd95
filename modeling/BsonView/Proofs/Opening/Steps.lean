import BsonView.View

/-
  Single steps of paths.

  A step leads from a view to one inside it, and says how a
  changed view is put back. All that a step can do is listed
  once; what holds along every step then holds along every
  path, of the views that are looked at and of what acting
  on one of them leaves.

  Main declarations:
    * `View.value?_eq_some`
    * `View.putHeld`
    * `View.Leads`
    * `View.sameKind`
    * `View.leads_of_follow`
    * `View.lookAlong`
    * `View.of_lookAlong`
    * `View.actAt_keeps`
-/

------------------------------------------------------------
-- Steps
------------------------------------------------------------

namespace BsonView

namespace View

/- A view has a value when it is one or an element. -/
theorem value?_eq_some
    {view : View}
    {value : Value} :
    view.value? = some value ↔
      view = .value value ∨ view = .element ⟨value⟩ := by
  constructor
  · intro hValue
    cases view with
    | document doc => cases hValue
    | array array => cases hValue
    | element element =>
        rcases element with ⟨own⟩
        cases hValue
        exact .inr rfl
    | value own =>
        cases hValue
        exact .inl rfl
  · rintro (rfl | rfl) <;> rfl

/- Put the value of a view back. -/
def putHeld (outer : View) : View → View
| .value v => outer.withValue v
| _ => outer

/-
  The step leads from the first view to the second, and a
  changed view is put back in its place by the function.
-/
inductive Leads :
    PathStep → View → View → (View → View) → Prop
| member
    {step : PathStep}
    {doc : Document}
    {index : Nat}
    {element : Element}
    (hElement : doc.elements[index]? = some element) :
    Leads step (.document doc) (.element element)
      (putElement doc index)
| item
    {step : PathStep}
    {array : ArrayDoc}
    {index : Nat}
    {value : Value}
    (hValue : array.get? index = some value) :
    Leads step (.array array) (.value value)
      (putValue array index)
| value
    {view : View}
    {value : Value}
    (hValue : view.value? = some value) :
    Leads .value view (.value value) (putHeld view)
| document
    {view : View}
    {value : Value}
    {doc : Document}
    (hValue : view.value? = some value)
    (hOpen : value.openDocument = .ok doc) :
    Leads .document view (.document doc)
      (putContainer view value)
| array
    {view : View}
    {value : Value}
    {array : ArrayDoc}
    (hValue : view.value? = some value)
    (hOpen : value.openArray = .ok array) :
    Leads .array view (.array array)
      (putContainer view value)
| scope
    {view : View}
    {value : Value}
    {scope : Document}
    (hValue : view.value? = some value)
    (hOpen : value.openScope = .ok scope) :
    Leads .scope view (.document scope)
      (putContainer view value)

/- Views of one kind can take the place of each other. -/
def sameKind : View → View → Bool
| .document _, .document _ => true
| .array _, .array _ => true
| .element _, .element _ => true
| .value _, .value _ => true
| _, _ => false

theorem sameKind_self
    (view : View) :
    view.sameKind view = true := by
  cases view <;> rfl

theorem sameKind_withValue
    (view : View)
    (value : Value) :
    (view.withValue value).sameKind view = true := by
  cases view <;> rfl

/- What is put back leaves a view of the kind it was. -/
theorem Leads.sameKind
    {step : PathStep}
    {view inner : View}
    {putBack : View → View}
    (hLeads : Leads step view inner putBack)
    (changed : View) :
    (putBack changed).sameKind view = true := by
  cases hLeads with
  | member => cases changed <;> rfl
  | item => cases changed <;> rfl
  | value =>
      cases changed with
      | value v => exact sameKind_withValue view v
      | _ => exact sameKind_self view
  | document | array | scope =>
      cases changed with
      | document | array =>
          exact sameKind_withValue view _
      | _ => exact sameKind_self view

/- Every step that can be taken leads somewhere. -/
theorem leads_of_follow
    {step : PathStep}
    {view inner : View}
    {putBack : View → View}
    (hFollow : view.follow step = .ok (inner, putBack)) :
    Leads step view inner putBack := by
  unfold follow at hFollow
  split at hFollow
  next key doc =>
    split at hFollow
    next index element hIndex hFind =>
      cases hFollow
      rw [Document.find?, hIndex] at hFind
      exact .member hFind
    · cases hFollow
  next index doc =>
    split at hFollow
    next element hElement =>
      cases hFollow
      exact .member hElement
    · cases hFollow
  next index items =>
    split at hFollow
    next value hValue =>
      cases hFollow
      exact .item hValue
    · cases hFollow
  next =>
    split at hFollow
    next value hValue =>
      cases hFollow
      exact .value hValue
    · cases hFollow
  next =>
    split at hFollow
    next value hValue =>
      rcases bind_eq_ok.mp hFollow with
        ⟨entered, hEnter, hDone⟩
      cases hDone
      unfold enter at hEnter
      split at hEnter
      · rcases bind_eq_ok.mp (mapError_eq_ok.mp hEnter) with
          ⟨doc, hOpen, hInner⟩
        cases hInner
        exact .document hValue hOpen
      · rcases bind_eq_ok.mp (mapError_eq_ok.mp hEnter) with
          ⟨array, hOpen, hInner⟩
        cases hInner
        exact .array hValue hOpen
      · rcases bind_eq_ok.mp (mapError_eq_ok.mp hEnter) with
          ⟨scope, hOpen, hInner⟩
        cases hInner
        exact .scope hValue hOpen
      · cases hEnter
    · cases hFollow

end View

end BsonView

------------------------------------------------------------
-- Paths
------------------------------------------------------------

namespace BsonView

namespace View

/- The view at the end of a path. -/
def lookAlong :
    List PathStep → View → Except Obstacle View
| [], view => .ok view
| step :: rest, view => do
    let (inner, _) ← view.follow step
    lookAlong rest inner

/- What is seen after a step is seen along the path. -/
theorem lookAlong_cons
    {step : PathStep}
    {view inner : View}
    {putBack : View → View}
    (hFollow : view.follow step = .ok (inner, putBack))
    (rest : List PathStep) :
    view.lookAlong (step :: rest) =
      inner.lookAlong rest := by
  rw [lookAlong, hFollow]
  rfl

/- What no step loses holds of all views along paths. -/
theorem of_lookAlong
    {Kept : View → Prop}
    (hStep :
      ∀ {step : PathStep} {view inner : View}
          {putBack : View → View},
        Leads step view inner putBack → Kept view →
          Kept inner)
    {path : List PathStep}
    {view inner : View}
    (hView : Kept view)
    (hLook : view.lookAlong path = .ok inner) :
    Kept inner := by
  induction path generalizing view with
  | nil =>
      cases hLook
      exact hView
  | cons step rest ih =>
      rcases bind_eq_ok.mp hLook with
        ⟨⟨next, putBack⟩, hFollow, hRest⟩
      exact
        ih (hStep (leads_of_follow hFollow) hView) hRest

/-
  What no step loses, neither going in nor putting back, is
  kept by actions along paths that keep it, and the kind of
  the view with it.
-/
theorem actAt_keeps
    {α : Type}
    {Kept : View → Prop}
    {act : View → α × View}
    (hStep :
      ∀ {step : PathStep} {view inner : View}
          {putBack : View → View},
        Leads step view inner putBack → Kept view →
          Kept inner)
    (hBack :
      ∀ {step : PathStep} {view inner changed : View}
          {putBack : View → View},
        Leads step view inner putBack → Kept view →
          changed.sameKind inner = true → Kept changed →
            Kept (putBack changed))
    (hAct :
      ∀ {view : View}, Kept view →
        (act view).2.sameKind view = true ∧
          Kept (act view).2)
    (path : List PathStep)
    {view : View}
    (hView : Kept view) :
    (actAt act path view).2.sameKind view = true ∧
      Kept (actAt act path view).2 := by
  induction path generalizing view with
  | nil => exact hAct hView
  | cons step rest ih =>
      rw [actAt]
      cases hFollow : view.follow step with
      | error obstacle => exact ⟨view.sameKind_self, hView⟩
      | ok answer =>
          rcases answer with ⟨inner, putBack⟩
          have hLeads := leads_of_follow hFollow
          rcases ih (hStep hLeads hView) with ⟨hKind, hKept⟩
          exact
            ⟨hLeads.sameKind _,
              hBack hLeads hView hKind hKept⟩

end View

end BsonView
