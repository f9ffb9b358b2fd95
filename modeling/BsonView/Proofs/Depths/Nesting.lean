import BsonView.Proofs.Depths.Limits
import BsonView.Proofs.RoundTrip
import BsonView.Proofs.Views.Accessing
import BsonView.Proofs.Writing.Consistency

/-
  How deep views nest, and the limit they need.

  The paths into a view that says something enter at most as
  many containers one inside the other as its content is
  high, and one of them enters that many. That number is the
  least limit within which a view that is valid at all is
  valid, whatever is opened in it.

  Main declarations:
    * `Content.height`
    * `View.HasHeight`
    * `View.NestsTo`
    * `View.HasHeight.nestsTo`
    * `depth_limit_is_exact`
-/

------------------------------------------------------------
-- Heights Of Contents
------------------------------------------------------------

namespace BsonView

mutual

/- The largest number of containers inside each other. -/
def Content.height : Content → Nat
| .scalar _ _ => 0
| .document members => membersHeight members + 1
| .array items => itemsHeight items + 1
| .code _ scope => membersHeight scope + 1

/- The height of the highest member. -/
def membersHeight : List Member → Nat
| [] => 0
| ⟨_, content⟩ :: rest =>
    max content.height (membersHeight rest)

/- The height of the highest item. -/
def itemsHeight : List Content → Nat
| [] => 0
| content :: rest =>
    max content.height (itemsHeight rest)

end

/- The keys of members have no part in their height. -/
theorem itemsHeight_members
    (members : List Member) :
    itemsHeight (members.map Member.content) =
      membersHeight members := by
  induction members with
  | nil => rfl
  | cons first rest ih =>
      rcases first with ⟨key, content⟩
      rw [List.map_cons, itemsHeight, ih, membersHeight]

namespace Grammar

mutual

/- What a tree says is as high as the tree. -/
theorem ParseTree.height_content :
    ∀ tree : ParseTree, tree.content.height = tree.height
| .scalar tag bytes => rfl
| .document fields => by
    rw [ParseTree.content, Content.height, ParseTree.height,
      membersHeight_members fields]
| .array fields => by
    rw [ParseTree.content, Content.height, ParseTree.height,
      itemsHeight_items fields]
| .code outer text scope => by
    rw [ParseTree.content, Content.height, ParseTree.height,
      membersHeight_members scope]

theorem membersHeight_members :
    ∀ fields : List ParseField,
      membersHeight (members fields) = bodyHeight fields
| [] => rfl
| ⟨key, tree⟩ :: rest => by
    rw [members, membersHeight, bodyHeight,
      ParseTree.height_content tree,
      membersHeight_members rest]

theorem itemsHeight_items :
    ∀ fields : List ParseField,
      itemsHeight (items fields) = bodyHeight fields
| [] => rfl
| ⟨key, tree⟩ :: rest => by
    rw [items, itemsHeight, bodyHeight,
      ParseTree.height_content tree,
      itemsHeight_items rest]

end

end Grammar

/- No value is higher than all together. -/
theorem exists_height_of_mem :
    ∀ {elements : List Element} {said : List Content},
      valuesHold elements said →
      ∀ element ∈ elements,
        ∃ content, element.value.Holds content ∧
          content.height ≤ itemsHeight said
| ⟨value⟩ :: rest, content :: more, ⟨hContent, hSaid⟩ => by
    refine List.forall_mem_cons.mpr ⟨?_, ?_⟩
    · exact ⟨content, hContent, Nat.le_max_left _ _⟩
    · intro element hElement
      rcases exists_height_of_mem hSaid element hElement
        with ⟨found, hFound, hHeight⟩
      exact
        ⟨found, hFound,
          hHeight.trans (Nat.le_max_right _ _)⟩
| [], _, _ => by simp
| ⟨_⟩ :: _, [], hHold => hHold.elim

/- One of them is as high, if there is any height. -/
theorem exists_mem_of_height :
    ∀ {elements : List Element} {said : List Content}
      {k : Nat},
      valuesHold elements said → itemsHeight said = k + 1 →
      ∃ (index : Nat) (element : Element)
        (content : Content),
        elements[index]? = some element ∧
          element.value.Holds content ∧
          content.height = k + 1
| ⟨value⟩ :: rest, content :: more, k,
    ⟨hContent, hSaid⟩, hHeight => by
    rw [itemsHeight] at hHeight
    by_cases hFirst : content.height = k + 1
    · exact ⟨0, ⟨value⟩, content, rfl, hContent, hFirst⟩
    · have hRest : itemsHeight more = k + 1 := by omega
      rcases exists_mem_of_height hSaid hRest with
        ⟨index, element, found, hElement, hFound, hSame⟩
      exact
        ⟨index + 1, element, found, hElement, hFound, hSame⟩
| [], [], _, _, hHeight => by cases hHeight
| [], _ :: _, _, hHold, _ => hHold.elim
| ⟨_⟩ :: _, [], _, hHold, _ => hHold.elim

end BsonView

------------------------------------------------------------
-- Heights Of Views
------------------------------------------------------------

namespace BsonView

namespace View

/-
  The view says something in which `k` containers are inside
  each other and no more.
-/
def HasHeight
    (k : Nat) : View → Prop
| .document d => ∃ said, d.Holds said ∧
    membersHeight said = k
| .array a => ∃ said, a.Holds said ∧ itemsHeight said = k
| .element e => ∃ content, e.value.Holds content ∧
    content.height = k
| .value v => ∃ content, v.Holds content ∧
    content.height = k

/- The value of a view is as high as the view. -/
theorem HasHeight.value?
    {view : View}
    {value : Value}
    {k : Nat}
    (hView : view.HasHeight k)
    (hValue : view.value? = some value) :
    ∃ content, value.Holds content ∧
      content.height = k := by
  rcases value?_eq_some.mp hValue with rfl | rfl
  · exact hView
  · exact hView

/-
  A valid view has a height, which is the least limit within
  which it is valid.
-/
theorem hasHeight_of_valid
    {view : View}
    {limits : Limits}
    {n : Nat}
    (hValid : view.validateWith limits = .ok n) :
    ∃ k, view.HasHeight k ∧
      ∀ (other : Limits) (m : Nat),
        view.validateWith other = .ok m ↔
          m = n ∧ k ≤ other.maxDepth := by
  cases view with
  | document doc =>
      rcases Document.measure_eq_ok.mp hValid with
        ⟨fields, hFields, rfl, _⟩
      refine
        ⟨_, ⟨_, Document.holds_of_encodes hFields, rfl⟩, ?_⟩
      intro other m
      rw [Grammar.membersHeight_members]
      exact Document.validateWith_eq_ok hFields
  | array array =>
      rcases ArrayDoc.measure_eq_ok.mp hValid with
        ⟨fields, hFields, rfl, _⟩
      refine
        ⟨_, ⟨_, ArrayDoc.holds_of_encodes hFields, rfl⟩, ?_⟩
      intro other m
      rw [Grammar.itemsHeight_items]
      exact ArrayDoc.validateWith_eq_ok hFields
  | element element =>
      rcases (Element.measure_eq_ok (Nat.zero_le _)).mp
          hValid with
        ⟨field, hField, rfl, _⟩
      refine
        ⟨_, ⟨_, Value.holds_of_encodes hField.2, rfl⟩, ?_⟩
      intro other m
      rw [Grammar.ParseTree.height_content]
      constructor
      · intro hOther
        rcases (Element.measure_eq_ok (Nat.zero_le _)).mp
            hOther with
          ⟨found, hFound, rfl, hHeight⟩
        rcases field with ⟨key, tree⟩
        rcases found with ⟨own, other⟩
        cases Option.some.inj (hFound.1.symm.trans hField.1)
        cases Value.encodes_unique hFound.2 hField.2
        rw [Nat.zero_add] at hHeight
        exact ⟨rfl, hHeight⟩
      · rintro ⟨rfl, hHeight⟩
        refine
          (Element.measure_eq_ok (Nat.zero_le _)).mpr
            ⟨field, hField, rfl, ?_⟩
        rw [Nat.zero_add]
        exact hHeight
  | value value =>
      rcases (Value.measure_eq_ok (Nat.zero_le _)).mp
          hValid with
        ⟨tree, hTree, rfl, _⟩
      refine
        ⟨_, ⟨_, Value.holds_of_encodes hTree, rfl⟩, ?_⟩
      intro other m
      rw [Grammar.ParseTree.height_content]
      constructor
      · intro hOther
        rcases (Value.measure_eq_ok (Nat.zero_le _)).mp
            hOther with
          ⟨found, hFound, rfl, hHeight⟩
        cases Value.encodes_unique hFound hTree
        rw [Nat.zero_add] at hHeight
        exact ⟨rfl, hHeight⟩
      · rintro ⟨rfl, hHeight⟩
        refine
          (Value.measure_eq_ok (Nat.zero_le _)).mpr
            ⟨tree, hTree, rfl, ?_⟩
        rw [Nat.zero_add]
        exact hHeight

end View

end BsonView

------------------------------------------------------------
-- Containers On Paths
------------------------------------------------------------

namespace BsonView

/- How many containers a path leads into. -/
def containersOn (path : List PathStep) : Nat :=
  path.countP PathStep.entersContainer

/- The containers of the first step are counted first. -/
theorem containersOn_cons
    (step : PathStep)
    (rest : List PathStep) :
    containersOn (step :: rest) =
      containersOn [step] + containersOn rest := by
  rw [containersOn, containersOn, containersOn,
    List.countP_cons, List.countP_singleton,
    Nat.add_comm]

namespace View

/-
  Among the paths into the view there is one that leads into
  `k` containers and none that leads into more.
-/
structure NestsTo
    (view : View)
    (k : Nat) : Prop where
  reached :
    ∃ path inner, view.lookAlong path = .ok inner ∧
      containersOn path = k
  bound :
    ∀ path inner, view.lookAlong path = .ok inner →
      containersOn path ≤ k

variable {view inner : View} {k : Nat}

/-
  What a value says in a container is one container less
  high.
-/
theorem hasHeight_of_enter
    {step : PathStep}
    {value : Value}
    {content : Content}
    (hHolds : value.Holds content)
    (hEnter : enter step value = .ok inner) :
    ∃ j, inner.HasHeight j ∧ j + 1 = content.height := by
  unfold enter at hEnter
  split at hEnter
  · rcases bind_eq_ok.mp (mapError_eq_ok.mp hEnter) with
      ⟨doc, hOpen, hDone⟩
    cases hDone
    rcases Value.cases_of_holds hHolds
        (Value.tag_of_openDocument hOpen) with ⟨said, rfl⟩
    rcases Value.openDocument_of_holds hHolds with
      ⟨other, hSame, hDoc⟩
    cases hOpen.symm.trans hSame
    exact ⟨_, ⟨said, hDoc, rfl⟩, by rw [Content.height]⟩
  · rcases bind_eq_ok.mp (mapError_eq_ok.mp hEnter) with
      ⟨array, hOpen, hDone⟩
    cases hDone
    rcases Value.cases_of_holds hHolds
        (Value.tag_of_openArray hOpen) with ⟨items, rfl⟩
    rcases Value.openArray_of_holds hHolds with
      ⟨other, hSame, hArray⟩
    cases hOpen.symm.trans hSame
    exact ⟨_, ⟨items, hArray, rfl⟩, by rw [Content.height]⟩
  · rcases bind_eq_ok.mp (mapError_eq_ok.mp hEnter) with
      ⟨scope, hOpen, hDone⟩
    cases hDone
    rcases Value.cases_of_holds hHolds
        (Value.tag_of_openScope hOpen) with
      ⟨text, said, rfl⟩
    rcases Value.openScope_of_holds hHolds with
      ⟨_, _, other, hSame, hScope⟩
    cases hOpen.symm.trans hSame
    exact ⟨_, ⟨said, hScope, rfl⟩, by rw [Content.height]⟩
  · cases hEnter

/- What has containers in it can be entered. -/
theorem exists_enter_of_height
    {value : Value}
    {content : Content}
    (hHolds : value.Holds content)
    (hHeight : content.height = k + 1) :
    ∃ step inner, step.entersContainer = true ∧
      enter step value = .ok inner ∧
      inner.HasHeight k := by
  cases content with
  | scalar tag bytes => cases hHeight
  | document said =>
      rcases Value.openDocument_of_holds hHolds with
        ⟨doc, hOpen, hDoc⟩
      refine
        ⟨.document, .document doc, rfl, ?_, said, hDoc, ?_⟩
      · rw [enter, hOpen]
        rfl
      · exact Nat.succ.inj hHeight
  | array items =>
      rcases Value.openArray_of_holds hHolds with
        ⟨array, hOpen, hArray⟩
      refine
        ⟨.array, .array array, rfl, ?_, items, hArray, ?_⟩
      · rw [enter, hOpen]
        rfl
      · exact Nat.succ.inj hHeight
  | code text said =>
      rcases Value.openScope_of_holds hHolds with
        ⟨_, _, scope, hOpen, hScope⟩
      refine
        ⟨.scope, .document scope, rfl, ?_, said, hScope, ?_⟩
      · rw [enter, hOpen]
        rfl
      · exact Nat.succ.inj hHeight

/- No step leads higher, and one into a container lower. -/
theorem HasHeight.of_follow
    {step : PathStep}
    {putBack : View → View}
    (hView : view.HasHeight k)
    (hFollow : view.follow step = .ok (inner, putBack)) :
    ∃ j, inner.HasHeight j ∧
      j + containersOn [step] ≤ k := by
  by_cases hEnters : step.entersContainer = true
  · rw [follow_of_enters hEnters] at hFollow
    split at hFollow
    next value hValue =>
      rcases bind_eq_ok.mp hFollow with
        ⟨entered, hEnter, hDone⟩
      cases hDone
      rcases hView.value? hValue with
        ⟨content, hHolds, rfl⟩
      rcases hasHeight_of_enter hHolds hEnter with
        ⟨j, hInner, hHeight⟩
      refine ⟨j, hInner, ?_⟩
      rw [containersOn, List.countP_singleton,
        if_pos hEnters]
      exact hHeight.le
    · cases hFollow
  have hNone : containersOn [step] = 0 := by
    rw [containersOn, List.countP_singleton, if_neg hEnters]
  rw [hNone]
  cases leads_of_follow hFollow with
  | @member _ doc index element hElement =>
      rcases hView with ⟨said, hDoc, rfl⟩
      rcases doc with ⟨elements⟩
      rcases exists_height_of_mem
          (valuesHold_of_elements hDoc) element
          (List.mem_of_getElem? hElement) with
        ⟨content, hHolds, hHeight⟩
      rw [itemsHeight_members] at hHeight
      exact ⟨_, ⟨content, hHolds, rfl⟩, hHeight⟩
  | @item _ array index value hValue =>
      rcases hView with ⟨said, hArray, rfl⟩
      rcases array with ⟨elements⟩
      rcases Option.map_eq_some_iff.mp hValue with
        ⟨element, hElement, rfl⟩
      rcases exists_height_of_mem hArray element
          (List.mem_of_getElem? hElement) with
        ⟨content, hHolds, hHeight⟩
      exact ⟨_, ⟨content, hHolds, rfl⟩, hHeight⟩
  | value hValue =>
      exact ⟨k, hView.value? hValue, k.le_refl⟩
  | document | array | scope => exact absurd rfl hEnters

/-
  The height of what a path leads to and the containers on
  the path are together no more than the height.
-/
theorem HasHeight.of_lookAlong
    {path : List PathStep}
    (hView : view.HasHeight k)
    (hLook : view.lookAlong path = .ok inner) :
    ∃ j, inner.HasHeight j ∧ j + containersOn path ≤ k := by
  induction path generalizing view k with
  | nil =>
      cases hLook
      exact ⟨k, hView, k.le_refl⟩
  | cons step rest ih =>
      rcases bind_eq_ok.mp hLook with
        ⟨⟨next, putBack⟩, hFollow, hRest⟩
      rcases hView.of_follow hFollow with
        ⟨j, hNext, hHeight⟩
      rcases ih hNext hRest with ⟨i, hInner, hMore⟩
      refine ⟨i, hInner, ?_⟩
      rw [containersOn_cons]
      omega

/- A path into a container goes on in there. -/
theorem exists_path_of_value?
    {value : Value}
    {content : Content}
    (hValue : view.value? = some value)
    (hHolds : value.Holds content)
    (hHeight : content.height = k + 1)
    (hInner :
      ∀ inner : View, inner.HasHeight k →
        ∃ path last, inner.lookAlong path = .ok last ∧
          containersOn path = k) :
    ∃ path last, view.lookAlong path = .ok last ∧
      containersOn path = k + 1 := by
  rcases exists_enter_of_height hHolds hHeight with
    ⟨step, inner, hEnters, hEnter, hHigh⟩
  rcases hInner inner hHigh with ⟨path, last, hLook, hCount⟩
  have hFollow :
      view.follow step =
        .ok (inner, putContainer view value) := by
    rw [follow_of_enters hEnters, hValue]
    dsimp only
    rw [hEnter]
    rfl
  refine
    ⟨step :: path, last,
      (lookAlong_cons hFollow path).trans hLook, ?_⟩
  rw [containersOn, List.countP_cons_of_pos hEnters]
  exact congrArg Nat.succ hCount

/- A path to a member goes on in there. -/
theorem exists_path_of_index
    {member : View}
    {index : Nat}
    {putBack : View → View}
    (hFollow :
      view.follow (.index index) = .ok (member, putBack))
    (hMember :
      ∃ path last, member.lookAlong path = .ok last ∧
        containersOn path = k) :
    ∃ path last, view.lookAlong path = .ok last ∧
      containersOn path = k := by
  rcases hMember with ⟨path, last, hLook, hCount⟩
  exact
    ⟨.index index :: path, last,
      (lookAlong_cons hFollow path).trans hLook, hCount⟩

/- Some path leads into as many. -/
theorem HasHeight.reached
    (hView : view.HasHeight k) :
    ∃ path inner, view.lookAlong path = .ok inner ∧
      containersOn path = k := by
  induction k generalizing view with
  | zero => exact ⟨[], view, rfl, rfl⟩
  | succ k ih =>
      cases view with
      | document doc =>
          rcases doc with ⟨elements⟩
          rcases hView with ⟨said, hDoc, hHeight⟩
          rw [← itemsHeight_members] at hHeight
          rcases exists_mem_of_height
              (valuesHold_of_elements hDoc) hHeight with
            ⟨index, element, content, hElement, hHolds,
              hHigh⟩
          have hFollow :
              (View.document ⟨elements⟩).follow
                  (.index index) =
                .ok (.element element,
                  putElement ⟨elements⟩ index) := by
            rw [follow, hElement]
          exact
            exists_path_of_index hFollow
              (exists_path_of_value? rfl hHolds hHigh
                fun _ => ih)
      | array array =>
          rcases array with ⟨elements⟩
          rcases hView with ⟨said, hArray, hHeight⟩
          rcases exists_mem_of_height hArray hHeight with
            ⟨index, element, content, hElement, hHolds,
              hHigh⟩
          have hValue :
              ArrayDoc.get? ⟨elements⟩ index =
                some element.value :=
            Option.map_eq_some_iff.mpr
              ⟨element, hElement, rfl⟩
          have hFollow :
              (View.array ⟨elements⟩).follow
                  (.index index) =
                .ok (.value element.value,
                  putValue ⟨elements⟩ index) := by
            rw [follow, hValue]
          exact
            exists_path_of_index hFollow
              (exists_path_of_value? rfl hHolds hHigh
                fun _ => ih)
      | element element =>
          rcases hView with ⟨content, hHolds, hHeight⟩
          exact
            exists_path_of_value? rfl hHolds hHeight
              fun _ => ih
      | value value =>
          rcases hView with ⟨content, hHolds, hHeight⟩
          exact
            exists_path_of_value? rfl hHolds hHeight
              fun _ => ih

/- The height is how deep the paths into a view go. -/
theorem HasHeight.nestsTo
    (hView : view.HasHeight k) :
    view.NestsTo k := by
  refine ⟨hView.reached, ?_⟩
  intro path inner hLook
  rcases hView.of_lookAlong hLook with ⟨j, _, hHeight⟩
  omega

end View

end BsonView

------------------------------------------------------------
-- The Limit
------------------------------------------------------------

namespace BsonView

open Limits

namespace View

/- A tighter limit cuts the validation of any view. -/
theorem validateWith_cuts
    {limits wide : Limits}
    (hWide : limits.maxDepth ≤ wide.maxDepth)
    (view : View) :
    limits.Cuts (view.validateWith limits)
      (view.validateWith wide) := by
  cases view with
  | document doc => exact Document.measure_cuts hWide 0 doc
  | array array => exact ArrayDoc.measure_cuts hWide 0 array
  | element element =>
      exact Element.measure_cuts hWide 0 element
  | value value => exact Value.measure_cuts hWide 0 value

end View

/-
  A view that is valid within some limit is valid, with the
  same length, exactly within the limits that are no less
  than the number of containers the paths into it lead into,
  opened or not. Every other limit is the cause of its
  failure.
-/
theorem depth_limit_is_exact
    {view : View}
    {limits : Limits}
    {n : Nat}
    (hValid : view.validateWith limits = .ok n) :
    ∃ k, view.NestsTo k ∧
      ∀ m,
        (k ≤ m → view.validateWith ⟨m⟩ = .ok n) ∧
          (m < k →
            ∃ progress,
              view.validateWith ⟨m⟩ =
                .error
                  ((Error.maxDepthExceeded m).after
                    progress)) := by
  rcases View.hasHeight_of_valid hValid with
    ⟨k, hHeight, hAnswers⟩
  refine ⟨k, hHeight.nestsTo, ?_⟩
  intro m
  have hEnough := ((hAnswers limits n).mp hValid).2
  refine ⟨?_, ?_⟩
  · intro hWithin
    exact (hAnswers ⟨m⟩ n).mpr ⟨rfl, hWithin⟩
  · intro hBelow
    have hWide : (Limits.mk m).maxDepth ≤ limits.maxDepth :=
      hBelow.le.trans hEnough
    rcases view.validateWith_cuts hWide with hSame | hCut
    · rcases (hAnswers ⟨m⟩ n).mp (hSame.trans hValid) with
        ⟨_, hShort⟩
      exact absurd hShort (Nat.not_le_of_lt hBelow)
    · exact hCut

/-
  An array that is not opened in a document that is: two
  containers, so that a limit of one is exceeded.
-/
theorem array_in_opened_document_exceeds_one :
    let array :=
      Element.ofPositions [4, 0, 5, 0, 0, 0, 0] 0 2
    let view : View :=
      .document ⟨[⟨.ofDocument ⟨[array]⟩⟩]⟩
    view.validateWith .standard = .ok 19 ∧
      ∃ progress,
        view.validateWith ⟨1⟩ =
          .error
            ((Error.maxDepthExceeded 1).after
              progress) := by
  intro array view
  have hValid : view.validateWith .standard = .ok 19 := by
    decide +kernel
  have hSpans :
      Document.spansFrom array.value.buffer 2 = .ok [] := by
    decide +kernel
  have hOpen : array.value.openArray = .ok ⟨[]⟩ := by
    rw [Value.openArray_of_raw rfl rfl, Place.readArray,
      ArrayDoc.readFrom, Document.readFrom]
    dsimp only [array, Element.ofPositions] at hSpans ⊢
    rw [hSpans]
    rfl
  have hLook :
      view.lookAlong
          [.index 0, .document, .index 0, .array] =
        .ok (.array ⟨[]⟩) := by
    have hStep :
        (View.element array).follow .array =
          .ok (.array ⟨[]⟩,
            View.putContainer (.element array)
              array.value) := by
      rw [View.follow_of_enters rfl]
      dsimp only [View.value?]
      rw [View.enter, hOpen]
      rfl
    change (View.element array).lookAlong [.array] = _
    rw [View.lookAlong_cons hStep]
    rfl
  rcases depth_limit_is_exact hValid with
    ⟨k, hNests, hLimit⟩
  have hTwo : 2 ≤ k := hNests.bound _ _ hLook
  exact ⟨hValid, (hLimit 1).2 hTwo⟩

end BsonView
