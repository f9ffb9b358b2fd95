import Mathlib.Data.List.Forall2
import BsonView.Proofs.Opening.Validity
import BsonView.Proofs.Views.Content
import BsonView.Proofs.Writing.Exactness

/-
  Views that stand for others.

  One view stands for another when neither validation nor
  reading nor writing tells the two apart. A view that has
  it in place of the other, at any depth, then stands for
  that view; and the two have the same encoding, or fail to
  be encoded in the same way.

  Main declarations:
    * `Write.Agrees`
    * `Place.FramedAs`
    * `Value.StandsFor`
    * `Document.StandsFor`
    * `ArrayDoc.StandsFor`
    * `Document.standsFor_of_elements`
    * `Element.encode_of_standsFor`
    * `Document.StandsFor.encode_eq`
    * `View.StandsFor`
    * `View.StandsFor.putBack`
    * `View.actAt_standsFor`
-/

------------------------------------------------------------
-- Actions That Agree
------------------------------------------------------------

namespace BsonView

namespace Write

/-
  Two actions end in the same way in every destination, and
  leave the same bytes when they succeed. What they leave
  when they fail may differ.
-/
def Agrees
    {α : Type}
    (action other : Write α) : Prop :=
  ∀ dest : Bytes,
    (action dest).1 = (other dest).1 ∧
      ∀ a, (other dest).1 = .ok a →
        (action dest).2 = (other dest).2

section

variable
  {α β : Type}
  {action other : Write α}

theorem Agrees.refl
    (action : Write α) :
    action.Agrees action :=
  fun _ => ⟨rfl, fun _ _ => rfl⟩

/- What follows agreeing actions starts from one state. -/
theorem Agrees.bind
    {next further : α → Write β}
    (hFirst : action.Agrees other)
    (hNext : ∀ a, (next a).Agrees (further a)) :
    (action >>= next).Agrees (other >>= further) := by
  intro dest
  rcases hFirst dest with ⟨hOutcome, hLeft⟩
  rcases hOther : other dest with ⟨failure | a, left⟩
  · rw [hOther] at hOutcome
    have hAction :
        action dest = (.error failure, (action dest).2) :=
      Prod.ext hOutcome rfl
    rw [bind_of_error hAction, bind_of_error hOther]
    refine ⟨rfl, ?_⟩
    intro b hOk
    cases hOk
  · have hSame := hLeft a (congrArg Prod.fst hOther)
    rw [hOther] at hOutcome hSame
    have hAction : action dest = (.ok a, left) :=
      Prod.ext hOutcome hSame
    rw [bind_of_ok hAction, bind_of_ok hOther]
    exact hNext a left

/- The same may come first. -/
theorem Agrees.behind
    (first : Write α)
    {next further : α → Write β}
    (hNext : ∀ a, (next a).Agrees (further a)) :
    (first >>= next).Agrees (first >>= further) :=
  (Agrees.refl first).bind hNext

theorem Agrees.after
    (hAction : action.Agrees other)
    (n : Nat) :
    (after n action).Agrees (after n other) := by
  intro dest
  rcases hAction dest with ⟨hOutcome, hLeft⟩
  rcases hOther : other dest with ⟨failure | a, left⟩
  · rw [hOther] at hOutcome
    have hFailed :
        action dest = (.error failure, (action dest).2) :=
      Prod.ext hOutcome rfl
    rw [after_of_error hFailed, after_of_error hOther]
    refine ⟨rfl, ?_⟩
    intro a hOk
    cases hOk
  · have hSame := hLeft a (congrArg Prod.fst hOther)
    rw [hOther] at hOutcome hSame
    have hDone : action dest = (.ok a, left) :=
      Prod.ext hOutcome hSame
    rw [after_of_ok hDone, after_of_ok hOther]
    exact ⟨rfl, fun _ _ => rfl⟩

end

end Write

end BsonView

------------------------------------------------------------
-- Places With The Same Framing
------------------------------------------------------------

namespace BsonView

namespace Place

/-
  Two places are at the same positions of buffers of one
  length that are the same before the payload.
-/
structure FramedAs (changed place : Place) : Prop where
  start_eq : changed.start = place.start
  offset_eq : changed.offset = place.offset
  length_eq : changed.buffer.length = place.buffer.length
  lead_eq :
    changed.buffer.take place.offset =
      place.buffer.take place.offset

theorem FramedAs.refl
    (place : Place) :
    place.FramedAs place :=
  ⟨rfl, rfl, rfl, rfl⟩

namespace FramedAs

variable
  {changed place : Place}
  (hFramed : changed.FramedAs place)

include hFramed

theorem headerLength_eq :
    changed.headerLength = place.headerLength := by
  unfold headerLength
  rw [hFramed.start_eq, hFramed.offset_eq]

theorem isInitialized_eq :
    changed.isInitialized = place.isInitialized := by
  unfold isInitialized
  rw [hFramed.start_eq, hFramed.offset_eq,
    hFramed.length_eq]

theorem isEmpty_eq :
    changed.buffer.isEmpty = place.buffer.isEmpty := by
  rw [Bool.eq_iff_iff, List.isEmpty_iff_length_eq_zero,
    List.isEmpty_iff_length_eq_zero, hFramed.length_eq]

/- A byte before the payload is the same. -/
theorem getElem?_eq
    {i : Nat}
    (hBefore : i < place.offset) :
    changed.buffer[i]? = place.buffer[i]? := by
  rw [← List.getElem?_take_of_lt hBefore, hFramed.lead_eq,
    List.getElem?_take_of_lt hBefore]

/- So are the bytes up to a position before the payload. -/
theorem take_eq
    {stop : Nat}
    (hBefore : stop ≤ place.offset) :
    changed.buffer.take stop = place.buffer.take stop := by
  rw [← Nat.min_eq_left hBefore, ← List.take_take,
    hFramed.lead_eq, List.take_take]

theorem tag_eq : changed.tag = place.tag := by
  unfold tag
  rw [hFramed.isInitialized_eq]
  split
  next hReady =>
    have hStart : place.start < place.offset := by
      unfold isInitialized at hReady
      simp at hReady
      exact hReady.1
    rw [hFramed.start_eq, List.getD_eq_getElem?_getD,
      List.getD_eq_getElem?_getD,
      hFramed.getElem?_eq hStart]
  · rfl

theorem keyBytes?_eq :
    changed.keyBytes? = place.keyBytes? := by
  unfold keyBytes?
  dsimp only
  rw [hFramed.isInitialized_eq, hFramed.start_eq,
    hFramed.offset_eq, hFramed.take_eq (Nat.sub_le _ _)]
  by_cases hKey : place.start + 2 ≤ place.offset
  · rw [hFramed.getElem?_eq (by omega)]
  · simp only [hKey, false_and, and_false, if_false]

theorem keyLength_eq :
    changed.keyLength = place.keyLength := by
  unfold keyLength
  dsimp only
  rw [hFramed.start_eq, hFramed.offset_eq,
    hFramed.length_eq,
    hFramed.take_eq (Nat.min_le_left _ _)]

theorem lead_of_framed
    (first : Nat) :
    changed.lead first = place.lead first := by
  unfold lead
  rw [hFramed.offset_eq, hFramed.lead_eq]

end FramedAs

end Place

end BsonView

------------------------------------------------------------
-- Views That Stand For Others
------------------------------------------------------------

namespace BsonView

/-
  A value stands for another when its type, its key, its
  measure, what it holds and what is written of it are the
  same in whatever view it is.
-/
structure Value.StandsFor (changed value : Value) : Prop where
  framed : changed.toPlace.FramedAs value.toPlace
  measure_eq :
    ∀ limits depth,
      changed.measure limits depth =
        value.measure limits depth
  holds_iff :
    ∀ content, changed.Holds content ↔ value.Holds content
  emit_agrees :
    ∀ keyed start,
      (changed.emit keyed none start).Agrees
        (value.emit keyed none start)

/- A document stands for another. -/
structure Document.StandsFor
    (changed doc : Document) : Prop where
  measure_eq :
    ∀ limits depth,
      changed.measure limits depth =
        doc.measure limits depth
  holds_iff :
    ∀ members, changed.Holds members ↔ doc.Holds members
  emit_agrees :
    ∀ start, (changed.emit start).Agrees (doc.emit start)

/- An array stands for another. -/
structure ArrayDoc.StandsFor
    (changed array : ArrayDoc) : Prop where
  measure_eq :
    ∀ limits depth,
      changed.measure limits depth =
        array.measure limits depth
  holds_iff :
    ∀ items, changed.Holds items ↔ array.Holds items
  emit_agrees :
    ∀ start,
      (changed.emit start).Agrees (array.emit start)

theorem Value.StandsFor.refl
    (value : Value) :
    value.StandsFor value :=
  ⟨.refl _, fun _ _ => rfl, fun _ => .rfl,
    fun _ _ => .refl _⟩

theorem Document.StandsFor.refl
    (doc : Document) :
    doc.StandsFor doc :=
  ⟨fun _ _ => rfl, fun _ => .rfl, fun _ => .refl _⟩

theorem ArrayDoc.StandsFor.refl
    (array : ArrayDoc) :
    array.StandsFor array :=
  ⟨fun _ _ => rfl, fun _ => .rfl, fun _ => .refl _⟩

/- Elements stand for others as their values do. -/
def elementsStandFor
    (changed elements : List Element) : Prop :=
  List.Forall₂
    (fun (c : Element) (e : Element) =>
      c.value.StandsFor e.value)
    changed elements

theorem elementsStandFor_refl
    (elements : List Element) :
    elementsStandFor elements elements :=
  List.forall₂_same.mpr fun e _ => .refl e.value

/- One element among them may be replaced. -/
theorem elementsStandFor_set
    {changed other : Element}
    (hValue : changed.value.StandsFor other.value)
    (elements : List Element)
    (index : Nat) :
    elementsStandFor (elements.set index changed)
      (elements.set index other) := by
  induction elements generalizing index with
  | nil => exact .nil
  | cons first rest ih =>
      cases index with
      | zero => exact .cons hValue (elementsStandFor_refl _)
      | succ index =>
          exact .cons (.refl first.value) (ih index)

end BsonView

------------------------------------------------------------
-- Views Around Them
------------------------------------------------------------

namespace BsonView

open Write

/- An element is measured as the one it stands for. -/
theorem Element.measure_of_standsFor
    {changed element : Element}
    (hStands : changed.value.StandsFor element.value)
    (limits : Limits)
    (depth : Nat) :
    changed.measure limits depth =
      element.measure limits depth := by
  rcases changed with ⟨changed⟩
  rcases element with ⟨value⟩
  rw [Element.measure, Element.measure,
    hStands.framed.isEmpty_eq, hStands.framed.keyLength_eq,
    hStands.measure_eq]

section

variable
  {changed elements : List Element}
  (hStand : elementsStandFor changed elements)

include hStand

theorem measureElements_of_standFor
    (limits : Limits)
    (depth total : Nat) :
    measureElements limits depth total changed =
      measureElements limits depth total elements := by
  induction hStand generalizing total with
  | nil => rfl
  | cons hFirst _ ih =>
      rw [measureElements, measureElements,
        Element.measure_of_standsFor hFirst]
      simp only [ih]

theorem measureValues_of_standFor
    (limits : Limits)
    (depth index total : Nat) :
    measureValues limits depth index total changed =
      measureValues limits depth index total elements := by
  induction hStand generalizing index total with
  | nil => rfl
  | cons hFirst _ ih =>
      rw [measureValues, measureValues,
        Element.measure_of_standsFor hFirst,
        hFirst.framed.headerLength_eq]
      simp only [ih]

theorem elementsHold_of_standFor
    (members : List Member) :
    elementsHold changed members ↔
      elementsHold elements members := by
  induction hStand generalizing members with
  | nil => exact .rfl
  | @cons first other _ _ hFirst _ ih =>
      rcases first with ⟨first⟩
      rcases other with ⟨other⟩
      cases members with
      | nil => exact .rfl
      | cons member members =>
          rcases member with ⟨key, content⟩
          rw [elementsHold, elementsHold, ih members,
            hFirst.framed.keyBytes?_eq,
            hFirst.holds_iff content]

theorem valuesHold_of_standFor
    (items : List Content) :
    valuesHold changed items ↔
      valuesHold elements items := by
  induction hStand generalizing items with
  | nil => exact .rfl
  | @cons first other _ _ hFirst _ ih =>
      rcases first with ⟨first⟩
      rcases other with ⟨other⟩
      cases items with
      | nil => exact .rfl
      | cons content items =>
          rw [valuesHold, valuesHold, ih items,
            hFirst.holds_iff content]

theorem emitElements_agrees
    (start pos : Nat) :
    (emitElements start pos changed).Agrees
      (emitElements start pos elements) := by
  induction hStand generalizing pos with
  | nil => exact .refl _
  | @cons first other _ _ hFirst _ ih =>
      rcases first with ⟨first⟩
      rcases other with ⟨other⟩
      rw [emitElements, emitElements]
      exact ((hFirst.emit_agrees true pos).after _).bind
        fun n => ih (pos + n)

theorem emitValues_agrees
    (start index pos : Nat) :
    (emitValues start index pos changed).Agrees
      (emitValues start index pos elements) := by
  induction hStand generalizing index pos with
  | nil => exact .refl _
  | @cons first other _ _ hFirst _ ih =>
      rcases first with ⟨first⟩
      rcases other with ⟨other⟩
      rw [emitValues, emitValues, hFirst.framed.tag_eq]
      apply Agrees.behind
      intro tag
      apply Agrees.behind
      intro header
      exact ((hFirst.emit_agrees false _).after _).bind
        fun n => ih (index + 1) (pos + header + n)

/- A document stands for another as its elements do. -/
theorem Document.standsFor_of_elements :
    (⟨changed⟩ : Document).StandsFor ⟨elements⟩ := by
  refine ⟨?_, ?_, ?_⟩
  · intro limits depth
    rw [Document.measure, Document.measure,
      measureElements_of_standFor hStand]
  · intro members
    exact elementsHold_of_standFor hStand members
  · intro start
    rw [Document.emit, Document.emit]
    apply Agrees.behind
    intro pos
    apply (emitElements_agrees hStand start pos).bind
    intro last
    exact .refl _

/- So does an array. -/
theorem ArrayDoc.standsFor_of_elements :
    (⟨changed⟩ : ArrayDoc).StandsFor ⟨elements⟩ := by
  refine ⟨?_, ?_, ?_⟩
  · intro limits depth
    rw [ArrayDoc.measure, ArrayDoc.measure,
      measureValues_of_standFor hStand]
  · intro items
    exact valuesHold_of_standFor hStand items
  · intro start
    rw [ArrayDoc.emit, ArrayDoc.emit]
    apply Agrees.behind
    intro pos
    apply (emitValues_agrees hStand start 0 pos).bind
    intro last
    exact .refl _

end

/- One element of a document may be replaced. -/
theorem Document.replaceAt_standsFor
    {doc : Document}
    {index : Nat}
    {changed element : Element}
    (hElement : doc.elements[index]? = some element)
    (hStands : changed.value.StandsFor element.value) :
    (doc.replaceAt index changed).StandsFor doc := by
  rcases doc with ⟨elements⟩
  rcases List.getElem?_eq_some_iff.mp hElement with
    ⟨hIndex, hFound⟩
  have hSet := elementsStandFor_set hStands elements index
  rw [← hFound, List.set_getElem_self hIndex] at hSet
  exact standsFor_of_elements hSet

namespace Value

/- A value stands for another as its document does. -/
theorem holding_document_standsFor
    {changed doc : Document}
    (hStands : changed.StandsFor doc)
    (value : Value) :
    (value.holding (.document changed)).StandsFor
      (value.holding (.document doc)) := by
  refine ⟨.refl _, ?_, ?_, ?_⟩
  · intro limits depth
    exact measure_holding_document hStands.measure_eq value
  · intro content
    rw [holding, holding, Value.Holds, Value.Holds]
    cases content with
    | document members =>
        rw [Payload.Holds, Payload.Holds,
          hStands.holds_iff]
    | code text scope =>
        rw [Payload.Holds, Payload.Holds,
          hStands.holds_iff]
    | _ => exact .rfl
  · intro keyed start
    rw [holding, holding, Value.emit, Value.emit]
    apply Agrees.behind
    intro tag
    by_cases hDoc : tag = .embeddedDocument
    · rw [hDoc, Payload.emit, Payload.emit]
      apply Agrees.behind
      intro header
      apply Agrees.behind
      intro n
      apply ((hStands.emit_agrees (start + n)).after n).bind
      intro body
      exact .refl _
    by_cases hCode : tag = .codeWithScope
    · rw [hCode, Payload.emit, Payload.emit]
      apply Agrees.behind
      intro lead
      apply Agrees.behind
      intro framing
      apply Agrees.behind
      intro n
      apply ((hStands.emit_agrees (start + n)).after n).bind
      intro body
      exact .refl _
    · rw [Payload.emit, Payload.emit]
      · exact .refl _
      · exact hDoc
      · exact hCode
      · exact hDoc
      · exact hCode

/- A value stands for another as its array does. -/
theorem holding_array_standsFor
    {changed array : ArrayDoc}
    (hStands : changed.StandsFor array)
    (value : Value) :
    (value.holding (.array changed)).StandsFor
      (value.holding (.array array)) := by
  refine ⟨.refl _, ?_, ?_, ?_⟩
  · intro limits depth
    exact measure_holding_array hStands.measure_eq value
  · intro content
    rw [holding, holding, Value.Holds, Value.Holds]
    cases content with
    | array items =>
        rw [Payload.Holds, Payload.Holds,
          hStands.holds_iff]
    | _ => exact .rfl
  · intro keyed start
    rw [holding, holding, Value.emit, Value.emit]
    apply Agrees.behind
    intro tag
    by_cases hArray : tag = .array
    · rw [hArray, Payload.emit, Payload.emit]
      apply Agrees.behind
      intro header
      apply Agrees.behind
      intro n
      apply ((hStands.emit_agrees (start + n)).after n).bind
      intro body
      exact .refl _
    · rw [Payload.emit, Payload.emit]
      · exact .refl _
      · exact hArray
      · exact hArray

end Value

end BsonView

------------------------------------------------------------
-- Encodings
------------------------------------------------------------

namespace BsonView

open Grammar

/- Two writes end in the same way, and in the same bytes. -/
def Written.Agrees (written other : Written) : Prop :=
  written.outcome = other.outcome ∧
    ∀ n, other.outcome = .ok n →
      written.dest = other.dest

/- Actions agree in every window. -/
theorem Write.Agrees.into
    {action other : Write Nat}
    (hAction : action.Agrees other)
    (start length : Nat)
    (dest : Bytes) :
    (Write.into start length action dest).Agrees
      (Write.into start length other dest) := by
  unfold Write.into
  dsimp only
  by_cases hAddress : positionLimit ≤ start + length
  · rw [if_pos hAddress, if_pos hAddress]
    exact ⟨rfl, fun _ _ => rfl⟩
  by_cases hRoom : dest.length < start + length
  · rw [if_neg hAddress, if_pos hRoom, if_neg hAddress,
      if_pos hRoom]
    exact ⟨rfl, fun _ _ => rfl⟩
  · rcases hAction (dest.take (start + length)) with
      ⟨hOutcome, hLeft⟩
    rw [if_neg hAddress, if_neg hRoom, if_neg hAddress,
      if_neg hRoom]
    refine ⟨hOutcome, ?_⟩
    intro n hOk
    exact congrArg (· ++ dest.drop (start + length))
      (hLeft n hOk)

/- Writes that agree on what is measured encode the same. -/
theorem encodeWith_congr
    {size : Except Failure Nat}
    {write other : Nat → Bytes → Written}
    (hWrite :
      ∀ n dest, size = .ok n →
        (write n dest).Agrees (other n dest)) :
    encodeWith size write = encodeWith size other := by
  cases size with
  | error failure => rfl
  | ok n =>
      rcases hWrite n (List.replicate n 0) rfl with
        ⟨hOutcome, hDest⟩
      unfold encodeWith
      simp only [mapError_ok, ok_bind, hOutcome]
      cases hOther :
          (other n (List.replicate n 0)).outcome with
      | error failure => rfl
      | ok written =>
          rw [hDest written hOther]

/-
  The size that is measured is the one that the framing of a
  payload in a buffer says.
-/
theorem Element.emit_validated
    {element : Element}
    {limits : Limits}
    {n : Nat}
    (hValid : element.validateWith limits = .ok n)
    (keyed : Bool)
    (start : Nat) :
    element.value.emit keyed (some n) start =
      element.value.emit keyed none start := by
  rcases element with ⟨place, payload⟩
  cases payload with
  | document doc =>
      exact Value.emit_opened (by simp) keyed _ start
  | array array =>
      exact Value.emit_opened (by simp) keyed _ start
  | raw =>
      rcases (Element.measure_eq_ok (Nat.zero_le _)).mp
          hValid with
        ⟨⟨key, tree⟩, ⟨hKey, hTree⟩, rfl, _⟩
      rcases hTree with ⟨hTag, found, hFound, hPrefix, rfl⟩
      have hTree : Value.Encodes ⟨place, .raw⟩ found.agreeing :=
        ⟨hTag, found, hFound, hPrefix, rfl⟩
      rw [(Element.lead_eq hKey hTree).2,
        ParseTree.length_agreeing hFound]
      rw [ParseTree.tag_agreeing] at hTag
      have hRaw := Place.rawSize_eq hTag hFound hPrefix
      rw [Value.emit, Value.emit]
      congr
      funext tag
      rw [Payload.emit_raw (.inr rfl),
        Payload.emit_raw (.inl ⟨rfl, hRaw⟩)]

/-
  An element is encoded as the one it stands for, or not at
  all for the same reason.
-/
theorem Element.encode_of_standsFor
    {changed element : Element}
    (hStands : changed.value.StandsFor element.value) :
    changed.encode = element.encode := by
  have hSize : changed.validate = element.validate :=
    measure_of_standsFor hStands .standard 0
  unfold Element.encode
  rw [hSize]
  apply encodeWith_congr
  intro n dest hValid
  have hChanged :=
    Element.emit_validated (hSize.trans hValid) true 0
  have hElement := Element.emit_validated hValid true 0
  unfold Element.write
  dsimp only
  rw [hStands.framed.isInitialized_eq,
    hStands.framed.headerLength_eq, hChanged, hElement]
  split
  · exact ⟨rfl, fun _ _ => rfl⟩
  split
  · exact ⟨rfl, fun _ _ => rfl⟩
  · exact (hStands.emit_agrees true 0).into 0 _ dest

/- So is a document. -/
theorem Document.StandsFor.encode_eq
    {changed doc : Document}
    (hStands : changed.StandsFor doc) :
    changed.encode = doc.encode := by
  have hSize : changed.validate = doc.validate :=
    hStands.measure_eq .standard 0
  unfold Document.encode
  rw [hSize]
  apply encodeWith_congr
  intro n dest _
  exact (hStands.emit_agrees 0).into 0 n dest

end BsonView

------------------------------------------------------------
-- Views Along Paths
------------------------------------------------------------

namespace BsonView

namespace View

/- A view stands for another of its kind. -/
inductive StandsFor : View → View → Prop
| document
    {changed doc : Document}
    (hDoc : changed.StandsFor doc) :
    StandsFor (.document changed) (.document doc)
| array
    {changed array : ArrayDoc}
    (hArray : changed.StandsFor array) :
    StandsFor (.array changed) (.array array)
| element
    {changed element : Element}
    (hValue : changed.value.StandsFor element.value) :
    StandsFor (.element changed) (.element element)
| value
    {changed value : Value}
    (hValue : changed.StandsFor value) :
    StandsFor (.value changed) (.value value)

theorem StandsFor.refl
    (view : View) :
    view.StandsFor view := by
  cases view with
  | document doc => exact .document (.refl doc)
  | array array => exact .array (.refl array)
  | element element => exact .element (.refl element.value)
  | value value => exact .value (.refl value)

/- A view stands for another as its single value does. -/
theorem withValue_standsFor
    {changed value : Value}
    (hStands : changed.StandsFor value)
    (view : View) :
    (view.withValue changed).StandsFor
      (view.withValue value) := by
  cases view with
  | document doc => exact .refl _
  | array array => exact .refl _
  | element element => exact .element hStands
  | value own => exact .value hStands

/-
  What is put back after a step stands for what was there if
  it does so by itself. A view of another kind than the step
  leads to is not put back.
-/
theorem StandsFor.putBack
    {step : PathStep}
    {view inner changed other : View}
    {putBack : View → View}
    (hLeads : Leads step view inner putBack)
    (hStands : changed.StandsFor other) :
    (putBack changed).StandsFor (putBack other) := by
  cases hStands with
  | document hDoc =>
      cases hLeads with
      | document _ _ | scope _ _ | array _ _ =>
          exact withValue_standsFor
            (Value.holding_document_standsFor hDoc _) _
      | member _ | item _ | value _ => exact .refl _
  | array hArray =>
      cases hLeads with
      | document _ _ | scope _ _ | array _ _ =>
          exact withValue_standsFor
            (Value.holding_array_standsFor hArray _) _
      | member _ | item _ | value _ => exact .refl _
  | element hValue =>
      cases hLeads with
      | member _ =>
          exact .document
            (Document.standsFor_of_elements
              (elementsStandFor_set hValue _ _))
      | _ => exact .refl _
  | value hValue =>
      cases hLeads with
      | item _ =>
          exact .array
            (ArrayDoc.standsFor_of_elements
              (elementsStandFor_set hValue _ _))
      | value _ => exact withValue_standsFor hValue _
      | _ => exact .refl _

/-
  What is changed at the end of a path into a view that
  stands for it makes no difference to the view that the
  path is in, but for what the path opens.
-/
theorem actAt_standsFor
    {α : Type}
    {act : View → α × View}
    (hAct : ∀ inner, (act inner).2.StandsFor inner)
    (path : List PathStep)
    (view : View) :
    (view.actAt act path).2.StandsFor
      (view.openAlong path) := by
  induction path generalizing view with
  | nil => exact hAct view
  | cons step rest ih =>
      rw [openAlong_cons, actAt]
      cases hFollow : view.follow step with
      | error obstacle => exact .refl view
      | ok answer =>
          rcases answer with ⟨inner, putBack⟩
          exact StandsFor.putBack (leads_of_follow hFollow)
            (ih inner)

end View

end BsonView
