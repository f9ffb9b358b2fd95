import BsonView.Proofs.Opening.Steps
import BsonView.Proofs.Reading.Causes
import BsonView.Proofs.Views.Observers

/-
  Access to what views say.

  A view that says something lets all of it be reached:
  every container opens, whatever path leads to it, and
  every scalar is read by the accessor of its type, unless
  it is not a text where it should be one.

  Main declarations:
    * `Value.access`
    * `Value.access_of_scalarLength`
    * `Value.openDocument_of_holds`
    * `Value.openArray_of_holds`
    * `Value.openScope_of_holds`
    * `Value.asCodeWithScope_of_holds`
    * `View.SaysSomething`
    * `View.saysSomething_of_leads`
    * `Value.access_of_holds`
-/

------------------------------------------------------------
-- Accessors By Type
------------------------------------------------------------

namespace BsonView

/-
  The outcome of the accessor of a type, apart from what it
  answers. Types without a payload have no accessor.
-/
def Value.access (value : Value) : Tag → Except Error Unit
| .double => value.asDouble.map fun _ => ()
| .string => value.asString.map fun _ => ()
| .embeddedDocument => value.asDocument.map fun _ => ()
| .array => value.asArray.map fun _ => ()
| .binary => value.asBinary.map fun _ => ()
| .objectId => value.asObjectId.map fun _ => ()
| .boolean => value.asBoolean.map fun _ => ()
| .dateTime => value.asDateTime.map fun _ => ()
| .regex => value.asRegex.map fun _ => ()
| .dbPointer => value.asDbPointer.map fun _ => ()
| .javaScript => value.asJavaScript.map fun _ => ()
| .symbol => value.asSymbol.map fun _ => ()
| .codeWithScope => value.asCodeWithScope.map fun _ => ()
| .int32 => value.asInt32.map fun _ => ()
| .timestamp => value.asTimestamp.map fun _ => ()
| .int64 => value.asInt64.map fun _ => ()
| .decimal128 => value.asDecimal128.map fun _ => ()
| .undefined | .null | .minKey | .maxKey => .ok ()

/- The outcome fails, if at all, for want of a text. -/
def FailsByText
    {α : Type}
    (outcome : Except Error α) : Prop :=
  FailsOnly (· = .invalidUtf8) outcome

section

variable {α β : Type} {bytes : Bytes} {n : Nat}

/- Forgetting an answer changes no failure. -/
theorem FailsByText.map
    {outcome : Except Error α}
    (hOutcome : FailsByText outcome)
    (change : α → β) :
    FailsByText (outcome.map change) := by
  cases outcome with
  | error error =>
      exact failsOnly_error (hOutcome error rfl)
  | ok a => exact failsOnly_ok _

/- What follows an answer alone can fail. -/
theorem failsByText_bind
    {first : Except Error α}
    {next : α → Except Error β}
    {a : α}
    (hFirst : first = .ok a)
    (hNext : FailsByText (next a)) :
    FailsByText (first >>= next) := by
  rw [hFirst]
  exact hNext

theorem Bytes.text_failsByText
    (bytes : Bytes) :
    FailsByText bytes.text := by
  unfold Bytes.text
  split
  · exact failsOnly_ok _
  · exact failsOnly_error rfl

/- Words are read where there are bytes enough. -/
theorem Word.readUInt32_failsByText
    (hThere : 4 ≤ bytes.length) :
    FailsByText (readUInt32 bytes) := by
  unfold readUInt32 front
  rw [if_pos hThere]
  exact failsOnly_ok _

theorem Word.readUInt64_failsByText
    (hThere : 8 ≤ bytes.length) :
    FailsByText (readUInt64 bytes) := by
  unfold readUInt64 front
  rw [if_pos hThere]
  exact failsOnly_ok _

theorem Word.readInt64_failsByText
    (hThere : 8 ≤ bytes.length) :
    FailsByText (readInt64 bytes) :=
  (readUInt64_failsByText hThere).bind
    fun _ _ => failsOnly_ok _

theorem Block.read_failsByText
    {width : Nat}
    (hThere : width ≤ bytes.length) :
    FailsByText (Block.read width bytes) := by
  unfold Block.read
  rw [dif_pos hThere]
  exact failsOnly_ok _

namespace Scalar

/- A string that is measured is read if it is a text. -/
theorem readString_failsByText
    (hLength : Framing.stringLength bytes = .ok n) :
    FailsByText (readString bytes) :=
  failsByText_bind hLength (Bytes.text_failsByText _)

/- So are the two strings of a regex. -/
theorem readRegex_failsByText
    (hLength : Framing.payloadLength .regex bytes = .ok n) :
    FailsByText (readRegex bytes) := by
  rcases bind_eq_ok.mp hLength with
    ⟨pattern, hPattern, hRest⟩
  rcases bind_eq_ok.mp hRest with ⟨options, hOptions, _⟩
  unfold readRegex
  rw [readCString_eq hPattern]
  refine FailsOnly.bind ?_ ?_
  · refine (Bytes.text_failsByText _).bind ?_
    exact fun _ _ => failsOnly_ok _
  rintro ⟨text, rest⟩ hText
  rcases bind_eq_ok.mp hText with ⟨_, _, hDone⟩
  cases hDone
  dsimp only
  rw [readCString_eq hOptions]
  refine FailsOnly.bind ?_ ?_
  · refine (Bytes.text_failsByText _).bind ?_
    exact fun _ _ => failsOnly_ok _
  · exact fun _ _ => failsOnly_ok _

/- The name of a database pointer may fail to be a text. -/
theorem readDbPointer_failsByText
    (hLength :
      Framing.payloadLength .dbPointer bytes = .ok n) :
    FailsByText (readDbPointer bytes) := by
  rcases bind_eq_ok.mp hLength with ⟨name, hName, hClaim⟩
  have hThere := (Framing.claim_eq_ok.mp hClaim).2
  refine (readString_failsByText hName).bind ?_
  intro text _
  refine failsByText_bind hName ?_
  have hBlock :
      FailsByText (Block.read 12 (bytes.drop name)) := by
    apply Block.read_failsByText
    rw [List.length_drop]
    omega
  exact hBlock.bind fun _ _ => failsOnly_ok _

end Scalar

end

end BsonView

------------------------------------------------------------
-- Scalars
------------------------------------------------------------

namespace BsonView

namespace Value

/- An accessor of the right type is its reader. -/
theorem failsByText_of_checkTag
    {α : Type}
    {value : Value}
    {tag : Tag}
    {outcome : Except Error α}
    (hTag : value.tag = .ok tag)
    (hOutcome : FailsByText outcome) :
    FailsByText
      ((value.checkTag tag >>= fun _ => outcome).map
        fun _ => ()) :=
  (failsByText_bind (Place.checkTag_eq_ok.mpr hTag)
    hOutcome).map _

/- A scalar whose payload is checked is read, or no text. -/
theorem access_of_scalarLength
    {value : Value}
    {tag : Tag}
    {n : Nat}
    (hTag : value.tag = .ok tag)
    (hScalar : tag.isScalar = true)
    (hLength :
      Framing.scalarLength tag value.rest = .ok n) :
    FailsByText (value.access tag) := by
  have hFramed :=
    Framing.payloadLength_of_scalarLength hLength
  cases tag with
  | embeddedDocument | array | codeWithScope =>
      cases hScalar
  | undefined | null | minKey | maxKey =>
      exact failsOnly_ok ()
  | double =>
      have hThere := (Framing.claim_eq_ok.mp hFramed).2
      refine failsByText_of_checkTag hTag ?_
      exact
        (Word.readUInt64_failsByText hThere).bind
          fun _ _ => failsOnly_ok _
  | dateTime | int64 =>
      exact
        failsByText_of_checkTag hTag
          (Word.readInt64_failsByText
            (Framing.claim_eq_ok.mp hFramed).2)
  | int32 =>
      have hThere := (Framing.claim_eq_ok.mp hFramed).2
      refine failsByText_of_checkTag hTag ?_
      exact
        (Word.readUInt32_failsByText hThere).bind
          fun _ _ => failsOnly_ok _
  | timestamp =>
      have hThere := (Framing.claim_eq_ok.mp hFramed).2
      have hFirst : 4 ≤ value.rest.length :=
        Nat.le_trans (by decide) hThere
      have hSecond : 4 ≤ (value.rest.drop 4).length := by
        rw [List.length_drop]
        exact Nat.le_sub_of_add_le hThere
      refine failsByText_of_checkTag hTag ?_
      refine
        (Word.readUInt32_failsByText hFirst).bind
          fun _ _ => ?_
      exact
        (Word.readUInt32_failsByText hSecond).bind
          fun _ _ => failsOnly_ok _
  | objectId | decimal128 =>
      exact
        failsByText_of_checkTag hTag
          (Block.read_failsByText
            (Framing.claim_eq_ok.mp hFramed).2)
  | string | javaScript | symbol =>
      exact
        failsByText_of_checkTag hTag
          (Scalar.readString_failsByText hFramed)
  | binary =>
      exact
        failsByText_of_checkTag hTag
          (failsByText_bind hFramed (failsOnly_ok _))
  | regex =>
      exact
        failsByText_of_checkTag hTag
          (Scalar.readRegex_failsByText hFramed)
  | dbPointer =>
      exact
        failsByText_of_checkTag hTag
          (Scalar.readDbPointer_failsByText hFramed)
  | boolean =>
      rcases Framing.scalarLength_boolean_eq_ok.mp hLength
        with ⟨_, b, rest, hRest, hAllowed⟩
      refine failsByText_of_checkTag hTag ?_
      rw [hRest]
      rcases hAllowed with rfl | rfl
      · exact failsOnly_ok false
      · exact failsOnly_ok true

end Value

end BsonView

------------------------------------------------------------
-- Containers
------------------------------------------------------------

namespace BsonView

open Grammar

namespace Value

variable {value : Value} {said : List Member}

/- What is said of a value that is not opened is shown. -/
theorem shows_of_holds
    {content : Content}
    (hHolds : value.Holds content)
    (hRaw : value.payload = .raw) :
    ∃ tree : ParseTree, value.Shows tree ∧
      content = tree.content := by
  rcases value with ⟨place, payload⟩
  cases hRaw
  rcases hHolds with ⟨hTag, tree, hTree, hFront, rfl⟩
  rw [ParseTree.tag_content] at hTag
  exact ⟨tree, ⟨rfl, hTag, hTree, hFront⟩, rfl⟩

/-
  A document that is said can be opened, and says the same
  then.
-/
theorem openDocument_of_holds
    (hHolds : value.Holds (.document said)) :
    ∃ doc, value.openDocument = .ok doc ∧
      doc.Holds said := by
  rcases value with ⟨place, payload⟩
  cases payload with
  | raw =>
      rcases shows_of_holds hHolds rfl with
        ⟨tree, hShows, hSaid⟩
      cases tree with
      | document fields =>
          cases hSaid
          rcases hShows.openDocument with
            ⟨⟨elements⟩, hOpen, hShow⟩
          exact ⟨_, hOpen, elementsHold_of_show hShow⟩
      | _ => cases hSaid
  | document doc =>
      exact
        ⟨doc, openDocument_of_opened rfl hHolds.1, hHolds.2⟩
  | array array => exact hHolds.2.elim

/- So can an array. -/
theorem openArray_of_holds
    {items : List Content}
    (hHolds : value.Holds (.array items)) :
    ∃ array, value.openArray = .ok array ∧
      array.Holds items := by
  rcases value with ⟨place, payload⟩
  cases payload with
  | raw =>
      rcases shows_of_holds hHolds rfl with
        ⟨tree, hShows, hSaid⟩
      cases tree with
      | array fields =>
          cases hSaid
          rcases hShows.openArray with
            ⟨⟨elements⟩, hOpen, hShow⟩
          refine ⟨_, hOpen, ?_⟩
          rw [← content_members]
          exact
            valuesHold_of_elements
              (elementsHold_of_show hShow)
      | _ => cases hSaid
  | array array =>
      exact
        ⟨array, openArray_of_opened rfl hHolds.1, hHolds.2⟩
  | document doc => exact hHolds.2.elim

/- So can a scope, and its code stands before it. -/
theorem openScope_of_holds
    {text : Bytes}
    (hHolds : value.Holds (.code text said)) :
    text.length + 1 ≤ Word.maxLength ∧
      stringForm text <+: value.rest.drop 4 ∧
      ∃ scope, value.openScope = .ok scope ∧
        scope.Holds said := by
  rcases value with ⟨place, payload⟩
  cases payload with
  | raw =>
      rcases shows_of_holds hHolds rfl with
        ⟨tree, hShows, hSaid⟩
      cases tree with
      | code outer own fields =>
          cases hSaid
          rcases hShows.openScope with
            ⟨hText, hString, ⟨elements⟩, hOpen, hShow⟩
          exact
            ⟨hText, hString, _, hOpen,
              elementsHold_of_show hShow⟩
      | _ => cases hSaid
  | document scope =>
      rcases hHolds with ⟨hTag, hText, hString, hScope⟩
      exact
        ⟨hText, hString, scope,
          openScope_of_opened rfl hTag, hScope⟩
  | array array => exact hHolds.2.elim

/- What is said of a code is answered, if it is a text. -/
theorem asCodeWithScope_of_holds
    {text : Bytes}
    (hHolds : value.Holds (.code text said)) :
    ∃ scope, scope.Holds said ∧
      value.asCodeWithScope =
        Bytes.text text >>= fun code => .ok (code, scope) := by
  rcases openScope_of_holds hHolds with
    ⟨hText, hString, scope, hOpen, hScope⟩
  have hCode : value.code = Bytes.text text :=
    Scalar.readString_of_form hText hString
  refine ⟨scope, hScope, ?_⟩
  rw [asCodeWithScope_of_openScope hOpen, hCode]

/- A scalar that is said stands in the buffer. -/
theorem scalarForm_of_holds
    {tag : Tag}
    {bytes : Bytes}
    (hHolds : value.Holds (.scalar tag bytes)) :
    ScalarForm tag bytes ∧ bytes <+: value.rest := by
  rcases value with ⟨place, payload⟩
  cases payload with
  | raw =>
      rcases shows_of_holds hHolds rfl with
        ⟨tree, hShows, hSaid⟩
      cases tree with
      | scalar own form =>
          cases hSaid
          exact ⟨hShows.wellFormed, hShows.front⟩
      | _ => cases hSaid
  | document doc => exact hHolds.2.elim
  | array array => exact hHolds.2.elim

/- What is not opened has the bytes it says. -/
theorem payloadBytes_of_holds
    {content : Content}
    (hHolds : value.Holds content)
    (hRaw : value.payload = .raw) :
    ∃ bytes, value.payloadBytes = .ok bytes := by
  rcases shows_of_holds hHolds hRaw with ⟨tree, hShows, _⟩
  exact ⟨tree.bytes, hShows.payloadBytes⟩

/- What is said is of the form that the type tells. -/
theorem cases_of_holds
    {content : Content}
    {tag : Tag}
    (hHolds : value.Holds content)
    (hTag : value.tag = .ok tag) :
    match tag with
    | .embeddedDocument => ∃ said, content = .document said
    | .array => ∃ items, content = .array items
    | .codeWithScope =>
        ∃ text scope, content = .code text scope
    | other => ∃ bytes, content = .scalar other bytes := by
  cases hTag.symm.trans (tag_of_holds hHolds)
  cases content with
  | document said => exact ⟨said, rfl⟩
  | array items => exact ⟨items, rfl⟩
  | code text scope => exact ⟨text, scope, rfl⟩
  | scalar own bytes =>
      have hScalar :=
        (scalarForm_of_holds hHolds).1.isScalar
      cases own with
      | embeddedDocument | array | codeWithScope =>
          cases hScalar
      | _ => exact ⟨bytes, rfl⟩

/-
  The accessor of the type of a value that says something
  fails at most for want of a text.
-/
theorem access_of_holds
    {content : Content}
    (hHolds : value.Holds content) :
    FailsByText (value.access content.tag) := by
  cases content with
  | scalar tag bytes =>
      rcases scalarForm_of_holds hHolds with ⟨hForm, hFront⟩
      exact
        access_of_scalarLength (tag_of_holds hHolds)
          hForm.isScalar (hForm.scalarLength hFront)
  | document said =>
      rcases openDocument_of_holds hHolds with
        ⟨doc, hOpen, _⟩
      have hAnswer : FailsByText value.asDocument := by
        rw [asDocument_of_openDocument hOpen]
        exact failsOnly_ok doc
      exact hAnswer.map _
  | array items =>
      rcases openArray_of_holds hHolds with
        ⟨array, hOpen, _⟩
      have hAnswer : FailsByText value.asArray := by
        rw [asArray_of_openArray hOpen]
        exact failsOnly_ok array
      exact hAnswer.map _
  | code text said =>
      rcases asCodeWithScope_of_holds hHolds with
        ⟨scope, _, hBoth⟩
      have hAnswer : FailsByText value.asCodeWithScope := by
        rw [hBoth]
        refine (Bytes.text_failsByText text).bind ?_
        exact fun _ _ => failsOnly_ok _
      exact hAnswer.map _

end Value

end BsonView

------------------------------------------------------------
-- Views That Say Something
------------------------------------------------------------

namespace BsonView

/- Each of the values that say something says something. -/
theorem exists_holds_of_mem :
    ∀ {elements : List Element} {said : List Content},
      valuesHold elements said →
      ∀ element ∈ elements,
        ∃ content, element.value.Holds content
| ⟨value⟩ :: rest, content :: _, ⟨hContent, hSaid⟩ =>
    List.forall_mem_cons.mpr
      ⟨⟨content, hContent⟩, exists_holds_of_mem hSaid⟩
| [], _, _ => by simp
| ⟨_⟩ :: _, [], hHold => hHold.elim

namespace Value

variable {value : Value}

/- What is opened has the type of what it is opened as. -/
theorem tag_of_openDocument
    {doc : Document}
    (hOpen : value.openDocument = .ok doc) :
    value.tag = .ok .embeddedDocument := by
  rcases bind_eq_ok.mp hOpen with ⟨⟨⟩, hCheck, _⟩
  exact Place.checkTag_eq_ok.mp hCheck

theorem tag_of_openArray
    {array : ArrayDoc}
    (hOpen : value.openArray = .ok array) :
    value.tag = .ok .array := by
  rcases bind_eq_ok.mp hOpen with ⟨⟨⟩, hCheck, _⟩
  exact Place.checkTag_eq_ok.mp hCheck

theorem tag_of_openScope
    {scope : Document}
    (hOpen : value.openScope = .ok scope) :
    value.tag = .ok .codeWithScope := by
  rcases bind_eq_ok.mp hOpen with ⟨⟨⟩, hCheck, _⟩
  exact Place.checkTag_eq_ok.mp hCheck

end Value

namespace View

/- The view says something, all the way down. -/
def SaysSomething : View → Prop
| .document d => ∃ said, d.Holds said
| .array a => ∃ said, a.Holds said
| .element e => ∃ content, e.value.Holds content
| .value v => ∃ content, v.Holds content

/- A valid view says something. -/
theorem saysSomething_of_valid
    {view : View}
    {limits : Limits}
    {n : Nat}
    (hValid : view.validateWith limits = .ok n) :
    view.SaysSomething := by
  cases view with
  | document doc => exact Document.exists_holds hValid
  | array array => exact ArrayDoc.exists_holds hValid
  | element element =>
      rcases Element.exists_holds hValid with
        ⟨member, _, hContent⟩
      exact ⟨member.content, hContent⟩
  | value value => exact Value.exists_holds hValid

/- The value of a view says something if the view does. -/
theorem holds_of_value?
    {view : View}
    {value : Value}
    (hValue : view.value? = some value)
    (hView : view.SaysSomething) :
    ∃ content, value.Holds content := by
  rcases value?_eq_some.mp hValue with rfl | rfl
  · exact hView
  · exact hView

/- No step leads to where nothing is said. -/
theorem saysSomething_of_leads
    {step : PathStep}
    {view inner : View}
    {putBack : View → View}
    (hLeads : Leads step view inner putBack)
    (hView : view.SaysSomething) :
    inner.SaysSomething := by
  cases hLeads with
  | @member _ doc _ element hElement =>
      rcases hView with ⟨said, hDoc⟩
      rcases doc with ⟨elements⟩
      exact
        exists_holds_of_mem (valuesHold_of_elements hDoc)
          element (List.mem_of_getElem? hElement)
  | @item _ array _ value hValue =>
      rcases hView with ⟨said, hArray⟩
      rcases array with ⟨elements⟩
      rcases Option.map_eq_some_iff.mp hValue with
        ⟨element, hElement, rfl⟩
      exact
        exists_holds_of_mem hArray element
          (List.mem_of_getElem? hElement)
  | value hValue => exact holds_of_value? hValue hView
  | document hValue hOpen =>
      rcases holds_of_value? hValue hView with
        ⟨content, hHolds⟩
      rcases Value.cases_of_holds hHolds
          (Value.tag_of_openDocument hOpen) with ⟨said, rfl⟩
      rcases Value.openDocument_of_holds hHolds with
        ⟨doc, hSame, hDoc⟩
      cases hOpen.symm.trans hSame
      exact ⟨said, hDoc⟩
  | array hValue hOpen =>
      rcases holds_of_value? hValue hView with
        ⟨content, hHolds⟩
      rcases Value.cases_of_holds hHolds
          (Value.tag_of_openArray hOpen) with ⟨items, rfl⟩
      rcases Value.openArray_of_holds hHolds with
        ⟨array, hSame, hArray⟩
      cases hOpen.symm.trans hSame
      exact ⟨items, hArray⟩
  | scope hValue hOpen =>
      rcases holds_of_value? hValue hView with
        ⟨content, hHolds⟩
      rcases Value.cases_of_holds hHolds
          (Value.tag_of_openScope hOpen) with
        ⟨text, said, rfl⟩
      rcases Value.openScope_of_holds hHolds with
        ⟨_, _, scope, hSame, hScope⟩
      cases hOpen.symm.trans hSame
      exact ⟨said, hScope⟩

end View

end BsonView
