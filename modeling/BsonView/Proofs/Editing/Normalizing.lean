import BsonView.Proofs.Sessions.Operations
import BsonView.Proofs.Writing.OuterLengths

/-
  Normalizing outer lengths.

  To normalize a code with scope is to put the outer length
  that is written of it in place of its own. As the outer
  length makes no difference, this changes nothing that can
  be told of the code or of a view around it; and what is
  normalized once stays as it is.

  Main declarations:
    * `Value.normalizeLength_of_code`
    * `Value.normalizeLength_standsFor`
    * `Value.normalizeLength_again`
    * `Value.OuterSet`
    * `Value.written_outer_of_normalizeLength`
    * `Document.NormalizedInTurn`
    * `Document.normalizeLengths_standsFor`
    * `View.normalize_along`
    * `normalizing_changes_outer_lengths_only`
-/

------------------------------------------------------------
-- Normalized Values
------------------------------------------------------------

namespace BsonView

open Grammar

namespace Value

variable
  {value changed : Value}
  {corrected : Bool}

theorem withOuter_self
    (hRoom : value.offset + 4 ≤ value.buffer.length) :
    value.withOuter (value.rest.take 4) = value := by
  rcases value with ⟨place, payload⟩
  have hSelf : place.withOuter (place.rest.take 4) = place :=
    Place.withOuter_self hRoom
  unfold withOuter
  rw [hSelf]

theorem take_rest_withOuter
    {field : Bytes}
    (hRoom : value.offset + 4 ≤ value.buffer.length)
    (hField : field.length = 4) :
    (value.withOuter field).rest.take 4 = field := by
  have hPut : (value.withOuter field).rest = _ :=
    Place.rest_withOuter hRoom hField
  rw [hPut, List.take_left' hField]

/- A code whose parts have lengths has an outer length. -/
theorem room_of_agreeingField
    {total : Int32}
    (hTotal : value.agreeingField = .ok total) :
    value.offset + 4 ≤ value.buffer.length := by
  rcases bind_eq_ok.mp hTotal with ⟨length, hLength, _⟩
  rcases bind_eq_ok.mp hLength with ⟨lead, hLead, _⟩
  rcases bind_eq_ok.mp hLead with ⟨code, hCode, _⟩
  have hFront := (Word.readLength_eq_ok.mp hCode).2.length_le
  rw [Word.length_ofLength, Place.rest, List.length_drop,
    List.length_drop] at hFront
  omega

/-
  Normalizing a code puts the field that agrees in place of
  its outer length, which changes nothing where that is the
  field. There is nothing else that it can fail for than
  want of such a field.
-/
theorem normalizeLength_of_code
    (hTag : value.tag = .ok .codeWithScope) :
    value.normalizeLength =
      match value.agreeingField with
      | .error error => (.error error, value)
      | .ok total =>
          (.ok (decide
              (value.rest.take 4 ≠ Word.ofInt32 total)),
            value.withOuter (Word.ofInt32 total)) := by
  have hCorrection :
      value.outerCorrection =
        (do
          let total ← value.agreeingField
          let declared ← Word.readInt32 value.rest
          if declared = total then
            return none
          return some total) := by
    unfold outerCorrection agreeingField
    rw [hTag, ok_bind, if_neg (by simp)]
    cases value.scopedLength <;> rfl
  unfold normalizeLength
  rw [hCorrection]
  cases hTotal : value.agreeingField with
  | error error => rfl
  | ok total =>
      have hRoom := room_of_agreeingField hTotal
      have hThere := Place.four_le_rest hRoom
      have hOuter : (value.rest.take 4).length = 4 := by
        rw [List.length_take, Nat.min_eq_left hThere]
      have hDeclared :=
        Word.readInt32_eq_ok.mpr ⟨hThere, rfl⟩
      have hStored := Word.ofInt32_of_value hOuter
      rw [ok_bind, hDeclared, ok_bind]
      by_cases hSame :
          (UInt32.ofNat
              (Word.value (value.rest.take 4))).toInt32 =
            total
      · rw [hSame] at hStored
        simp [hSame, hStored, withOuter_self hRoom, pure,
          Except.pure]
      · have hOther :
            value.rest.take 4 ≠ Word.ofInt32 total := by
          intro hStoredSame
          have hRead := Word.readInt32_ofInt32 total
            (value.rest.drop 4)
          rw [← hStoredSame, List.take_append_drop,
            hDeclared] at hRead
          exact hSame (Except.ok.inj hRead)
        rw [if_neg hSame]
        simp [hOther, Word.putInt32, hRoom, pure,
          Except.pure, withOuter, Place.withOuter]

/- A code that can be normalized gets the field that agrees. -/
theorem of_normalizeLength_code
    (hTag : value.tag = .ok .codeWithScope)
    (hNormal :
      value.normalizeLength = (.ok corrected, changed)) :
    ∃ total, value.agreeingField = .ok total ∧
      changed = value.withOuter (Word.ofInt32 total) ∧
      corrected =
        decide (value.rest.take 4 ≠ Word.ofInt32 total) := by
  rw [normalizeLength_of_code hTag] at hNormal
  cases hTotal : value.agreeingField with
  | error error =>
      rw [hTotal] at hNormal
      cases hNormal
  | ok total =>
      rw [hTotal] at hNormal
      cases hNormal
      exact ⟨total, rfl, rfl, rfl⟩

/- A value that can be normalized is a code or stays. -/
theorem of_normalizeLength_eq_ok
    (hNormal :
      value.normalizeLength = (.ok corrected, changed)) :
    value.tag = .ok .codeWithScope ∨
      changed = value ∧ corrected = false := by
  unfold normalizeLength at hNormal
  split at hNormal
  · cases hNormal
  · cases hNormal
    exact .inr ⟨rfl, rfl⟩
  next hCorrection =>
    exact .inl (tag_of_outerCorrection hCorrection)

/-
  A value that cannot be normalized has no type, or is a
  code that has no field that agrees.
-/
theorem of_normalizeLength_eq_error
    {error : Error}
    (hFail : value.normalizeLength.1 = .error error) :
    value.tag = .error error ∨
      value.tag = .ok .codeWithScope ∧
        value.agreeingField = .error error := by
  by_cases hCode : value.tag = .ok .codeWithScope
  · refine .inr ⟨hCode, ?_⟩
    rw [normalizeLength_of_code hCode] at hFail
    cases hField : value.agreeingField with
    | error other => simpa [hField] using hFail
    | ok total => simp [hField] at hFail
  · refine .inl ?_
    cases hTag : value.tag with
    | error other =>
        simpa [normalizeLength, outerCorrection, hTag]
          using hFail
    | ok tag =>
        have hOther : tag ≠ .codeWithScope := by
          intro hSame
          exact hCode (hSame ▸ hTag)
        simp [normalizeLength, outerCorrection, hTag, hOther,
          pure, Except.pure] at hFail

/- A value that can be normalized stands for itself. -/
theorem standsFor_of_normalizeLength
    (hNormal :
      value.normalizeLength = (.ok corrected, changed)) :
    changed.StandsFor value := by
  rcases of_normalizeLength_eq_ok hNormal with
    hTag | ⟨rfl, _⟩
  · rcases of_normalizeLength_code hTag hNormal with
      ⟨total, hTotal, rfl, _⟩
    exact withOuter_standsFor hTag
      (room_of_agreeingField hTotal)
      (Word.length_ofInt32 total)
  · exact .refl changed

/- Whether it can be or not, what is left stands for it. -/
theorem normalizeLength_standsFor
    (value : Value) :
    value.normalizeLength.2.StandsFor value := by
  rcases hNormal : value.normalizeLength with
    ⟨error | corrected, changed⟩
  · have hKept :=
      normalizeLength_of_error (congrArg Prod.fst hNormal)
    rw [hNormal] at hKept
    rw [hKept]
    exact .refl value
  · exact standsFor_of_normalizeLength hNormal

/- What is normalized once is not changed any more. -/
theorem normalizeLength_again
    (hNormal :
      value.normalizeLength = (.ok corrected, changed)) :
    changed.normalizeLength = (.ok false, changed) := by
  rcases of_normalizeLength_eq_ok hNormal with
    hTag | ⟨rfl, rfl⟩
  swap
  · exact hNormal
  rcases of_normalizeLength_code hTag hNormal with
    ⟨total, hTotal, hChanged, _⟩
  have hRoom := room_of_agreeingField hTotal
  have hField := Word.length_ofInt32 total
  have hFramed := Place.withOuter_framed hRoom hField
  have hSame := (tag_withOuter hRoom hField).trans hTag
  have hAgain :=
    (agreeingField_withOuter hRoom hField).trans hTotal
  have hRest := take_rest_withOuter hRoom hField
  have hOther :
      (value.withOuter (Word.ofInt32 total)).offset + 4 ≤
        (value.withOuter
          (Word.ofInt32 total)).buffer.length :=
    room_of_agreeingField hAgain
  have hSelf := withOuter_self hOther
  rw [hRest] at hSelf
  rw [hChanged, normalizeLength_of_code hSame, hAgain]
  simp [hSelf, hRest]

end Value

end BsonView

------------------------------------------------------------
-- What Normalizing Changes
------------------------------------------------------------

namespace BsonView

open Grammar

/-
  The changed value is at the same positions, with the same
  payload, of a buffer that is the same but for four bytes
  at the payload's position; and it is `corrected` when
  these differ.
-/
structure Value.OuterSet
    (value changed : Value)
    (corrected : Bool) : Prop where
  start_eq : changed.start = value.start
  offset_eq : changed.offset = value.offset
  payload_eq : changed.payload = value.payload
  length_eq : changed.buffer.length = value.buffer.length
  outside_eq :
    ∀ i, i < value.offset ∨ value.offset + 4 ≤ i →
      changed.buffer[i]? = value.buffer[i]?
  corrected_iff :
    corrected = true ↔
      changed.rest.take 4 ≠ value.rest.take 4
  buffer_iff :
    corrected = true ↔ changed.buffer ≠ value.buffer

namespace Value

variable
  {value changed : Value}
  {corrected : Bool}

/- Normalizing sets the outer length and nothing else. -/
theorem outerSet_of_normalizeLength
    (hNormal :
      value.normalizeLength = (.ok corrected, changed)) :
    value.OuterSet changed corrected := by
  rcases of_normalizeLength_eq_ok hNormal with
    hTag | ⟨rfl, rfl⟩
  swap
  · exact
      ⟨rfl, rfl, rfl, rfl, fun _ _ => rfl, by simp, by simp⟩
  rcases of_normalizeLength_code hTag hNormal with
    ⟨total, hTotal, rfl, rfl⟩
  have hRoom := room_of_agreeingField hTotal
  have hField := Word.length_ofInt32 total
  have hFits :
      value.offset + (Word.ofInt32 total).length ≤
        value.buffer.length := by
    rw [hField]
    exact hRoom
  have hRest := take_rest_withOuter hRoom hField
  refine
    ⟨rfl, rfl, rfl, Bytes.length_overwrite hFits, ?_, ?_, ?_⟩
  · intro i hOutside
    rcases hOutside with hBefore | hBehind
    · exact Bytes.getElem?_overwrite_before hFits hBefore
    · apply Bytes.getElem?_overwrite_behind hFits
      rw [hField]
      exact hBehind
  · rw [hRest, decide_eq_true_iff]
    exact ne_comm
  · rw [decide_eq_true_iff]
    constructor
    · intro hDiffers hBuffer
      apply hDiffers
      rw [← hRest]
      exact congrArg
        (fun buffer => (buffer.drop value.offset).take 4)
        hBuffer.symm
    · intro hBuffer hSame
      have hSelf := withOuter_self hRoom
      rw [hSame] at hSelf
      exact hBuffer (congrArg (·.buffer) hSelf)

/-
  What a code that encodes a tree says its length to be is
  the length of the tree.
-/
theorem scopedLength_of_encodes
    {tree : ParseTree}
    {n : Nat}
    (hTag : value.tag = .ok .codeWithScope)
    (hTree : value.Encodes tree)
    (hLength : value.scopedLength = .ok n) :
    ∃ text scope,
      tree = .code (outerField text scope) text scope ∧
        n = tree.bytes.length := by
  rcases value with ⟨place, payload⟩
  rcases hTree with ⟨hOwn, hPayload⟩
  have hSame := Except.ok.inj (hTag.symm.trans hOwn)
  cases payload with
  | raw =>
      rcases hPayload with ⟨found, hFound, hFront, rfl⟩
      rw [ParseTree.tag_agreeing] at hSame
      rcases hFound.code_of_tag hSame.symm with
        ⟨outer, text, scope, rfl⟩
      refine ⟨text, scope, rfl, ?_⟩
      rw [ParseTree.length_agreeing hFound]
      rcases hFound with ⟨hOuter, hText, _, hScope⟩
      rcases (code_bytes_iff hOuter).mp hFront with
        ⟨_, hString, hBody⟩
      have hLead := Place.scopeOffset_eq hText hString
      have hRead :
          Word.readLength
              (place.rest.drop
                (4 + (stringForm text).length)) =
            .ok (documentBytes scope).length :=
        readLength_of_form hScope hBody
      rw [scopedLength, hLead, ok_bind] at hLength
      dsimp only at hLength
      rw [hRead] at hLength
      cases hLength
      exact (length_code_bytes hOuter text scope).symm
  | document doc =>
      cases tree with
      | code outer text scope =>
          rcases hPayload with ⟨rfl, hText, hString, hScope⟩
          have hLead := Place.scopeOffset_eq hText hString
          rw [scopedLength, hLead, ok_bind] at hLength
          rcases bind_eq_ok.mp hLength with
            ⟨size, hSize, hAdded⟩
          cases hAdded
          rcases Document.measure_eq_ok.mp
              (mapError_eq_ok.mp hSize) with
            ⟨fields, hFields, rfl, _⟩
          rw [Document.encodes_unique hFields hScope]
          have hOuter := length_outerField text scope
          exact
            ⟨text, scope, rfl,
              (length_code_bytes hOuter text scope).symm⟩
      | document fields => cases hSame
      | scalar tag bytes => exact hPayload.elim
      | array fields => exact hPayload.elim
  | array array =>
      cases tree with
      | array fields => cases hSame
      | _ => exact hPayload.elim

/-
  The outer length of a normalized code is the one that is
  written of it, if the code is valid.
-/
theorem written_outer_of_normalizeLength
    {limits : Limits}
    {n : Nat}
    (hTag : value.tag = .ok .codeWithScope)
    (hNormal :
      value.normalizeLength = (.ok corrected, changed))
    (hValid : value.validateWith limits = .ok n) :
    changed.rest.take 4 = Word.ofLength n ∧
      ∃ bytes : Bytes,
        bytes.length = value.headerLength + n ∧
          Written.Fills
            (fun start =>
              (⟨value⟩ : Element).write true start
                (value.headerLength + n))
            bytes ∧
          Written.Fills
            (fun start =>
              (⟨value⟩ : Element).write false start
                (value.headerLength + n))
            (bytes.drop value.headerLength) ∧
          (bytes.drop value.headerLength).take 4 =
            changed.rest.take 4 := by
  rcases (Value.measure_eq_ok (Nat.zero_le _)).mp
      hValid with
    ⟨tree, hTree, rfl, _⟩
  rcases of_normalizeLength_code hTag hNormal with
    ⟨total, hTotal, rfl, _⟩
  rcases bind_eq_ok.mp hTotal with ⟨length, hLength, hField⟩
  rcases scopedLength_of_encodes hTag hTree hLength with
    ⟨text, scope, rfl, rfl⟩
  have hRoom := room_of_agreeingField hTotal
  have hOuter := length_outerField text scope
  have hSmall :
      (ParseTree.code (outerField text scope) text
          scope).bytes.length ≤ Word.maxLength := by
    unfold Word.lengthField at hField
    split at hField
    · assumption
    · cases hField
  rw [Word.lengthField, if_pos hSmall] at hField
  cases hField
  have hWidth :=
    Word.length_ofInt32 (Int32.ofNat
      (ParseTree.code (outerField text scope) text
        scope).bytes.length)
  have hPut := take_rest_withOuter hRoom hWidth
  rw [Word.ofInt32_ofNat hSmall] at hPut ⊢
  have hAgrees :
      Word.ofLength
          (ParseTree.code (outerField text scope) text
            scope).bytes.length =
        outerField text scope := by
    rw [length_code_bytes hOuter]
    rfl
  have hHeader := Place.length_header hTag
  refine
    ⟨hPut,
      value.lead value.start ++
        (ParseTree.code (outerField text scope) text
          scope).bytes,
      ?_, Element.fills hTree (.inr hSmall) true, ?_, ?_⟩
  · rw [List.length_append, hHeader]
  · rw [List.drop_left' hHeader]
    exact Element.fills_keyless hTree (.inr hSmall)
  · rw [hPut, hAgrees, List.drop_left' hHeader,
      ParseTree.bytes, List.take_left' hOuter]

end Value

end BsonView

------------------------------------------------------------
-- Normalized Documents
------------------------------------------------------------

namespace BsonView

namespace Element

/- The buffers of two elements differ. -/
def buffersDiffer (pair : Element × Element) : Bool :=
  decide (pair.2.value.buffer ≠ pair.1.value.buffer)

/- What is left of an element is what its value becomes. -/
theorem cases_of_normalizeCounted
    (element : Element) :
    (∃ error,
        element.value.normalizeLength =
            (.error error, element.value) ∧
          element.normalizeCounted =
            (.error error, element)) ∨
      ∃ changed corrected,
        element.value.normalizeLength =
            (.ok corrected, changed) ∧
          element.normalizeCounted =
            (.ok corrected.toNat, ⟨changed⟩) := by
  rcases element with ⟨value⟩
  unfold normalizeCounted normalizeLength
  rcases hNormal : value.normalizeLength with
    ⟨error | corrected, changed⟩
  · have hKept :=
      Value.normalizeLength_of_error
        (congrArg Prod.fst hNormal)
    rw [hNormal] at hKept
    cases hKept
    exact .inl ⟨error, rfl, rfl⟩
  · exact .inr ⟨changed, corrected, rfl, rfl⟩

/- Once normalized, an element is not changed again. -/
theorem normalizeCounted_again
    {element : Element}
    {n : Nat}
    (hDone : element.normalizeCounted.1 = .ok n) :
    element.normalizeCounted.2.normalizeCounted =
      (.ok 0, element.normalizeCounted.2) := by
  rcases cases_of_normalizeCounted element with
    ⟨error, _, hAct⟩ | ⟨changed, corrected, hNormal, hAct⟩
  · simp [hAct] at hDone
  · have hAgain := Value.normalizeLength_again hNormal
    rw [hAct]
    simp [normalizeCounted, normalizeLength, hAgain,
      Except.map]

/- An element counts when its bytes change. -/
theorem normalizeCounted_counts
    {element : Element}
    {n : Nat}
    (hDone : element.normalizeCounted.1 = .ok n) :
    n =
      if buffersDiffer (element, element.normalizeCounted.2)
      then 1 else 0 := by
  rcases cases_of_normalizeCounted element with
    ⟨error, _, hAct⟩ | ⟨changed, corrected, hNormal, hAct⟩
  · simp [hAct] at hDone
  · have hSet := Value.outerSet_of_normalizeLength hNormal
    have hDiffer :
        buffersDiffer (element, ⟨changed⟩) = corrected := by
      rw [Bool.eq_iff_iff, hSet.buffer_iff]
      exact decide_eq_true_iff
    rw [hAct] at hDone ⊢
    cases hDone
    rw [hDiffer]
    cases corrected with
    | false => rfl
    | true => rfl

end Element

/- What stands for each of some elements does so for all. -/
theorem elementsStandFor_visitAll
    {act : Element → Except Error Nat × Element}
    (hAct :
      ∀ element, (act element).2.value.StandsFor element.value)
    (elements : List Element) :
    elementsStandFor (visitAll act id elements).2
      elements := by
  induction elements with
  | nil => exact .nil
  | cons first rest ih =>
      have hFirst := hAct first
      rw [visitAll]
      rcases hAnswer : act first with ⟨error | n, changed⟩
      · rw [hAnswer] at hFirst
        dsimp only
        rw [List.map_id]
        exact .cons hFirst (elementsStandFor_refl rest)
      · rw [hAnswer] at hFirst
        exact .cons hFirst ih

namespace Document

theorem normalizeLengths_eq
    (doc : Document) :
    doc.normalizeLengths =
      ((visitAll Element.normalizeCounted id
          doc.elements).1,
        ⟨(visitAll Element.normalizeCounted id
          doc.elements).2⟩) := rfl

/- The elements whose buffers change are counted. -/
theorem normalizeLengths_counts
    {doc : Document}
    {count : Nat}
    (hCount : doc.normalizeLengths.1 = .ok count) :
    count =
      (doc.elements.zip
        doc.normalizeLengths.2.elements).countP
        Element.buffersDiffer := by
  rw [normalizeLengths_eq] at hCount ⊢
  apply visitAll_counts _ hCount
  intro element n hDone
  exact Element.normalizeCounted_counts hDone

/-
  The elements are normalized each by itself, all of them or
  those before the first that fails. That one stays as it
  is, and so do those after it.
-/
inductive NormalizedInTurn (doc : Document) : Prop
| all
    {count : Nat}
    (hAll :
      ∀ element ∈ doc.elements,
        ∃ corrected,
          element.normalizeLength.1 = .ok corrected)
    (hDone :
      doc.normalizeLengths =
        (.ok count,
          ⟨doc.elements.map (·.normalizeLength.2)⟩))
| upTo
    {before rest : List Element}
    {element : Element}
    {error : Error}
    (hElements : doc.elements = before ++ element :: rest)
    (hBefore :
      ∀ element ∈ before,
        ∃ corrected,
          element.normalizeLength.1 = .ok corrected)
    (hFail :
      element.normalizeLength = (.error error, element))
    (hDone :
      doc.normalizeLengths =
        (.error error,
          ⟨before.map (·.normalizeLength.2) ++
            element :: rest⟩))

/- An element counts where it can be normalized. -/
theorem exists_corrected_of_counted
    {element : Element}
    {n : Nat}
    (hCounted : element.normalizeCounted.1 = .ok n) :
    ∃ corrected,
      element.normalizeLength.1 = .ok corrected := by
  rcases Element.cases_of_normalizeCounted element with
    ⟨error, _, hAct⟩ | ⟨changed, corrected, hNormal, _⟩
  · simp [hAct] at hCounted
  · refine ⟨corrected, ?_⟩
    simp [Element.normalizeLength, hNormal]

theorem normalizedInTurn
    (doc : Document) : doc.NormalizedInTurn := by
  have hEq := normalizeLengths_eq doc
  rcases cases_of_visitAll Element.normalizeCounted
      doc.elements with
    ⟨count, hAll, hVisit⟩ |
    ⟨before, element, rest, error, hElements, hBefore,
      hFail, hVisit⟩
  · rw [hVisit] at hEq
    refine .all ?_ hEq
    intro element hMem
    rcases hAll element hMem with ⟨n, hCounted⟩
    exact exists_corrected_of_counted hCounted
  · rcases Element.cases_of_normalizeCounted element with
      ⟨other, hNormal, hAct⟩ |
      ⟨changed, corrected, _, hAct⟩
    · rw [hAct] at hFail hVisit
      cases hFail
      rw [hVisit] at hEq
      refine .upTo hElements ?_ ?_ hEq
      · intro member hMem
        rcases hBefore member hMem with ⟨n, hCounted⟩
        exact exists_corrected_of_counted hCounted
      · rcases element with ⟨value⟩
        simp [Element.normalizeLength, hNormal]
    · simp [hAct] at hFail

/- A document that is normalized is not changed again. -/
theorem normalizeLengths_again
    {doc : Document}
    {count : Nat}
    (hCount : doc.normalizeLengths.1 = .ok count) :
    doc.normalizeLengths.2.normalizeLengths =
      (.ok 0, doc.normalizeLengths.2) := by
  rw [normalizeLengths_eq] at hCount
  have hAgain :
      visitAll Element.normalizeCounted id
          (visitAll Element.normalizeCounted id
            doc.elements).2 =
        (.ok 0,
          (visitAll Element.normalizeCounted id
            doc.elements).2) := by
    apply visitAll_again _ hCount
    intro element n hDone
    exact Element.normalizeCounted_again hDone
  rw [normalizeLengths_eq doc, normalizeLengths_eq]
  dsimp only
  rw [hAgain]

/- What is left of a document stands for it. -/
theorem normalizeLengths_standsFor
    (doc : Document) :
    doc.normalizeLengths.2.StandsFor doc := by
  rcases doc with ⟨elements⟩
  exact standsFor_of_elements
    (elementsStandFor_visitAll
      (fun element =>
        element.value.normalizeLength_standsFor) elements)

end Document

namespace View

variable (held : List View)

/- Normalizing leaves a view that stands for the view. -/
theorem normalize_standsFor
    (view : View) :
    (Edit.normalize.apply held view).StandsFor view := by
  cases view with
  | document doc =>
      exact .document doc.normalizeLengths_standsFor
  | array array => exact .refl _
  | element element =>
      exact .element element.value.normalizeLength_standsFor
  | value value =>
      exact .value value.normalizeLength_standsFor

/- A document stays one whatever is done along a path. -/
theorem actAt_document
    {α : Type}
    {act : View → α × View}
    (hAct :
      ∀ doc, ∃ changed,
        (act (.document doc)).2 = .document changed)
    (path : List PathStep)
    (doc : Document) :
    ∃ changed,
      ((View.document doc).actAt act path).2 =
        .document changed := by
  cases path with
  | nil => exact hAct doc
  | cons step rest =>
      rw [actAt]
      cases hFollow : (View.document doc).follow step with
      | error obstacle => exact ⟨doc, rfl⟩
      | ok answer =>
          rcases answer with ⟨inner, putBack⟩
          have hKind :=
            (leads_of_follow hFollow).sameKind
              (actAt act rest inner).2
          dsimp only
          cases hBack : putBack (actAt act rest inner).2 with
          | document changed => exact ⟨changed, rfl⟩
          | _ =>
              rw [hBack] at hKind
              cases hKind

end View

end BsonView

------------------------------------------------------------
-- Normalizing
------------------------------------------------------------

namespace BsonView

/-
  Two elements say the same, are valid or not in the same
  way within all limits, and have the same encoding or fail
  to be encoded for the same reason.
-/
structure Element.SameInUse
    (changed element : Element) : Prop where
  holds_iff :
    ∀ member, changed.Holds member ↔ element.Holds member
  validateWith_eq :
    ∀ limits,
      changed.validateWith limits =
        element.validateWith limits
  encode_eq : changed.encode = element.encode

/- So do two documents. -/
structure Document.SameInUse
    (changed doc : Document) : Prop where
  holds_iff :
    ∀ members, changed.Holds members ↔ doc.Holds members
  validateWith_eq :
    ∀ limits,
      changed.validateWith limits = doc.validateWith limits
  encode_eq : changed.encode = doc.encode

theorem Element.sameInUse_of_standsFor
    {changed element : Element}
    (hStands : changed.value.StandsFor element.value) :
    changed.SameInUse element := by
  refine
    ⟨?_, fun limits => measure_of_standsFor hStands limits 0,
      encode_of_standsFor hStands⟩
  intro member
  unfold Element.Holds
  rw [hStands.framed.keyBytes?_eq, hStands.holds_iff]

theorem Document.StandsFor.sameInUse
    {changed doc : Document}
    (hStands : changed.StandsFor doc) :
    changed.SameInUse doc :=
  ⟨hStands.holds_iff,
    fun limits => hStands.measure_eq limits 0,
    hStands.encode_eq⟩

/-
  Normalizing what is at the end of a path makes no
  difference to a document beyond what the path opens.
-/
theorem View.normalize_along
    (held : List View)
    (path : List PathStep)
    (doc : Document) :
    ∃ opened changed,
      (View.document doc).openAlong path =
          .document opened ∧
        ((View.document doc).actAt
            (fun inner =>
              ((), Edit.normalize.apply held inner))
            path).2 = .document changed ∧
        changed.SameInUse opened := by
  have hOpened :
      ∃ opened,
        (View.document doc).openAlong path =
          .document opened :=
    actAt_document (fun doc => ⟨doc, rfl⟩) path doc
  have hChanged :
      ∃ changed,
        ((View.document doc).actAt
            (fun inner =>
              ((), Edit.normalize.apply held inner))
            path).2 = .document changed :=
    actAt_document (fun doc => ⟨doc.normalizeLengths.2, rfl⟩)
      path doc
  have hStands :
      ((View.document doc).actAt
          (fun inner =>
            ((), Edit.normalize.apply held inner))
          path).2.StandsFor
        ((View.document doc).openAlong path) :=
    actAt_standsFor (normalize_standsFor held) path _
  rcases hOpened with ⟨opened, hOpened⟩
  rcases hChanged with ⟨changed, hChanged⟩
  rw [hOpened, hChanged] at hStands
  cases hStands with
  | document hDoc =>
      exact
        ⟨opened, changed, hOpened, hChanged, hDoc.sameInUse⟩

end BsonView
