import BsonView.Proofs.Validation.Acceptance
import BsonView.Proofs.Views.Encoding
import BsonView.Validation.Views

/-
  Measures of views.

  A view is valid when it encodes a tree that is not too
  high, and is measured as that tree's encoding.

  Main declarations:
    * `Value.measure_eq_ok`
    * `Element.measure_eq_ok`
    * `Document.measure_eq_ok`
    * `ArrayDoc.measure_eq_ok`
-/

------------------------------------------------------------
-- Measured Parts
------------------------------------------------------------

namespace BsonView

open Grammar

variable {limits : Limits} {depth : Nat}

/-
  An element with a key is valid when its value is, and
  counts the header before the value.
-/
theorem Element.measure_of_key
    {value : Value}
    {key : Bytes}
    (hKey : value.keyBytes? = some key) :
    (⟨value⟩ : Element).measure limits depth =
      (value.measure limits depth).mapError
          (Failure.after (key.length + 2)) >>=
        fun n => .ok (key.length + 2 + n) := by
  rcases Place.keyBytes?_eq_some.mp hKey with ⟨_, hBytes, _⟩
  have hBuffer : ¬value.buffer.isEmpty = true := by
    intro hEmpty
    rw [List.isEmpty_iff.mp hEmpty] at hBytes
    simp at hBytes
  have hSize := Place.keyLength_eq_ok.mpr ⟨key, hKey, rfl⟩
  have hHeader : 1 + (key.length + 1) = key.length + 2 := by
    omega
  rw [Element.measure, if_neg hBuffer, hSize]
  simp only [mapError_ok, ok_bind, hHeader]
  rfl

/- An element counts its key and two bytes for its header. -/
theorem Element.measure_eq
    {value : Value}
    {n : Nat} :
    (⟨value⟩ : Element).measure limits depth = .ok n ↔
      ∃ key length, value.keyBytes? = some key ∧
        value.measure limits depth = .ok length ∧
        n = key.length + 2 + length := by
  constructor
  · intro hMeasure
    rw [Element.measure] at hMeasure
    by_cases hBuffer : value.buffer.isEmpty = true
    · rw [if_pos hBuffer] at hMeasure
      cases hMeasure
    rw [if_neg hBuffer] at hMeasure
    rcases bind_eq_ok.mp hMeasure with ⟨size, hSize, hRest⟩
    rcases bind_eq_ok.mp hRest with
      ⟨length, hLength, hTotal⟩
    rcases Place.keyLength_eq_ok.mp
        (mapError_eq_ok.mp hSize) with
      ⟨key, hKey, rfl⟩
    cases hTotal
    refine
      ⟨key, length, hKey, mapError_eq_ok.mp hLength, ?_⟩
    omega
  · intro hExists
    rcases hExists with ⟨key, length, hKey, hLength, rfl⟩
    rw [Element.measure_of_key hKey, hLength]
    rfl

/- Elements are measured one after the other. -/
theorem measureElements_cons_eq_ok
    {value : Value}
    {rest : List Element}
    {total n : Nat} :
    measureElements limits depth total (⟨value⟩ :: rest) =
        .ok n ↔
      ∃ key length, value.keyBytes? = some key ∧
        value.measure limits depth = .ok length ∧
        measureElements limits depth
          (total + (key.length + 2 + length)) rest =
            .ok n := by
  rw [measureElements, bind_eq_ok]
  constructor
  · intro hExists
    rcases hExists with ⟨size, hSize, hRest⟩
    rcases Element.measure_eq.mp
        (mapError_eq_ok.mp hSize) with
      ⟨key, length, hKey, hLength, rfl⟩
    exact ⟨key, length, hKey, hLength, hRest⟩
  · intro hExists
    rcases hExists with ⟨key, length, hKey, hLength, hRest⟩
    have hSize :=
      Element.measure_eq.mpr ⟨key, length, hKey, hLength, rfl⟩
    exact ⟨_, mapError_eq_ok.mpr hSize, hRest⟩

/-
  Values count with their indices in place of their keys,
  unless they fail: then it is the header in the buffer that
  counts.
-/
theorem measureValues_cons_of_key
    {value : Value}
    {key : Bytes}
    (hKey : value.keyBytes? = some key)
    (index total : Nat)
    (rest : List Element) :
    measureValues limits depth index total
        (⟨value⟩ :: rest) =
      (value.measure limits depth).mapError
          (Failure.after (total + value.headerLength)) >>=
        fun length =>
          measureValues limits depth (index + 1)
            (total +
              ((Index.digits index).length + 2 + length))
            rest := by
  have hHeader := Place.headerLength_eq hKey
  rw [measureValues, Element.measure_of_key hKey]
  cases value.measure limits depth with
  | error failure =>
      simp only [mapError_error, error_bind, hHeader,
        Failure.after_after]
  | ok length =>
      have hTotal :
          total +
              (1 + Index.length index + 1 +
                (key.length + 2 + length -
                  value.headerLength)) =
            total +
              ((Index.digits index).length + 2 +
                length) := by
        rw [hHeader, Index.length_digits]
        omega
      simp only [mapError_ok, ok_bind, hTotal]

/- So they do when all of them are valid. -/
theorem measureValues_cons_eq_ok
    {value : Value}
    {rest : List Element}
    {index total n : Nat} :
    measureValues limits depth index total
        (⟨value⟩ :: rest) = .ok n ↔
      ∃ key length, value.keyBytes? = some key ∧
        value.measure limits depth = .ok length ∧
        measureValues limits depth (index + 1)
          (total +
            ((Index.digits index).length + 2 + length))
          rest = .ok n := by
  constructor
  · intro hMeasure
    have hFirst := hMeasure
    rw [measureValues] at hFirst
    rcases bind_eq_ok.mp hFirst with ⟨size, hSize, _⟩
    rcases Element.measure_eq.mp
        (mapError_eq_ok.mp hSize) with
      ⟨key, length, hKey, hLength, _⟩
    rw [measureValues_cons_of_key hKey,
      hLength] at hMeasure
    exact ⟨key, length, hKey, hLength, hMeasure⟩
  · intro hExists
    rcases hExists with ⟨key, length, hKey, hLength, hRest⟩
    rw [measureValues_cons_of_key hKey, hLength]
    exact hRest

/- A code with scope counts its string and its scope. -/
theorem Payload.measure_code_eq_ok
    {place : Place}
    {doc : Document}
    {n : Nat} :
    (Payload.document doc).measure limits depth place
        .codeWithScope = .ok n ↔
      ∃ text scope, text.length + 1 ≤ Word.maxLength ∧
        stringForm text <+: place.rest.drop 4 ∧
        doc.measure limits (depth + 1) = .ok scope ∧
        n = 4 + (stringForm text).length + scope := by
  rw [Payload.measure, bind_eq_ok]
  constructor
  · intro hExists
    rcases hExists with ⟨code, hCode, hRest⟩
    rcases bind_eq_ok.mp hRest with ⟨scope, hScope, hTotal⟩
    rcases stringLength_eq_ok.mp
        (mapError_eq_ok.mp hCode) with
      ⟨text, hText, hString, rfl⟩
    cases hTotal
    exact
      ⟨text, scope, hText, hString,
        mapError_eq_ok.mp hScope, rfl⟩
  · intro hExists
    rcases hExists with
      ⟨text, scope, hText, hString, hScope, rfl⟩
    have hCode :=
      stringLength_eq_ok.mpr ⟨text, hText, hString, rfl⟩
    refine ⟨_, mapError_eq_ok.mpr hCode, ?_⟩
    rw [hScope]
    rfl

end BsonView

------------------------------------------------------------
-- Valid Views Encode
------------------------------------------------------------

namespace BsonView

open Grammar

variable {limits : Limits}

mutual

/- A valid value encodes a tree of the length it answers. -/
theorem Value.encodes_of_measure
    {depth n : Nat}
    (hDepth : depth ≤ limits.maxDepth) :
    ∀ {value : Value},
      value.measure limits depth = .ok n →
      ∃ tree, value.Encodes tree ∧
        n = tree.bytes.length ∧
        depth + tree.height ≤ limits.maxDepth
| ⟨place, payload⟩, hMeasure => by
    rw [Value.measure] at hMeasure
    rcases bind_eq_ok.mp hMeasure with
      ⟨tag, hLift, hPayload⟩
    have hTag := mapError_eq_ok.mp hLift
    rcases Payload.encodes_of_measure hDepth hTag
        hPayload with
      ⟨tree, rfl, hEncodes, hLength, hHeight⟩
    exact ⟨tree, ⟨hTag, hEncodes⟩, hLength, hHeight⟩

theorem Payload.encodes_of_measure
    {depth n : Nat}
    {place : Place}
    {tag : Tag}
    (hDepth : depth ≤ limits.maxDepth)
    (hTag : place.tag = .ok tag) :
    ∀ {payload : Payload},
      payload.measure limits depth place tag = .ok n →
      ∃ tree : ParseTree, tree.tag = tag ∧
        payload.Encodes place.rest tree ∧
        n = tree.bytes.length ∧
        depth + tree.height ≤ limits.maxDepth
| .raw, hMeasure => by
    have hOffset := (Place.tag_eq_ok.mp hTag).2.1
    rw [Payload.measure,
      Validation.payload_eq_plain _ _ _ _ _ hOffset] at hMeasure
    rcases Validation.Plain.payload_sound hDepth
        hMeasure with
      ⟨tree, hTree, rfl, hPrefix, rfl, hHeight⟩
    refine ⟨tree.agreeing, tree.tag_agreeing, ?_, ?_, ?_⟩
    · exact ⟨tree, hTree, hPrefix, rfl⟩
    · rw [ParseTree.length_agreeing hTree]
    · rw [ParseTree.height_agreeing]
      exact hHeight
| .document doc, hMeasure => by
    by_cases hCode : tag = .codeWithScope
    · rw [hCode] at hMeasure
      rcases Payload.measure_code_eq_ok.mp hMeasure with
        ⟨text, size, hText, hString, hScope, rfl⟩
      rcases Document.encodes_of_measure hScope with
        ⟨scope, hEncodes, rfl, hHeight⟩
      refine
        ⟨.code (outerField text scope) text scope,
          hCode.symm, ⟨rfl, hText, hString, hEncodes⟩, ?_,
          ?_⟩
      · exact
          (length_code_bytes
            (length_outerField text scope) _ _).symm
      · rw [ParseTree.height]
        omega
    by_cases hDoc : tag = .embeddedDocument
    · rw [hDoc, Payload.measure] at hMeasure
      rcases Document.encodes_of_measure hMeasure with
        ⟨fields, hEncodes, hLength, hHeight⟩
      refine
        ⟨.document fields, hDoc.symm, hEncodes, hLength, ?_⟩
      rw [ParseTree.height]
      omega
    · rw [Payload.measure] at hMeasure
      · cases hMeasure
      · exact hDoc
      · exact hCode
| .array array, hMeasure => by
    by_cases hArray : tag = .array
    · rw [hArray, Payload.measure] at hMeasure
      rcases ArrayDoc.encodes_of_measure hMeasure with
        ⟨fields, hEncodes, hLength, hHeight⟩
      refine
        ⟨.array fields, hArray.symm, hEncodes, hLength, ?_⟩
      rw [ParseTree.height]
      omega
    · rw [Payload.measure] at hMeasure
      · cases hMeasure
      · exact hArray

theorem Document.encodes_of_measure
    {depth n : Nat} :
    ∀ {doc : Document},
      doc.measure limits depth = .ok n →
      ∃ fields, doc.Encodes fields ∧
        n = (documentBytes fields).length ∧
        depth + bodyHeight fields ≤ limits.maxDepth
| ⟨elements⟩, hMeasure => by
    rw [Document.measure, Limits.checkDepth] at hMeasure
    by_cases hDepth : limits.maxDepth < depth
    · rw [if_pos hDepth] at hMeasure
      cases hMeasure
    rw [if_neg hDepth] at hMeasure
    rcases bind_eq_ok.mp hMeasure with ⟨_, _, hBody⟩
    rcases bind_eq_ok.mp hBody with
      ⟨total, hElements, hTotal⟩
    cases hTotal
    rcases elementsEncode_of_measure
        (Nat.le_of_not_lt hDepth) hElements with
      ⟨fields, hEncode, rfl, hHeight⟩
    refine ⟨fields, hEncode, ?_, hHeight⟩
    rw [documentBytes, length_documentForm]
    omega

theorem ArrayDoc.encodes_of_measure
    {depth n : Nat} :
    ∀ {array : ArrayDoc},
      array.measure limits depth = .ok n →
      ∃ fields, array.Encodes fields ∧
        n = (documentBytes fields).length ∧
        depth + bodyHeight fields ≤ limits.maxDepth
| ⟨elements⟩, hMeasure => by
    rw [ArrayDoc.measure, Limits.checkDepth] at hMeasure
    by_cases hDepth : limits.maxDepth < depth
    · rw [if_pos hDepth] at hMeasure
      cases hMeasure
    rw [if_neg hDepth] at hMeasure
    rcases bind_eq_ok.mp hMeasure with ⟨_, _, hBody⟩
    rcases bind_eq_ok.mp hBody with
      ⟨total, hElements, hTotal⟩
    cases hTotal
    rcases valuesEncode_of_measure
        (Nat.le_of_not_lt hDepth) hElements with
      ⟨fields, hEncode, rfl, hHeight⟩
    refine ⟨fields, hEncode, ?_, hHeight⟩
    rw [documentBytes, length_documentForm]
    omega

theorem elementsEncode_of_measure
    {depth total n : Nat}
    (hDepth : depth ≤ limits.maxDepth) :
    ∀ {elements : List Element},
      measureElements limits depth total elements = .ok n →
      ∃ fields, elementsEncode elements fields ∧
        n = total + (bodyBytes fields).length ∧
        depth + bodyHeight fields ≤ limits.maxDepth
| [], hMeasure => by
    rw [measureElements] at hMeasure
    cases hMeasure
    exact ⟨[], trivial, rfl, hDepth⟩
| ⟨value⟩ :: rest, hMeasure => by
    rcases measureElements_cons_eq_ok.mp hMeasure with
      ⟨key, length, hKey, hLength, hRest⟩
    rcases Value.encodes_of_measure hDepth hLength with
      ⟨tree, hTree, rfl, hHeight⟩
    rcases elementsEncode_of_measure hDepth hRest with
      ⟨fields, hFields, rfl, hOthers⟩
    refine
      ⟨⟨key, tree⟩ :: fields, ⟨hKey, hTree, hFields⟩, ?_,
        ?_⟩
    · rw [length_bodyBytes_cons]
      omega
    · rw [bodyHeight]
      omega

theorem valuesEncode_of_measure
    {depth index total n : Nat}
    (hDepth : depth ≤ limits.maxDepth) :
    ∀ {elements : List Element},
      measureValues limits depth index total elements =
        .ok n →
      ∃ fields, valuesEncode index elements fields ∧
        n = total + (bodyBytes fields).length ∧
        depth + bodyHeight fields ≤ limits.maxDepth
| [], hMeasure => by
    rw [measureValues] at hMeasure
    cases hMeasure
    exact ⟨[], trivial, rfl, hDepth⟩
| ⟨value⟩ :: rest, hMeasure => by
    rcases measureValues_cons_eq_ok.mp hMeasure with
      ⟨key, length, hKey, hLength, hRest⟩
    rcases Value.encodes_of_measure hDepth hLength with
      ⟨tree, hTree, rfl, hHeight⟩
    rcases valuesEncode_of_measure hDepth hRest with
      ⟨fields, hFields, rfl, hOthers⟩
    refine
      ⟨⟨Index.digits index, tree⟩ :: fields,
        ⟨rfl, ⟨key, hKey⟩, hTree, hFields⟩, ?_, ?_⟩
    · rw [length_bodyBytes_cons]
      omega
    · rw [bodyHeight]
      omega

end

end BsonView

------------------------------------------------------------
-- Views That Encode Are Valid
------------------------------------------------------------

namespace BsonView

open Grammar

variable {limits : Limits}

mutual

/- A value is valid when what it encodes is not too high. -/
theorem Value.measure_of_encodes
    {depth : Nat} :
    ∀ {value : Value} {tree : ParseTree},
      value.Encodes tree →
      depth + tree.height ≤ limits.maxDepth →
      value.measure limits depth = .ok tree.bytes.length
| ⟨place, payload⟩, tree, hEncodes, hHeight => by
    rcases hEncodes with ⟨hTag, hPayload⟩
    rw [Value.measure]
    refine bind_eq_ok.mpr
      ⟨tree.tag, mapError_eq_ok.mpr hTag, ?_⟩
    exact Payload.measure_of_encodes hTag hPayload hHeight

theorem Payload.measure_of_encodes
    {depth : Nat}
    {place : Place} :
    ∀ {payload : Payload} {tree : ParseTree},
      place.tag = .ok tree.tag →
      payload.Encodes place.rest tree →
      depth + tree.height ≤ limits.maxDepth →
      payload.measure limits depth place tree.tag =
        .ok tree.bytes.length
| .raw, tree, hTag, hEncodes, hHeight => by
    have hOffset := (Place.tag_eq_ok.mp hTag).2.1
    rcases hEncodes with ⟨found, hFound, hPrefix, rfl⟩
    rw [ParseTree.height_agreeing] at hHeight
    rw [Payload.measure,
      Validation.payload_eq_plain _ _ _ _ _ hOffset,
      ParseTree.tag_agreeing,
      ParseTree.length_agreeing hFound]
    exact Validation.Plain.payload_complete hFound hPrefix
      hHeight
| .document doc, .document fields, _, hEncodes, hHeight => by
    rw [ParseTree.height] at hHeight
    rw [ParseTree.tag, Payload.measure, ParseTree.bytes]
    exact Document.measure_of_encodes hEncodes (by omega)
| .document doc, .code outer text scope, _, hEncodes,
    hHeight => by
    rcases hEncodes with ⟨rfl, hText, hString, hDoc⟩
    rw [ParseTree.height] at hHeight
    have hScope :
        doc.measure limits (depth + 1) =
          .ok (documentBytes scope).length :=
      Document.measure_of_encodes hDoc (by omega)
    refine Payload.measure_code_eq_ok.mpr
      ⟨text, _, hText, hString, hScope, ?_⟩
    exact
      length_code_bytes (length_outerField text scope) _ _
| .array array, .array fields, _, hEncodes, hHeight => by
    rw [ParseTree.height] at hHeight
    rw [ParseTree.tag, Payload.measure, ParseTree.bytes]
    exact ArrayDoc.measure_of_encodes hEncodes (by omega)
| .document _, .scalar _ _, _, hEncodes, _ =>
    hEncodes.elim
| .document _, .array _, _, hEncodes, _ => hEncodes.elim
| .array _, .scalar _ _, _, hEncodes, _ => hEncodes.elim
| .array _, .document _, _, hEncodes, _ => hEncodes.elim
| .array _, .code _ _ _, _, hEncodes, _ => hEncodes.elim

theorem Document.measure_of_encodes
    {depth : Nat} :
    ∀ {doc : Document} {fields : List ParseField},
      doc.Encodes fields →
      depth + bodyHeight fields ≤ limits.maxDepth →
      doc.measure limits depth =
        .ok (documentBytes fields).length
| ⟨elements⟩, fields, hEncodes, hHeight => by
    have hElements :=
      measureElements_of_encode hEncodes hHeight 4
    rw [Document.measure, Limits.checkDepth,
      if_neg (by omega), hElements, documentBytes,
      length_documentForm, Nat.add_comm _ 5]
    simp only [pure_bind, ok_bind]
    congr 1
    omega

theorem ArrayDoc.measure_of_encodes
    {depth : Nat} :
    ∀ {array : ArrayDoc} {fields : List ParseField},
      array.Encodes fields →
      depth + bodyHeight fields ≤ limits.maxDepth →
      array.measure limits depth =
        .ok (documentBytes fields).length
| ⟨elements⟩, fields, hEncodes, hHeight => by
    have hElements :=
      measureValues_of_encode hEncodes hHeight 4
    rw [ArrayDoc.measure, Limits.checkDepth,
      if_neg (by omega), hElements, documentBytes,
      length_documentForm, Nat.add_comm _ 5]
    simp only [pure_bind, ok_bind]
    congr 1
    omega

theorem measureElements_of_encode
    {depth : Nat} :
    ∀ {elements : List Element} {fields : List ParseField},
      elementsEncode elements fields →
      depth + bodyHeight fields ≤ limits.maxDepth →
      ∀ total,
        measureElements limits depth total elements =
          .ok (total + (bodyBytes fields).length)
| [], [], _, _, _ => rfl
| ⟨value⟩ :: rest, ⟨key, tree⟩ :: fields, hEncode, hHeight,
    total => by
    rcases hEncode with ⟨hKey, hTree, hFields⟩
    rw [bodyHeight] at hHeight
    have hLength :
        value.measure limits depth = .ok tree.bytes.length :=
      Value.measure_of_encodes hTree (by omega)
    refine measureElements_cons_eq_ok.mpr
      ⟨key, _, hKey, hLength, ?_⟩
    rw [measureElements_of_encode hFields (by omega),
      length_bodyBytes_cons]
    simp only [Nat.add_assoc]
| [], ⟨_, _⟩ :: _, hEncode, _, _ => hEncode.elim
| ⟨_⟩ :: _, [], hEncode, _, _ => hEncode.elim

theorem measureValues_of_encode
    {depth index : Nat} :
    ∀ {elements : List Element} {fields : List ParseField},
      valuesEncode index elements fields →
      depth + bodyHeight fields ≤ limits.maxDepth →
      ∀ total,
        measureValues limits depth index total elements =
          .ok (total + (bodyBytes fields).length)
| [], [], _, _, _ => rfl
| ⟨value⟩ :: rest, ⟨key, tree⟩ :: fields, hEncode, hHeight,
    total => by
    rcases hEncode with ⟨rfl, ⟨own, hOwn⟩, hTree, hFields⟩
    rw [bodyHeight] at hHeight
    have hLength :
        value.measure limits depth = .ok tree.bytes.length :=
      Value.measure_of_encodes hTree (by omega)
    refine measureValues_cons_eq_ok.mpr
      ⟨own, _, hOwn, hLength, ?_⟩
    rw [measureValues_of_encode hFields (by omega),
      length_bodyBytes_cons]
    simp only [Nat.add_assoc]
| [], ⟨_, _⟩ :: _, hEncode, _, _ => hEncode.elim
| ⟨_⟩ :: _, [], hEncode, _, _ => hEncode.elim

end

end BsonView

------------------------------------------------------------
-- Measures And Trees
------------------------------------------------------------

namespace BsonView

open Grammar

variable {limits : Limits} {depth n : Nat}

/- A value is measured as what it encodes. -/
theorem Value.measure_eq_ok
    {value : Value}
    (hDepth : depth ≤ limits.maxDepth) :
    value.measure limits depth = .ok n ↔
      ∃ tree, value.Encodes tree ∧
        n = tree.bytes.length ∧
        depth + tree.height ≤ limits.maxDepth := by
  constructor
  · exact Value.encodes_of_measure hDepth
  · intro hExists
    rcases hExists with ⟨tree, hTree, rfl, hHeight⟩
    exact Value.measure_of_encodes hTree hHeight

/- An element is measured as what it encodes. -/
theorem Element.measure_eq_ok
    {element : Element}
    (hDepth : depth ≤ limits.maxDepth) :
    element.measure limits depth = .ok n ↔
      ∃ field, element.Encodes field ∧
        n = (bodyBytes [field]).length ∧
        depth + field.tree.height ≤ limits.maxDepth := by
  rcases element with ⟨value⟩
  rw [Element.measure_eq]
  constructor
  · intro hExists
    rcases hExists with ⟨key, length, hKey, hLength, rfl⟩
    rcases (Value.measure_eq_ok hDepth).mp hLength with
      ⟨tree, hTree, rfl, hHeight⟩
    refine ⟨⟨key, tree⟩, ⟨hKey, hTree⟩, ?_, hHeight⟩
    rw [length_bodyBytes_cons, bodyBytes]
    rfl
  · intro hExists
    rcases hExists with
      ⟨⟨key, tree⟩, ⟨hKey, hTree⟩, rfl, hHeight⟩
    have hLength :=
      Value.measure_of_encodes hTree hHeight
    refine ⟨key, _, hKey, hLength, ?_⟩
    rw [length_bodyBytes_cons, bodyBytes]
    rfl

/- A document is measured as what it encodes. -/
theorem Document.measure_eq_ok
    {doc : Document} :
    doc.measure limits depth = .ok n ↔
      ∃ fields, doc.Encodes fields ∧
        n = (documentBytes fields).length ∧
        depth + bodyHeight fields ≤ limits.maxDepth := by
  constructor
  · exact Document.encodes_of_measure
  · intro hExists
    rcases hExists with ⟨fields, hFields, rfl, hHeight⟩
    exact Document.measure_of_encodes hFields hHeight

/- An array is measured as what it encodes. -/
theorem ArrayDoc.measure_eq_ok
    {array : ArrayDoc} :
    array.measure limits depth = .ok n ↔
      ∃ fields, array.Encodes fields ∧
        n = (documentBytes fields).length ∧
        depth + bodyHeight fields ≤ limits.maxDepth := by
  constructor
  · exact ArrayDoc.encodes_of_measure
  · intro hExists
    rcases hExists with ⟨fields, hFields, rfl, hHeight⟩
    exact ArrayDoc.measure_of_encodes hFields hHeight

end BsonView
