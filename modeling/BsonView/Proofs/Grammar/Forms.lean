import BsonView.Framing

/-
  The forms of payloads without elements.

  A form is the exact bytes of a payload. What the framing
  measures at the front of some bytes is the form that they
  begin with.

  Main declarations:
    * `Grammar.stringForm`
    * `Grammar.documentForm`
    * `Grammar.ScalarForm`
    * `Grammar.stringLength_eq_ok`
    * `Grammar.documentLength_of_form`
    * `Grammar.scalarLength_eq_ok`
-/

------------------------------------------------------------
-- Forms
------------------------------------------------------------

namespace BsonView

namespace Grammar

/- A string: a length, so many bytes, the last one null. -/
def stringForm (text : Bytes) : Bytes :=
  Word.ofLength (text.length + 1) ++ (text ++ [0])

/- A document: its length, its elements and a null byte. -/
def documentForm (body : Bytes) : Bytes :=
  Word.ofLength (body.length + 5) ++ (body ++ [0])

/- The payloads of a type that holds no document. -/
inductive ScalarForm : Tag → Bytes → Prop
| fixed
    {tag : Tag}
    {bytes : Bytes}
    (hTag : tag ≠ .boolean)
    (hWidth : tag.fixedWidth? = some bytes.length) :
    ScalarForm tag bytes
| boolean
    {b : UInt8}
    (hValue : b = 0 ∨ b = 1) :
    ScalarForm .boolean [b]
| text
    {tag : Tag}
    {text : Bytes}
    (hTag : tag.isText = true)
    (hSize : text.length + 1 ≤ Word.maxLength) :
    ScalarForm tag (stringForm text)
| binary
    {subtype : UInt8}
    {data : Bytes}
    (hSize : data.length ≤ Word.maxLength) :
    ScalarForm .binary
      (Word.ofLength data.length ++ subtype :: data)
| regex
    {pattern options : Bytes}
    (hPattern : 0 ∉ pattern)
    (hOptions : 0 ∉ options) :
    ScalarForm .regex
      (pattern ++ 0 :: (options ++ [0]))
| dbPointer
    {name id : Bytes}
    (hSize : name.length + 1 ≤ Word.maxLength)
    (hId : id.length = 12) :
    ScalarForm .dbPointer (stringForm name ++ id)

@[simp] theorem length_stringForm
    (text : Bytes) :
    (stringForm text).length = text.length + 5 := by
  simp [stringForm]
  omega

@[simp] theorem length_documentForm
    (body : Bytes) :
    (documentForm body).length = body.length + 5 := by
  simp [documentForm]
  omega

theorem ScalarForm.isScalar
    {tag : Tag}
    {form : Bytes}
    (hForm : ScalarForm tag form) :
    tag.isScalar = true := by
  cases hForm with
  | fixed _ hWidth =>
      cases tag with
      | embeddedDocument => cases hWidth
      | array => cases hWidth
      | codeWithScope => cases hWidth
      | _ => rfl
  | text hTag =>
      cases tag with
      | embeddedDocument => cases hTag
      | array => cases hTag
      | codeWithScope => cases hTag
      | _ => rfl
  | _ => rfl

end Grammar

end BsonView

------------------------------------------------------------
-- Strings And Documents
------------------------------------------------------------

namespace BsonView

namespace Grammar

/- A string is measured where the form of one stands. -/
theorem stringLength_eq_ok
    {bytes : Bytes}
    {n : Nat} :
    Framing.stringLength bytes = .ok n ↔
      ∃ text, text.length + 1 ≤ Word.maxLength ∧
        stringForm text <+: bytes ∧
        n = (stringForm text).length := by
  rw [Framing.stringLength_eq_ok]
  constructor
  · intro hExists
    rcases hExists with
      ⟨length, hLength, hPos, rfl, hThere, hNull⟩
    rcases Word.readLength_eq_ok.mp hLength with
      ⟨hSmall, rest, rfl⟩
    rw [List.length_append, Word.length_ofLength] at hThere
    rw [List.getElem?_append_right (by simp; omega)]
      at hNull
    have hText : (rest.take (length - 1)).length + 1 =
        length := by
      rw [List.length_take]
      omega
    refine ⟨rest.take (length - 1), by omega, ?_, ?_⟩
    · rw [stringForm, hText]
      refine (List.prefix_append_right_inj _).mpr ?_
      have hPlace : length - 1 =
          4 + length - 1 - (Word.ofLength length).length := by
        rw [Word.length_ofLength]
        omega
      rw [← hPlace] at hNull
      rcases List.getElem?_eq_some_iff.mp hNull with
        ⟨hInside, hZero⟩
      rw [← hZero, ← List.take_succ_eq_append_getElem hInside]
      exact List.take_prefix _ _
    · rw [length_stringForm]
      omega
  · intro hExists
    rcases hExists with ⟨text, hSmall, ⟨rest, rfl⟩, rfl⟩
    refine ⟨text.length + 1, ?_, by omega, ?_, ?_, ?_⟩
    · refine Word.readLength_eq_ok.mpr ⟨hSmall, ?_⟩
      rw [stringForm, List.append_assoc]
      exact List.prefix_append _ _
    · rw [length_stringForm]
      omega
    · rw [List.length_append]
      omega
    · simp [stringForm]

/- The length field of a document is read at its front. -/
theorem readLength_of_form
    {body bytes : Bytes}
    (hSize : (documentForm body).length ≤ Word.maxLength)
    (hForm : documentForm body <+: bytes) :
    Word.readLength bytes =
      .ok (documentForm body).length := by
  rw [length_documentForm] at hSize ⊢
  exact Word.readLength_eq_ok.mpr
    ⟨hSize, (Bytes.append_prefix_iff.mp hForm).1⟩

/- A document is measured where the form of one stands. -/
theorem documentLength_of_form
    {body bytes : Bytes}
    (hSize : (documentForm body).length ≤ Word.maxLength)
    (hForm : documentForm body <+: bytes) :
    Framing.documentLength bytes =
      .ok (documentForm body).length := by
  refine Framing.documentLength_eq_ok.mpr
    ⟨readLength_of_form hSize hForm, ?_, hForm.length_le⟩
  rw [length_documentForm]
  exact Nat.le_add_left _ _

end Grammar

end BsonView

------------------------------------------------------------
-- Scalars
------------------------------------------------------------

namespace BsonView

namespace Grammar

/- What has a fixed width is measured by that width. -/
theorem scalarLength_of_fixedWidth
    {tag : Tag}
    {width : Nat}
    (hTag : tag ≠ .boolean)
    (hWidth : tag.fixedWidth? = some width)
    (bytes : Bytes) :
    Framing.scalarLength tag bytes =
      Framing.claim width bytes := by
  rw [Framing.scalarLength_of_ne_boolean hTag]
  cases tag with
  | boolean => exact absurd rfl hTag
  | _ => cases hWidth <;> rfl

/- Texts are measured as strings. -/
theorem scalarLength_of_isText
    {tag : Tag}
    (hTag : tag.isText = true)
    (bytes : Bytes) :
    Framing.scalarLength tag bytes =
      Framing.stringLength bytes := by
  cases tag with
  | string => rfl
  | javaScript => rfl
  | symbol => rfl
  | _ => cases hTag

/- A scalar is as long as the form that stands there. -/
theorem ScalarForm.scalarLength
    {tag : Tag}
    {form bytes : Bytes}
    (hForm : ScalarForm tag form)
    (hPrefix : form <+: bytes) :
    Framing.scalarLength tag bytes = .ok form.length := by
  have hThere := hPrefix.length_le
  cases hForm with
  | fixed hTag hWidth =>
      rw [scalarLength_of_fixedWidth hTag hWidth]
      exact Framing.claim_eq_ok.mpr ⟨rfl, hThere⟩
  | @boolean b hValue =>
      rcases hPrefix with ⟨rest, rfl⟩
      exact Framing.scalarLength_boolean_eq_ok.mpr
        ⟨rfl, b, rest, rfl, hValue⟩
  | text hTag hSize =>
      rw [scalarLength_of_isText hTag]
      exact stringLength_eq_ok.mpr ⟨_, hSize, hPrefix, rfl⟩
  | @binary subtype data hSize =>
      have hField :=
        (Bytes.append_prefix_iff.mp hPrefix).1
      have hLength :=
        Word.readLength_eq_ok.mpr ⟨hSize, hField⟩
      have hTotal : 5 + data.length =
          (Word.ofLength data.length ++
            subtype :: data).length := by
        simp
        omega
      have hClaim :
          Framing.claim (5 + data.length) bytes =
            .ok (5 + data.length) :=
        Framing.claim_eq_ok.mpr ⟨rfl, hTotal ▸ hThere⟩
      rw [← hTotal]
      simp only [Framing.scalarLength,
        Framing.payloadLength, hLength, ok_bind, hClaim]
  | @regex pattern options hPattern hOptions =>
      rcases hPrefix with ⟨rest, rfl⟩
      have hFirst :
          Bytes.cstringLength
              (pattern ++ 0 :: (options ++ [0]) ++ rest) =
            .ok pattern.length :=
        Bytes.cstringLength_eq_ok.mpr
          ⟨pattern, options ++ [0] ++ rest, by simp,
            hPattern, rfl⟩
      have hSecond :
          Bytes.cstringLength
              ((pattern ++ 0 :: (options ++ [0]) ++
                rest).drop (pattern.length + 1)) =
            .ok options.length :=
        Bytes.cstringLength_eq_ok.mpr
          ⟨options, rest, by simp, hOptions, rfl⟩
      simp only [Framing.scalarLength,
        Framing.payloadLength, hFirst, ok_bind, hSecond]
      simp [pure, Except.pure]
      omega
  | @dbPointer name id hSize hId =>
      have hString :=
        stringLength_eq_ok.mpr
          ⟨name, hSize,
            (List.prefix_append _ id).trans hPrefix, rfl⟩
      have hTotal : (stringForm name).length + 12 =
          (stringForm name ++ id).length := by
        rw [List.length_append, hId]
      have hClaim :=
        Framing.claim_eq_ok.mpr ⟨rfl, hTotal ▸ hThere⟩
      rw [← hTotal]
      simp only [Framing.scalarLength,
        Framing.payloadLength, hString, ok_bind, hClaim]

/- A binary payload is a length, a subtype and its data. -/
theorem scalarForm_of_binary
    {bytes : Bytes}
    {n : Nat}
    (hLength :
      Framing.scalarLength .binary bytes = .ok n) :
    ScalarForm .binary (bytes.take n) := by
  rcases bind_eq_ok.mp hLength with ⟨size, hSize, hClaim⟩
  rcases Framing.claim_eq_ok.mp hClaim with ⟨rfl, hThere⟩
  rcases Word.readLength_eq_ok.mp hSize with
    ⟨hSmall, rest, rfl⟩
  rw [List.length_append, Word.length_ofLength] at hThere
  cases rest with
  | nil =>
      rw [List.length_nil] at hThere
      omega
  | cons subtype data =>
      rw [List.length_cons] at hThere
      have hData : (data.take size).length = size := by
        rw [List.length_take]
        omega
      have hForm :
          (Word.ofLength size ++ subtype :: data).take
              (5 + size) =
            Word.ofLength (data.take size).length ++
              subtype :: data.take size := by
        rw [hData, List.take_append, Word.length_ofLength,
          List.take_of_length_le (by simp; omega)]
        have hMore : 5 + size - 4 = size + 1 := by omega
        rw [hMore, List.take_succ_cons]
      rw [hForm]
      apply ScalarForm.binary
      rw [hData]
      exact hSmall

/- A regular expression is two null-terminated strings. -/
theorem scalarForm_of_regex
    {bytes : Bytes}
    {n : Nat}
    (hLength :
      Framing.scalarLength .regex bytes = .ok n) :
    ScalarForm .regex (bytes.take n) := by
  rcases bind_eq_ok.mp hLength with
    ⟨first, hFirst, hRest⟩
  rcases bind_eq_ok.mp hRest with ⟨second, hSecond, hDone⟩
  cases hDone
  rcases Bytes.cstringLength_eq_ok.mp hFirst with
    ⟨pattern, more, rfl, hPattern, rfl⟩
  rw [List.drop_append, List.drop_of_length_le (by omega),
    List.nil_append, Nat.add_sub_cancel_left,
    List.drop_succ_cons, List.drop_zero] at hSecond
  rcases Bytes.cstringLength_eq_ok.mp hSecond with
    ⟨options, rest, rfl, hOptions, rfl⟩
  have hForm :
      (pattern ++ 0 :: (options ++ 0 :: rest)).take
          (pattern.length + 1 + options.length + 1) =
        pattern ++ 0 :: (options ++ [0]) := by
    have hSplit :
        pattern ++ 0 :: (options ++ 0 :: rest) =
          pattern ++ 0 :: (options ++ [0]) ++ rest := by
      simp
    rw [hSplit]
    apply List.take_left'
    simp
    omega
  rw [hForm]
  exact .regex hPattern hOptions

/- A database pointer is a string and twelve bytes. -/
theorem scalarForm_of_dbPointer
    {bytes : Bytes}
    {n : Nat}
    (hLength :
      Framing.scalarLength .dbPointer bytes = .ok n) :
    ScalarForm .dbPointer (bytes.take n) := by
  rcases bind_eq_ok.mp hLength with ⟨size, hSize, hClaim⟩
  rcases Framing.claim_eq_ok.mp hClaim with ⟨rfl, hThere⟩
  rcases stringLength_eq_ok.mp hSize with
    ⟨name, hSmall, ⟨rest, rfl⟩, rfl⟩
  rw [List.length_append] at hThere
  rw [List.take_length_add_append]
  apply ScalarForm.dbPointer hSmall
  rw [List.length_take]
  omega

/- A scalar that is measured has the form of its type. -/
theorem scalarForm_of_scalarLength
    {tag : Tag}
    {bytes : Bytes}
    {n : Nat}
    (hTag : tag.isScalar = true)
    (hLength : Framing.scalarLength tag bytes = .ok n) :
    ScalarForm tag (bytes.take n) := by
  have hFixed
      {width : Nat}
      (hOther : tag ≠ .boolean)
      (hWidth : tag.fixedWidth? = some width) :
      ScalarForm tag (bytes.take n) := by
    rw [scalarLength_of_fixedWidth hOther hWidth] at hLength
    rcases Framing.claim_eq_ok.mp hLength with
      ⟨rfl, hThere⟩
    apply ScalarForm.fixed hOther
    rw [List.length_take, Nat.min_eq_left hThere]
    exact hWidth
  have hText (hString : tag.isText = true) :
      ScalarForm tag (bytes.take n) := by
    rw [scalarLength_of_isText hString] at hLength
    rcases stringLength_eq_ok.mp hLength with
      ⟨text, hSize, hPrefix, rfl⟩
    rw [← List.prefix_iff_eq_take.mp hPrefix]
    exact .text hString hSize
  cases tag with
  | embeddedDocument => cases hTag
  | array => cases hTag
  | codeWithScope => cases hTag
  | boolean =>
      rcases Framing.scalarLength_boolean_eq_ok.mp
          hLength with
        ⟨rfl, b, rest, rfl, hValue⟩
      exact .boolean hValue
  | string => exact hText rfl
  | javaScript => exact hText rfl
  | symbol => exact hText rfl
  | binary => exact scalarForm_of_binary hLength
  | regex => exact scalarForm_of_regex hLength
  | dbPointer => exact scalarForm_of_dbPointer hLength
  | _ => exact hFixed (by decide) rfl

/- What is measured of a scalar is the form it begins. -/
theorem scalarLength_eq_ok
    {tag : Tag}
    {bytes : Bytes}
    {n : Nat}
    (hTag : tag.isScalar = true) :
    Framing.scalarLength tag bytes = .ok n ↔
      ∃ form, ScalarForm tag form ∧ form <+: bytes ∧
        n = form.length := by
  constructor
  · intro hLength
    have hThere := Framing.scalarLength_le hLength
    refine
      ⟨bytes.take n,
        scalarForm_of_scalarLength hTag hLength,
        List.take_prefix n bytes, ?_⟩
    rw [List.length_take, Nat.min_eq_left hThere]
  · intro hExists
    rcases hExists with ⟨form, hForm, hPrefix, rfl⟩
    exact hForm.scalarLength hPrefix

end Grammar

end BsonView
