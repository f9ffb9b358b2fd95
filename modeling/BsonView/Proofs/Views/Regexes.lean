import BsonView.Equality
import BsonView.Index
import BsonView.Proofs.Views.Constructors
import Mathlib.Data.List.TakeWhile

/-
  Regexes and null characters.

  A regex is written as its pattern and its options, each
  closed by a null byte, with nothing that says how long
  they are. Any two texts are accepted. A null character in
  one of them closes it before its end, and what comes
  behind it is taken for something else: options are read
  behind the first null byte, wherever that is, up to the
  second.

  Main declarations:
    * `Bytes.zero_mem_ofText`
    * `Regex.beforeNull`
    * `Regex.behindNull`
    * `Regex.kept`
    * `Regex.kept_eq_iff`
    * `Value.asRegex_ofScalar`
    * `Value.equal_iff_of_asRegex`
    * `regexes_end_at_null_characters`
    * `regex_with_null_character_is_altered`
-/

------------------------------------------------------------
-- Null Bytes Of Texts
------------------------------------------------------------

namespace BsonView

namespace Bytes

/-
  All bytes of a character with more than seven bits have
  the highest bit set.
-/
theorem high_of_mem_utf8EncodeChar
    {c : Char}
    (hLong : 128 ≤ c.val.toNat) :
    ∀ b ∈ String.utf8EncodeChar c, 128 ≤ b.toNat := by
  unfold String.utf8EncodeChar
  dsimp only
  rw [if_neg (by omega)]
  split
  · simp only [List.forall_mem_cons, UInt8.toNat_ofNat']
    refine ⟨by omega, by omega, nofun⟩
  split
  · simp only [List.forall_mem_cons, UInt8.toNat_ofNat']
    refine ⟨by omega, by omega, by omega, nofun⟩
  · simp only [List.forall_mem_cons, UInt8.toNat_ofNat']
    refine ⟨by omega, by omega, by omega, by omega, nofun⟩

/- Only the null character has a null byte. -/
theorem zero_mem_utf8EncodeChar
    {c : Char} :
    0 ∈ String.utf8EncodeChar c ↔ c = '\x00' := by
  constructor
  · intro hZero
    have hSmall : c.val.toNat < 128 := by
      by_contra hLong
      have hHigh :=
        high_of_mem_utf8EncodeChar (Nat.not_lt.mp hLong) 0
          hZero
      rw [UInt8.toNat_zero] at hHigh
      omega
    unfold String.utf8EncodeChar at hZero
    dsimp only at hZero
    rw [if_pos (by omega), List.mem_singleton] at hZero
    have hNat := congrArg UInt8.toNat hZero
    rw [UInt8.toNat_ofNat', UInt8.toNat_zero] at hNat
    apply Char.toNat_inj.mp
    change c.val.toNat = 0
    omega
  · rintro rfl
    decide

/- A text has a null byte where it has a null character. -/
theorem zero_mem_ofText
    {text : String} :
    0 ∈ ofText text ↔ '\x00' ∈ text.toList := by
  rw [← String.ofList_toList (s := text), ofText_ofList,
    String.toList_ofList, List.mem_flatMap]
  constructor
  · rintro ⟨c, hMem, hZero⟩
    rw [← zero_mem_utf8EncodeChar.mp hZero]
    exact hMem
  · intro hMem
    exact ⟨_, hMem, zero_mem_utf8EncodeChar.mpr rfl⟩

theorem ofText_append
    (a b : String) :
    ofText (a ++ b) = ofText a ++ ofText b := by
  simp [ofText]

end Bytes

end BsonView

------------------------------------------------------------
-- Texts Up To A Null Character
------------------------------------------------------------

namespace BsonView

namespace Regex

/- The text before its first null character. -/
def beforeNull (text : String) : String :=
  .ofList (text.toList.takeWhile (· ≠ '\x00'))

/- The text behind its first null character. -/
def behindNull (text : String) : String :=
  .ofList ((text.toList.dropWhile (· ≠ '\x00')).drop 1)

/-
  What is kept of a pattern and its options. They are
  written with a null character between them: the pattern
  ends at the first one in the whole, the options at the
  next.
-/
def kept (pattern options : String) : String × String :=
  let text := pattern ++ "\x00" ++ options
  (beforeNull text, beforeNull (behindNull text))

variable {front rest text : String}

theorem all_ne_null
    (hText : '\x00' ∉ text.toList) :
    ∀ c ∈ text.toList, decide (c ≠ '\x00') = true :=
  fun _ hMem =>
    decide_eq_true (ne_of_mem_of_not_mem hMem hText)

/-
  A text is read up to the null character behind its front.
-/
theorem beforeNull_append
    (hFront : '\x00' ∉ front.toList) :
    beforeNull (front ++ "\x00" ++ rest) = front := by
  rw [beforeNull, String.toList_append, String.toList_append,
    List.append_assoc,
    List.takeWhile_append_of_pos (all_ne_null hFront)]
  simp

/- What is read next is what comes behind that. -/
theorem behindNull_append
    (hFront : '\x00' ∉ front.toList) :
    behindNull (front ++ "\x00" ++ rest) = rest := by
  rw [behindNull, String.toList_append, String.toList_append,
    List.append_assoc,
    List.dropWhile_append_of_pos (all_ne_null hFront)]
  simp

/- A text without a null character is kept whole. -/
theorem beforeNull_eq
    (hText : '\x00' ∉ text.toList) :
    beforeNull text = text := by
  rw [beforeNull,
    List.takeWhile_eq_self_iff.mpr (all_ne_null hText),
    String.ofList_toList]

/- What is kept has no null character. -/
theorem not_mem_beforeNull
    (text : String) :
    '\x00' ∉ (beforeNull text).toList := by
  intro hMem
  rw [beforeNull, String.toList_ofList] at hMem
  have hNot := List.mem_takeWhile_imp hMem
  simp at hNot

/- A text is split at its first null character. -/
theorem split_at_null
    (hText : '\x00' ∈ text.toList) :
    beforeNull text ++ "\x00" ++ behindNull text = text := by
  rcases List.eq_append_cons_of_mem hText with
    ⟨front, rest, hSplit, hFront⟩
  have hWhole :
      text =
        String.ofList front ++ "\x00" ++
          String.ofList rest := by
    apply String.toList_inj.mp
    simp [hSplit]
  have hOwn : '\x00' ∉ (String.ofList front).toList := by
    rwa [String.toList_ofList]
  rw [hWhole, beforeNull_append hOwn, behindNull_append hOwn]

/- Nothing is lost where there is no null character. -/
theorem kept_eq_iff
    {pattern options : String} :
    kept pattern options = (pattern, options) ↔
      '\x00' ∉ pattern.toList ∧
        '\x00' ∉ options.toList := by
  constructor
  · intro hKept
    rcases Prod.mk.inj hKept with ⟨hPattern, hOptions⟩
    have hFirst :=
      not_mem_beforeNull (pattern ++ "\x00" ++ options)
    have hSecond :=
      not_mem_beforeNull
        (behindNull (pattern ++ "\x00" ++ options))
    rw [hPattern] at hFirst
    rw [hOptions] at hSecond
    exact ⟨hFirst, hSecond⟩
  · rintro ⟨hPattern, hOptions⟩
    rw [kept, beforeNull_append hPattern,
      behindNull_append hPattern, beforeNull_eq hOptions]

end Regex

end BsonView

------------------------------------------------------------
-- What Is Kept Of A Regex
------------------------------------------------------------

namespace BsonView

namespace Scalar

/- A null character closes a string as its end does. -/
theorem cstringBytes_append
    (a b : String) :
    cstringBytes (a ++ "\x00" ++ b) =
      cstringBytes a ++ cstringBytes b := by
  have hNull : Bytes.ofText "\x00" = [0] := rfl
  simp only [cstringBytes, Bytes.ofText_append, hNull,
    List.append_assoc]

/- The bytes begin with those of what is before a null. -/
theorem cstringBytes_beforeNull
    (text : String) :
    cstringBytes (Regex.beforeNull text) <+:
      cstringBytes text := by
  by_cases hText : '\x00' ∈ text.toList
  · refine ⟨cstringBytes (Regex.behindNull text), ?_⟩
    rw [← cstringBytes_append, Regex.split_at_null hText]
  · rw [Regex.beforeNull_eq hText]

/- What is kept fits a regex. -/
theorem kept_fits
    (pattern options : String) :
    (Scalar.regex (Regex.kept pattern options).1
      (Regex.kept pattern options).2).Fits :=
  ⟨mt Bytes.zero_mem_ofText.mp (Regex.not_mem_beforeNull _),
    mt Bytes.zero_mem_ofText.mp (Regex.not_mem_beforeNull _)⟩

/- It is all in front of what is written. -/
theorem kept_bytes
    (pattern options : String) :
    (Scalar.regex (Regex.kept pattern options).1
        (Regex.kept pattern options).2).bytes <+:
      (Scalar.regex pattern options).bytes := by
  have hNull :
      '\x00' ∈ (pattern ++ "\x00" ++ options).toList := by
    simp
  -- The null between pattern and options is one as well.
  have hWritten :
      (Scalar.regex pattern options).bytes =
        cstringBytes (pattern ++ "\x00" ++ options) :=
    (cstringBytes_append pattern options).symm
  rw [hWritten, ← Regex.split_at_null hNull,
    cstringBytes_append]
  exact
    (List.prefix_append_right_inj _).mpr
      (cstringBytes_beforeNull _)

end Scalar

namespace Value

/- A made regex answers what is kept. -/
theorem answers_ofScalar_regex
    (pattern options : String) :
    (ofScalar (.regex pattern options)).Answers
      (.regex (Regex.kept pattern options).1
        (Regex.kept pattern options).2) :=
  answers_iff_front.mpr
    ⟨tag_make _ _ _, Scalar.kept_fits _ _,
      Scalar.kept_bytes _ _⟩

/- Regexes are equal when they answer the same. -/
theorem equal_iff_of_asRegex
    {a b : Value}
    {regex other : String × String}
    (hA : a.asRegex = .ok regex)
    (hB : b.asRegex = .ok other) :
    a.equal b = true ↔ regex = other := by
  rcases regex with ⟨pattern, options⟩
  rcases other with ⟨otherPattern, otherOptions⟩
  have hAnswers : a.Answers (.regex pattern options) := hA
  have hOther :
      b.Answers (.regex otherPattern otherOptions) := hB
  rcases answers_iff.mp hAnswers with
    ⟨hTag, hFits, hBytes⟩
  rcases answers_iff.mp hOther with
    ⟨hOtherTag, hOtherFits, hOtherBytes⟩
  have hRead :=
    Scalar.readRegex_iff_front.mpr
      ⟨hFits, List.prefix_refl _⟩
  have hOtherRead :=
    Scalar.readRegex_iff_front.mpr
      ⟨hOtherFits, List.prefix_refl _⟩
  have hSeen :
      a.equal b = true ↔
        (Scalar.regex pattern options).bytes =
          (Scalar.regex otherPattern otherOptions).bytes := by
    rw [equal, snapshot_of_scalar hTag rfl,
      snapshot_of_scalar hOtherTag rfl, hBytes,
      hOtherBytes]
    exact beq_iff_eq
  rw [hSeen]
  -- A reader tells apart what is written for two regexes.
  constructor
  · intro hSame
    have hBoth :
        Scalar.cstringBytes pattern ++
            Scalar.cstringBytes options =
          Scalar.cstringBytes otherPattern ++
            Scalar.cstringBytes otherOptions := hSame
    rw [hBoth] at hRead
    exact Except.ok.inj (hRead.symm.trans hOtherRead)
  · intro hSame
    rcases Prod.mk.inj hSame with ⟨rfl, rfl⟩
    rfl

end Value

end BsonView

------------------------------------------------------------
-- Regexes That Are Made
------------------------------------------------------------

namespace BsonView

/-
  A regex is made of any two texts, and what is kept of them
  is answered: by the value itself, under any key without a
  null byte, and after the element is written, if there are
  positions enough, and read again. Two regexes are equal
  when the same is kept of them. Pattern and options are
  kept as they are when neither has a null character, and
  only then.
-/
theorem regexes_end_at_null_characters
    (pattern options : String) :
    let kept := Regex.kept pattern options
    let value := Value.ofScalar (.regex pattern options)
    value.asRegex = .ok kept ∧
      (∀ key : String,
        0 ∉ Bytes.ofText key →
          ∃ element,
            Element.make? key value = some element ∧
              element.value.asRegex = .ok kept ∧
              ((Bytes.ofText key).length + 2 +
                    (Scalar.regex kept.1 kept.2).bytes.length <
                  positionLimit →
                ∃ bytes again,
                  element.encode = .ok bytes ∧
                    Element.read bytes = .ok again ∧
                    again.value.asRegex = .ok kept)) ∧
      (∀ otherPattern otherOptions : String,
        value.equal
              (.ofScalar
                (.regex otherPattern otherOptions)) =
            true ↔
          kept =
            Regex.kept otherPattern otherOptions) ∧
      (kept = (pattern, options) ↔
        '\x00' ∉ pattern.toList ∧
          '\x00' ∉ options.toList) := by
  intro kept value
  have hAnswers :=
    Value.answers_ofScalar_regex pattern options
  refine ⟨hAnswers, ?_, ?_, Regex.kept_eq_iff⟩
  · intro key hKey
    rcases Value.answers_iff.mp hAnswers with
      ⟨_, _, hBytes⟩
    rcases Element.exists_make? hKey hBytes with
      ⟨element, hMake⟩
    have hMade := Element.answers_of_make? hMake hAnswers
    exact
      ⟨element, hMake, hMade,
        Element.read_scalar
          (Element.keyBytes?_of_make? hMake)
          (Element.of_make? hMake).2.2.2 hMade⟩
  · intro otherPattern otherOptions
    exact
      Value.equal_iff_of_asRegex hAnswers
        (Value.answers_ofScalar_regex otherPattern
          otherOptions)

/-
  Behind a null character in the pattern options are read,
  and the options that were given are lost.
-/
theorem given_options_are_lost :
    ∃ element bytes again,
      Element.make? "k"
          (.ofScalar (.regex "a\x00b" "i")) =
        some element ∧
      element.encode = .ok bytes ∧
      Element.read bytes = .ok again ∧
      again.value.asRegex = .ok ("a", "b") := by
  rcases regexes_end_at_null_characters "a\x00b" "i" with
    ⟨_, hMade, _⟩
  rcases hMade "k" (by decide) with
    ⟨element, hMake, _, hRead⟩
  rcases hRead (by decide) with ⟨bytes, again, hAgain⟩
  exact ⟨element, bytes, again, hMake, hAgain⟩

/-
  Such a regex is not answered as it was made, and it is
  equal to one that was made otherwise.
-/
theorem regex_with_null_character_is_altered :
    let value := Value.ofScalar (.regex "a\x00b" "i")
    value.asRegex ≠ .ok ("a\x00b", "i") ∧
      value.equal (.ofScalar (.regex "a" "b")) = true ∧
      ("a\x00b", "i") ≠ ("a", "b") := by
  intro value
  have hValue : value.asRegex = .ok ("a", "b") :=
    Value.answers_ofScalar_regex "a\x00b" "i"
  have hOther :
      (Value.ofScalar (.regex "a" "b")).asRegex =
        .ok ("a", "b") :=
    Value.answers_ofScalar_regex "a" "b"
  have hDiffer : ("a\x00b", "i") ≠ ("a", "b") := by decide
  refine ⟨?_, ?_, hDiffer⟩
  · rw [hValue]
    intro hSame
    exact hDiffer (Except.ok.inj hSame).symm
  · exact
      (Value.equal_iff_of_asRegex hValue hOther).mpr rfl

end BsonView
