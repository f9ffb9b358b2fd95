import BsonView.Proofs.Editing.Positions
import BsonView.Proofs.Reading.Accesses
import BsonView.Proofs.Writing.Actions
import Mathlib.Algebra.Group.Nat.Defs
import Mathlib.Data.Nat.Log

/-
  The renderings of an index agree.

  Where an array is sized, the digits of an index are
  counted by its logarithm. Where it is written, they are
  put one by one, the last digit first, into a buffer of a
  fixed length that is used for all of its keys and holds
  what earlier keys left there. Where a value is added, the
  key is the text of the index. All three are about the one
  decimal form of the index.

  Main declarations:
    * `Index.IsDecimal`
    * `Index.isDecimal_iff`
    * `Index.countDigits`
    * `Index.length_eq_countDigits`
    * `Index.Scratch`
    * `Index.Rendering`
    * `Index.Rendering.exists_round`
    * `Index.Rendering.exists_run`
    * `Index.keyIn`
    * `emitValuesIn`
    * `index_renderings_agree`
-/

------------------------------------------------------------
-- Digits One By One
------------------------------------------------------------

namespace BsonView

namespace Index

variable {index : Nat}

/- Several digits are those of a tenth and the last one. -/
theorem digits_of_le
    (hLarge : 10 ≤ index) :
    digits index =
      digits (index / 10) ++
        [UInt8.ofNat (48 + index % 10)] := by
  have hFront :
      digits index =
        digitsBefore (index / 10)
          [UInt8.ofNat (48 + index % 10)] := by
    rw [digits, digitsBefore, if_neg (by omega)]
  rw [hFront, digitsBefore_eq, ofText_text]

/- There is one more of them than a tenth has. -/
theorem length_of_le
    (hLarge : 10 ≤ index) :
    length index = length (index / 10) + 1 := by
  rw [length, if_neg (by omega)]

/- No index is without digits. -/
theorem length_pos
    (index : Nat) :
    0 < length index := by
  rw [length]
  split <;> omega

end Index

end BsonView

------------------------------------------------------------
-- Decimal Forms
------------------------------------------------------------

namespace BsonView

namespace Index

/- The number that digits say. -/
def value (bytes : Bytes) : Nat :=
  bytes.foldl (fun n b => 10 * n + (b.toNat - 48)) 0

/-
  Bytes are the decimal form of an index when they are
  digits that say it, and zero comes first only alone.
-/
structure IsDecimal
    (bytes : Bytes)
    (index : Nat) : Prop where
  digit : ∀ b ∈ bytes, 48 ≤ b.toNat ∧ b.toNat ≤ 57
  value_eq : value bytes = index
  ne_nil : bytes ≠ []
  leading : bytes.head? = some 48 → bytes = [48]

variable {bytes : Bytes} {index : Nat}

/- One more digit is worth its units, the others tens. -/
theorem value_concat
    (bytes : Bytes)
    (b : UInt8) :
    value (bytes ++ [b]) =
      10 * value bytes + (b.toNat - 48) := by
  simp [value]

theorem toNat_digit
    {units : Nat}
    (hUnits : units < 10) :
    (UInt8.ofNat (48 + units)).toNat = 48 + units := by
  have hByte : 48 + units < 256 := by omega
  simp [Nat.mod_eq_of_lt hByte]

/- A digit alone is a decimal form, also if it is zero. -/
theorem isDecimal_digit
    {units : Nat}
    (hUnits : units < 10) :
    IsDecimal [UInt8.ofNat (48 + units)] units := by
  have hDigit := toNat_digit hUnits
  refine ⟨?_, ?_, by simp, by simp⟩
  · intro b hMem
    have hByte := List.mem_singleton.mp hMem
    rw [hByte, hDigit]
    omega
  · have hValue :=
      value_concat [] (UInt8.ofNat (48 + units))
    rw [hDigit] at hValue
    simpa [value] using hValue

/-
  A decimal form with one more digit is one, too, but for
  that of zero.
-/
theorem IsDecimal.concat
    {tens units : Nat}
    (hTens : IsDecimal bytes tens)
    (hPositive : 0 < tens)
    (hUnits : units < 10) :
    IsDecimal (bytes ++ [UInt8.ofNat (48 + units)])
      (10 * tens + units) := by
  have hDigit := toNat_digit hUnits
  refine ⟨?_, ?_, by simp, ?_⟩
  · intro b hMem
    rcases List.mem_append.mp hMem with hFront | hLast
    · exact hTens.digit b hFront
    · have hByte := List.mem_singleton.mp hLast
      rw [hByte, hDigit]
      omega
  · rw [value_concat, hTens.value_eq, hDigit]
    omega
  · intro hZero
    rw [List.head?_append_of_ne_nil _ hTens.ne_nil]
      at hZero
    have hValue := hTens.value_eq
    rw [hTens.leading hZero] at hValue
    exact absurd hValue (Nat.ne_of_lt hPositive)

/-
  The last of several digits says the units, and those in
  front of it are a decimal form of the tens.
-/
theorem IsDecimal.of_concat
    {front : Bytes}
    {last : UInt8}
    (hDecimal : IsDecimal (front ++ [last]) index)
    (hSome : front ≠ []) :
    front.head? ≠ some 48 ∧
      IsDecimal front (index / 10) ∧
      last = UInt8.ofNat (48 + index % 10) := by
  have hLast := hDecimal.digit last (by simp)
  have hIndex := hDecimal.value_eq
  rw [value_concat] at hIndex
  have hHead : front.head? ≠ some 48 := by
    intro hZero
    have hAlone := hDecimal.leading (by
      rw [List.head?_append_of_ne_nil _ hSome, hZero])
    have hShort := congrArg List.length hAlone
    simp [hSome] at hShort
  refine ⟨hHead, ?_, ?_⟩
  · refine ⟨?_, by omega, hSome, ?_⟩
    · intro b hMem
      exact hDecimal.digit b (List.mem_append_left _ hMem)
    · intro hZero
      exact absurd hZero hHead
  · have hUnits : 48 + index % 10 = last.toNat := by omega
    rw [hUnits, UInt8.ofNat_toNat]

/- The digits of an index are a decimal form of it. -/
theorem isDecimal_digits
    (index : Nat) :
    IsDecimal (digits index) index := by
  fun_induction length index with
  | case1 index hSmall =>
      rw [digits_of_lt hSmall]
      exact isDecimal_digit hSmall
  | case2 index hLarge ih =>
      have hUnits : index % 10 < 10 := by omega
      have hConcat := ih.concat (by omega) hUnits
      rw [Nat.div_add_mod] at hConcat
      rw [digits_of_le (Nat.le_of_not_lt hLarge)]
      exact hConcat

/- There is no other decimal form of it. -/
theorem IsDecimal.eq_digits
    (hDecimal : IsDecimal bytes index) :
    bytes = digits index := by
  induction bytes using List.reverseRecOn
      generalizing index with
  | nil => exact absurd rfl hDecimal.ne_nil
  | append_singleton front last ih =>
      by_cases hNone : front = []
      · subst hNone
        have hLast := hDecimal.digit last (by simp)
        have hValue := hDecimal.value_eq
        rw [value_concat] at hValue
        have hIndex : 48 + index = last.toNat := by
          simp only [value, List.foldl_nil] at hValue
          omega
        rw [digits_of_lt (by omega), hIndex,
          UInt8.ofNat_toNat, List.nil_append]
      rcases hDecimal.of_concat hNone with
        ⟨hHead, hTens, hLast⟩
      have hFront := ih hTens
      -- There are tens: zero would stand alone.
      have hLarge : 10 ≤ index := by
        by_contra hSmall
        have hZero : index / 10 = 0 := by omega
        rw [hZero, digits_of_lt (by decide)] at hFront
        simp [hFront] at hHead
      rw [digits_of_le hLarge, ← hFront, ← hLast]

/- The digits of an index are its only decimal form. -/
theorem isDecimal_iff :
    IsDecimal bytes index ↔ bytes = digits index := by
  constructor
  · exact IsDecimal.eq_digits
  · rintro rfl
    exact isDecimal_digits index

end Index

end BsonView

------------------------------------------------------------
-- Counting Digits
------------------------------------------------------------

namespace BsonView

namespace Index

/- The logarithm to base ten, rounded down, if any. -/
def logarithm? (index : Nat) : Option Nat :=
  if index = 0 then none else some (Nat.log 10 index)

/- The number of digits by the logarithm. -/
def countDigits (index : Nat) : Nat :=
  (logarithm? index).getD 0 + 1

variable {index : Nat}

theorem length_eq_log
    (index : Nat) :
    length index = Nat.log 10 index + 1 := by
  fun_induction length index with
  | case1 index hSmall => rw [Nat.log_of_lt hSmall]
  | case2 index hLarge ih =>
      have hTen : 10 ≤ index := Nat.le_of_not_lt hLarge
      rw [ih, Nat.log_of_one_lt_of_le (by decide) hTen]

/- The logarithm counts the digits of zero, too. -/
theorem length_eq_countDigits
    (index : Nat) :
    length index = countDigits index := by
  rw [length_eq_log, countDigits, logarithm?]
  by_cases hZero : index = 0
  · simp [hZero]
  · simp [hZero]

/- There are as many as a power of ten above allows. -/
theorem length_le_iff
    {n : Nat} :
    length index ≤ n + 1 ↔ index < 10 ^ (n + 1) := by
  rw [length_eq_log]
  by_cases hZero : index = 0
  · have hPower : 0 < 10 ^ (n + 1) :=
      Nat.pow_pos (by decide)
    simp [hZero, hPower]
  · rw [← Nat.log_lt_iff_lt_pow (by decide) hZero]
    omega

end Index

end BsonView

------------------------------------------------------------
-- Digits In A Buffer
------------------------------------------------------------

namespace BsonView

namespace Index

/- The most digits that a position has. -/
def maxLength : Nat := 20

/- A buffer in which keys are made. -/
structure Scratch where
  bytes : Bytes
  length_eq : bytes.length = maxLength

/- The buffer with a byte put where there is one. -/
def Scratch.put?
    (scratch : Scratch)
    (i : Nat)
    (b : UInt8) : Option Scratch :=
  if i < maxLength then
    some
      ⟨scratch.bytes.set i b, by
        rw [List.length_set, scratch.length_eq]⟩
  else
    none

/- The byte of the last digit, which must be a byte. -/
def lastDigit? (index : Nat) : Option UInt8 :=
  let units := UInt8.ofNat (index % 10)
  if 48 + units.toNat < 256 then
    some (48 + units)
  else
    none

/-
  What is left of an index, and the position from which on
  its last digits are in the buffer.
-/
structure Rendering where
  rest : Nat
  first : Nat
  scratch : Scratch

namespace Rendering

/-
  Put the last digit of what is left in front of those that
  are in the buffer. There is no answer if that is not a
  position of the buffer.
-/
def round (state : Rendering) : Option Rendering := do
  let first ← Position.difference? state.first 1
  let digit ← lastDigit? state.rest
  let scratch ← state.scratch.put? first digit
  return ⟨state.rest / 10, first, scratch⟩

/- A round leaves less, if it leaves anything. -/
theorem rest_lt_of_round
    {state next : Rendering}
    (hRound : state.round = some next)
    (hMore : next.rest ≠ 0) :
    next.rest < state.rest := by
  simp only [round, Option.bind_eq_bind,
    Option.bind_eq_some_iff] at hRound
  rcases hRound with ⟨_, _, _, _, _, _, hNext⟩
  cases hNext
  dsimp only at hMore ⊢
  omega

/- Put digits until nothing is left, and at least one. -/
def run (state : Rendering) : Option Rendering :=
  match hRound : state.round with
  | none => none
  | some next =>
      if hMore : next.rest = 0 then
        some next
      else
        have : next.rest < state.rest :=
          rest_lt_of_round hRound hMore
        next.run
termination_by state.rest

end Rendering

/-
  The digits of an index in a buffer, and the buffer as it
  is then.
-/
def keyIn
    (index : Nat)
    (scratch : Scratch) : Option (Bytes × Scratch) := do
  let last ← Rendering.run ⟨index, maxLength, scratch⟩
  let key ← last.scratch.bytes.slice? last.first maxLength
  return (key, last.scratch)

end Index

end BsonView

------------------------------------------------------------
-- Rounds And Runs
------------------------------------------------------------

namespace BsonView

namespace Index

/- A digit is a byte. -/
theorem lastDigit?_eq
    (index : Nat) :
    lastDigit? index =
      some (UInt8.ofNat (48 + index % 10)) := by
  have hByte : 48 + index % 10 % 256 < 256 := by omega
  simp [lastDigit?, hByte]

/- Only the byte at the position is another one then. -/
theorem Scratch.put?_of_lt
    {i : Nat}
    (scratch : Scratch)
    (b : UInt8)
    (hInside : i < maxLength) :
    ∃ after, scratch.put? i b = some after ∧
      after.bytes.drop i =
        b :: scratch.bytes.drop (i + 1) ∧
      after.bytes.take i = scratch.bytes.take i := by
  have hThere : i < scratch.bytes.length := by
    rw [scratch.length_eq]
    exact hInside
  refine ⟨_, if_pos hInside, ?_, ?_⟩
  · rw [List.drop_eq_getElem_cons (by simpa using hThere)]
    simp [List.drop_set]
  · simp [List.take_set_of_le]

namespace Rendering

/- The digits that are in the buffer. -/
def written (state : Rendering) : Bytes :=
  state.scratch.bytes.drop state.first

/- The bytes in front of them. -/
def before (state : Rendering) : Bytes :=
  state.scratch.bytes.take state.first

/-
  A rendering leads to another one when more digits are in
  the buffer, right in front of those that were, and what is
  in front of all of them is as it was.
-/
structure LeadsTo
    (state next : Rendering)
    (digits : Bytes) : Prop where
  first_eq : next.first + digits.length = state.first
  written_eq : next.written = digits ++ state.written
  before_eq : next.before = state.before.take next.first

variable {state next last : Rendering}

/- The digits of two parts are those of both. -/
theorem LeadsTo.trans
    {tens units : Bytes}
    (hUnits : state.LeadsTo next units)
    (hTens : next.LeadsTo last tens) :
    state.LeadsTo last (tens ++ units) := by
  have hFirst := hUnits.first_eq
  have hLast := hTens.first_eq
  refine ⟨?_, ?_, ?_⟩
  · rw [List.length_append]
    omega
  · rw [hTens.written_eq, hUnits.written_eq,
      List.append_assoc]
  · rw [hTens.before_eq, hUnits.before_eq, List.take_take,
      Nat.min_eq_left (by omega)]

/- Where it leads, the digits are in front of the others. -/
theorem LeadsTo.bytes_eq
    {digits : Bytes}
    (hLeads : state.LeadsTo next digits) :
    next.scratch.bytes =
      state.scratch.bytes.take next.first ++
        (digits ++ state.written) := by
  have hFirst := hLeads.first_eq
  have hBefore :
      next.before = state.scratch.bytes.take next.first := by
    rw [hLeads.before_eq, before, List.take_take,
      Nat.min_eq_left (by omega)]
  rw [← hBefore, ← hLeads.written_eq]
  exact (List.take_append_drop _ _).symm

/- A round puts one digit where there is room for it. -/
theorem exists_round
    (hRoom : 0 < state.first)
    (hEnd : state.first ≤ maxLength) :
    ∃ next, state.round = some next ∧
      next.rest = state.rest / 10 ∧
      state.LeadsTo next
        [UInt8.ofNat (48 + state.rest % 10)] := by
  have hInside : state.first - 1 < maxLength := by omega
  have hBehind : state.first - 1 + 1 = state.first := by
    omega
  rcases state.scratch.put?_of_lt
      (UInt8.ofNat (48 + state.rest % 10)) hInside with
    ⟨after, hPut, hWritten, hBefore⟩
  refine
    ⟨⟨state.rest / 10, state.first - 1, after⟩, ?_, rfl,
      ?_⟩
  · apply Position.access_eq
      (Position.difference?_of_le hRoom)
    apply Position.access_eq (lastDigit?_eq state.rest)
    exact Position.access_eq hPut rfl
  · refine ⟨hBehind, ?_, ?_⟩
    · rw [hBehind] at hWritten
      exact hWritten
    · simpa [before, List.take_take] using hBefore

/- Only in front of the buffer there is no room. -/
theorem round_eq_none
    (hRound : state.round = none)
    (hEnd : state.first ≤ maxLength) :
    state.first = 0 := by
  by_contra hRoom
  rcases exists_round (Nat.pos_of_ne_zero hRoom) hEnd with
    ⟨next, hNext, _⟩
  simp [hRound] at hNext

/- What a round that has an answer does. -/
theorem leadsTo_of_round
    (hRound : state.round = some next)
    (hEnd : state.first ≤ maxLength) :
    next.rest = state.rest / 10 ∧
      state.LeadsTo next
        [UInt8.ofNat (48 + state.rest % 10)] := by
  have hRoom : 0 < state.first := by
    by_contra hFull
    have hNone : Position.difference? state.first 1 = none :=
      if_neg (by omega)
    simp [round, hNone] at hRound
  rcases exists_round hRoom hEnd with
    ⟨other, hOther, hLeads⟩
  cases hRound.symm.trans hOther
  exact hLeads

/-
  A run puts all digits of what is left, or there is no room
  for them and no answer.
-/
theorem run_cases
    (hEnd : state.first ≤ maxLength) :
    (state.first < length state.rest ∧ state.run = none) ∨
      ∃ last, state.run = some last ∧
        state.LeadsTo last (digits state.rest) := by
  fun_induction run state with
  | case1 state hRound =>
      have hFull := round_eq_none hRound hEnd
      have hSome := length_pos state.rest
      exact .inl ⟨by omega, rfl⟩
  | case2 state next hRound hDone =>
      rcases leadsTo_of_round hRound hEnd with
        ⟨hRest, hLeads⟩
      have hSmall : state.rest < 10 := by omega
      rw [Nat.mod_eq_of_lt hSmall] at hLeads
      rw [digits_of_lt hSmall]
      exact .inr ⟨next, rfl, hLeads⟩
  | case3 state next hRound hMore hLess ih =>
      rcases leadsTo_of_round hRound hEnd with
        ⟨hRest, hLeads⟩
      have hLarge : 10 ≤ state.rest := by omega
      have hFirst := hLeads.first_eq
      rw [List.length_singleton] at hFirst
      have hLength := length_of_le hLarge
      rw [digits_of_le hLarge, ← hRest]
      rw [← hRest] at hLength
      rcases ih (by omega) with
        ⟨hShort, hNone⟩ | ⟨last, hRun, hTens⟩
      · exact .inl ⟨by omega, hNone⟩
      · exact .inr ⟨last, hRun, hLeads.trans hTens⟩

end Rendering

/-
  Whatever was in the buffer, its last bytes are the digits
  of the index then, and those are the key.
-/
theorem exists_keyIn
    {index : Nat}
    (hRoom : length index ≤ maxLength)
    (scratch : Scratch) :
    ∃ after : Scratch,
      keyIn index scratch = some (digits index, after) ∧
        after.bytes =
          scratch.bytes.take
              (maxLength - (digits index).length) ++
            digits index := by
  let start : Rendering := ⟨index, maxLength, scratch⟩
  have hNone : start.written = [] :=
    List.drop_eq_nil_of_le (Nat.le_of_eq scratch.length_eq)
  have hEnd : start.first ≤ maxLength := Nat.le_refl _
  rcases Rendering.run_cases hEnd with
    ⟨hShort, _⟩ | ⟨last, hRun, hLeads⟩
  · exact absurd hRoom (Nat.not_le_of_lt hShort)
  have hLength := last.scratch.length_eq
  have hFirst :
      last.first + (digits index).length = maxLength :=
    hLeads.first_eq
  have hWritten : last.written = digits index := by
    rw [hLeads.written_eq, hNone, List.append_nil]
  have hKey :
      last.scratch.bytes.slice? last.first maxLength =
        some (digits index) := by
    rw [Bytes.slice?_of_le (by omega) (by omega), ← hLength,
      List.take_length]
    exact congrArg some hWritten
  refine ⟨last.scratch, ?_, ?_⟩
  · apply Position.access_eq hRun
    exact Position.access_eq hKey rfl
  · have hFront :
        maxLength - (digits index).length = last.first := by
      omega
    rw [hLeads.bytes_eq, hNone, List.append_nil, hFront]

/- All positions have so many digits at most. -/
theorem length_le_maxLength
    {index : Nat}
    (hIndex : index < positionLimit) :
    length index ≤ maxLength := by
  apply length_le_iff.mpr
  unfold positionLimit at hIndex
  omega

/-
  A buffer has room for the indices below a power of ten,
  and for no others.
-/
theorem keyIn_eq_none_iff
    {index : Nat}
    {scratch : Scratch} :
    keyIn index scratch = none ↔
      10 ^ maxLength ≤ index := by
  have hPower :
      length index ≤ maxLength ↔ index < 10 ^ maxLength :=
    length_le_iff
  constructor
  · intro hNone
    by_contra hSmall
    have hRoom := hPower.mpr (Nat.lt_of_not_le hSmall)
    rcases exists_keyIn hRoom scratch with ⟨_, hKey, _⟩
    simp [hNone] at hKey
  · intro hLarge
    have hLong : maxLength < length index := by omega
    let start : Rendering := ⟨index, maxLength, scratch⟩
    have hEnd : start.first ≤ maxLength := Nat.le_refl _
    rcases Rendering.run_cases hEnd with
      ⟨_, hRun⟩ | ⟨last, _, hLeads⟩
    · simp only [start] at hRun
      simp [keyIn, hRun]
    · have hFirst :
          last.first + (digits index).length = maxLength :=
        hLeads.first_eq
      rw [length_digits] at hFirst
      omega

end Index

end BsonView

------------------------------------------------------------
-- Keys Of Arrays
------------------------------------------------------------

namespace BsonView

/-
  Write values as an array does, with the keys made one
  after the other in one buffer. There is no answer if there
  is no room for a key in it.
-/
def emitValuesIn
    (start index pos : Nat)
    (scratch : Index.Scratch) :
    List Element → Write (Option Nat)
| [] => return some pos
| ⟨value⟩ :: rest => do
    let tag ←
      Write.after (pos - start) (liftM value.tag)
    match Index.keyIn index scratch with
    | none => return none
    | some (key, scratch) =>
        let header := tag.byte :: key ++ [0]
        let n ←
          Write.after (pos - start) (Write.copy pos header)
        let pos := pos + n
        let n ←
          Write.after (pos - start)
            (value.emit false none pos)
        emitValuesIn start (index + 1) (pos + n) scratch
          rest

/-
  Values are written the same, whatever is in the buffer in
  the beginning.
-/
theorem emitValuesIn_eq
    {start index pos : Nat}
    {scratch : Index.Scratch}
    {elements : List Element}
    (hIndices : index + elements.length ≤ positionLimit) :
    emitValuesIn start index pos scratch elements =
      some <$> emitValues start index pos elements := by
  induction elements generalizing index pos scratch with
  | nil => rw [emitValuesIn, emitValues, map_pure]
  | cons element rest ih =>
      rcases element with ⟨value⟩
      rw [List.length_cons] at hIndices
      have hRoom : Index.length index ≤ Index.maxLength :=
        Index.length_le_maxLength (by omega)
      have hRest :
          index + 1 + rest.length ≤ positionLimit := by
        omega
      rcases Index.exists_keyIn hRoom scratch with
        ⟨after, hKey, _⟩
      rw [emitValuesIn, emitValues]
      simp only [hKey, ih hRest, map_bind]

/- A value is added under the digits of its position. -/
theorem ArrayDoc.exists_of_push
    {array pushed : ArrayDoc}
    {value : Value}
    (hPush : array.push value = .ok pushed) :
    ∃ element,
      pushed.elements = array.elements ++ [element] ∧
        element.value.keyBytes? =
          some (Index.digits array.length) := by
  unfold push at hPush
  split at hPush
  next element hMake =>
    cases hPush
    refine ⟨element, rfl, ?_⟩
    rw [Element.keyBytes?_of_make? hMake, Index.ofText_text]
  next => cases hPush

/-
  The digits of an index that are made in a buffer are its
  one decimal form, whatever was in the buffer, and nothing
  but the end of the buffer is changed. The bytes of its
  text are the same, and its logarithm tells how many they
  are. With these arrays are sized and written, and values
  are added to them: an array that makes all of its keys in
  one buffer is written the same, and the key of a value
  that is added is the digits of its position. A buffer is
  too short only for indices that are no positions.
-/
theorem index_renderings_agree :
    (∀ (index : Nat) (scratch : Index.Scratch),
      index < positionLimit →
        ∃ (key : Bytes) (after : Index.Scratch),
          Index.keyIn index scratch = some (key, after) ∧
            after.bytes =
              scratch.bytes.take
                  (Index.maxLength - key.length) ++ key ∧
            (∀ bytes,
              Index.IsDecimal bytes index ↔ bytes = key) ∧
            Bytes.ofText (Index.text index) = key ∧
            Index.digits index = key ∧
            Index.countDigits index = key.length ∧
            Index.length index = key.length) ∧
      (∀ (index : Nat) (scratch : Index.Scratch),
        Index.keyIn index scratch = none ↔
          10 ^ Index.maxLength ≤ index) ∧
      (∀ (array pushed : ArrayDoc) (value : Value),
        array.push value = .ok pushed →
          ∃ element,
            pushed.elements = array.elements ++ [element] ∧
              element.value.keyBytes? =
                some (Index.digits array.length)) ∧
      ∀ (start pos : Nat) (scratch : Index.Scratch)
        (elements : List Element),
        elements.length ≤ positionLimit →
          emitValuesIn start 0 pos scratch elements =
            some <$> emitValues start 0 pos elements := by
  refine ⟨?_, ?_, ?_, ?_⟩
  · intro index scratch hIndex
    have hRoom := Index.length_le_maxLength hIndex
    rcases Index.exists_keyIn hRoom scratch with
      ⟨after, hKey, hBytes⟩
    have hLength := Index.length_digits index
    have hCount := Index.length_eq_countDigits index
    exact
      ⟨Index.digits index, after, hKey, hBytes,
        fun _ => Index.isDecimal_iff,
        Index.ofText_text index, rfl,
        hCount.symm.trans hLength.symm, hLength.symm⟩
  · intro index scratch
    exact Index.keyIn_eq_none_iff
  · intro array pushed value hPush
    exact ArrayDoc.exists_of_push hPush
  · intro start pos scratch elements hElements
    exact emitValuesIn_eq (by omega)

/-
  The greatest index fills the buffer, and the eleventh
  value is added under a key of two digits.
-/
theorem greatest_index_fills_buffer :
    let scratch : Index.Scratch :=
      ⟨List.replicate 20 255, rfl⟩
    let key := Bytes.ofText "18446744073709551615"
    let array : ArrayDoc :=
      ⟨List.replicate 10 ⟨.ofScalar .null⟩⟩
    (∃ after : Index.Scratch,
      Index.keyIn (positionLimit - 1) scratch =
          some (key, after) ∧
        after.bytes = key) ∧
      Index.countDigits (positionLimit - 1) = 20 ∧
      (∃ element pushed,
        array.push (.ofScalar .null) = .ok pushed ∧
          pushed.elements = array.elements ++ [element] ∧
          element.value.keyBytes? = some [49, 48]) ∧
      emitValuesIn 0 0 4 scratch array.elements =
        some <$> emitValues 0 0 4 array.elements := by
  intro scratch key array
  have hKey :
      Bytes.ofText (Index.text (positionLimit - 1)) =
        key := by
    decide +kernel
  have hLength : key.length = 20 := by decide +kernel
  have hDigits : Index.digits array.length = [49, 48] := by
    decide +kernel
  have hMade : (array.push (.ofScalar .null)).isOk := by
    decide +kernel
  rcases index_renderings_agree with
    ⟨hRendered, _, hPushed, hWritten⟩
  refine ⟨?_, ?_, ?_, ?_⟩
  · rcases hRendered (positionLimit - 1) scratch
        (by decide) with
      ⟨bytes, after, hIn, hAfter, _, hText, _⟩
    cases hText.symm.trans hKey
    refine ⟨after, hIn, ?_⟩
    rw [hAfter, hLength]
    rfl
  · rcases hRendered (positionLimit - 1) scratch
        (by decide) with
      ⟨bytes, _, _, _, _, hText, _, hCount, _⟩
    rw [hCount, ← hText, hKey, hLength]
  · rcases hPush : array.push (.ofScalar .null) with
      error | pushed
    · simp [hPush, Except.isOk, Except.toBool] at hMade
    · rcases hPushed array pushed _ hPush with
        ⟨element, hElements, hFound⟩
      rw [hDigits] at hFound
      exact ⟨element, pushed, rfl, hElements, hFound⟩
  · exact hWritten 0 4 scratch array.elements (by decide)

end BsonView
