import BsonView.Target
import BsonView.Proofs.Writing.Exactness

/-
  All targets get the same bytes.

  An element that validates puts its encoding wherever it is
  written: over a part of a buffer that has the room, into a
  buffer that is made long enough, or to a stream. One that
  does not validate is not written at all. A buffer is never
  made longer than buffers can be.

  A stream of limited room is only one kind of stream. Any
  other may take what it is offered in pieces, ask to be
  offered it again, or fail.

  Main declarations:
    * `Channel`
    * `Pours`
    * `Channel.IsWilling`
    * `Element.Streams`
    * `Pours.taken_eq`
    * `Pours.taken_short`
    * `Element.streams_bounded`
    * `Element.encode?_fills`
    * `targets_get_the_same_bytes`
-/

------------------------------------------------------------
-- Streams Of Any Kind
------------------------------------------------------------

namespace BsonView

/- How a stream answers when it is offered bytes. -/
inductive Uptake
| taken (n : Nat)
| interrupted
| failed (error : Error)

/-
  A stream of any kind: it is offered bytes, answers how
  many of them it takes from the front, and goes into
  another state.
-/
abbrev Channel (σ : Type) := σ → Bytes → Uptake × σ

/-
  Bytes are offered until all are taken. A stream that takes
  none is full; one that was interrupted is asked again. No
  stream takes more than it is offered.

  `Pours channel state bytes outcome taken after` relates
  the state and the bytes to how the pouring ends, what was
  taken by then and the state the stream is left in.
-/
inductive Pours
    {σ : Type}
    (channel : Channel σ) :
    σ → Bytes → Except Error Unit → Bytes → σ → Prop
| done (state : σ) :
    Pours channel state [] (.ok ()) [] state
| full
    {state after : σ}
    {bytes : Bytes}
    (hSome : bytes ≠ [])
    (hOffer : channel state bytes = (.taken 0, after)) :
    Pours channel state bytes (.error .streamFull) [] after
| more
    {state next after : σ}
    {bytes taken : Bytes}
    {n : Nat}
    {outcome : Except Error Unit}
    (hPositive : 0 < n)
    (hFew : n ≤ bytes.length)
    (hOffer : channel state bytes = (.taken n, next))
    (hRest :
      Pours channel next (bytes.drop n) outcome taken
        after) :
    Pours channel state bytes outcome
      (bytes.take n ++ taken) after
| again
    {state next after : σ}
    {bytes taken : Bytes}
    {outcome : Except Error Unit}
    (hSome : bytes ≠ [])
    (hOffer : channel state bytes = (.interrupted, next))
    (hRest :
      Pours channel next bytes outcome taken after) :
    Pours channel state bytes outcome taken after
| failed
    {state after : σ}
    {bytes : Bytes}
    {error : Error}
    (hSome : bytes ≠ [])
    (hOffer : channel state bytes = (.failed error, after)) :
    Pours channel state bytes (.error error) [] after

namespace Pours

variable
  {σ : Type}
  {channel : Channel σ}
  {state after : σ}
  {bytes taken : Bytes}

/- What is taken are the bytes from the front on. -/
theorem taken_prefix
    {outcome : Except Error Unit}
    (hPours :
      Pours channel state bytes outcome taken after) :
    taken <+: bytes := by
  induction hPours with
  | done state => exact List.nil_prefix
  | full hSome hOffer => exact List.nil_prefix
  | @more _ _ _ bytes _ n _ hPositive hFew hOffer _ ih =>
      have hBoth :=
        (List.prefix_append_right_inj (bytes.take n)).mpr ih
      rw [List.take_append_drop] at hBoth
      exact hBoth
  | again hSome hOffer _ ih => exact ih
  | failed hSome hOffer => exact List.nil_prefix

/- Where the pouring succeeds all are taken. -/
theorem taken_eq
    (hPours :
      Pours channel state bytes (.ok ()) taken after) :
    taken = bytes := by
  generalize hOutcome :
    (Except.ok () : Except Error Unit) = outcome at hPours
  induction hPours with
  | done state => rfl
  | full hSome hOffer => cases hOutcome
  | @more _ _ _ bytes _ n _ hPositive hFew hOffer _ ih =>
      rw [ih hOutcome, List.take_append_drop]
  | again hSome hOffer _ ih => exact ih hOutcome
  | failed hSome hOffer => cases hOutcome

/- Where it fails some are not. -/
theorem taken_short
    {error : Error}
    (hPours :
      Pours channel state bytes (.error error) taken
        after) :
    taken.length < bytes.length := by
  generalize hOutcome :
    (Except.error error : Except Error Unit) = outcome
      at hPours
  induction hPours with
  | done state => cases hOutcome
  | full hSome hOffer =>
      exact List.length_pos_iff.mpr hSome
  | @more _ _ _ bytes _ n _ hPositive hFew hOffer _ ih =>
      have hRest := ih hOutcome
      rw [List.length_drop] at hRest
      rw [List.length_append, List.length_take]
      omega
  | again hSome hOffer _ ih => exact ih hOutcome
  | failed hSome hOffer =>
      exact List.length_pos_iff.mpr hSome

end Pours

/- The stream takes something of what it is offered. -/
def Channel.IsWilling
    {σ : Type}
    (channel : Channel σ) : Prop :=
  ∀ (state : σ) (bytes : Bytes),
    bytes ≠ [] →
      ∃ n after, 0 < n ∧ n ≤ bytes.length ∧
        channel state bytes = (.taken n, after)

/-
  Into such a stream everything can be poured: each time
  fewer bytes are left to be offered.
-/
theorem Channel.IsWilling.pours
    {σ : Type}
    {channel : Channel σ}
    (hWilling : channel.IsWilling)
    (state : σ)
    (bytes : Bytes) :
    ∃ after,
      Pours channel state bytes (.ok ()) bytes after := by
  induction hLength : bytes.length using
    Nat.strongRecOn generalizing state bytes with
  | ind length ih =>
  by_cases hSome : bytes = []
  · subst hSome
    exact ⟨state, .done state⟩
  rcases hWilling state bytes hSome with
    ⟨n, next, hPositive, hFew, hOffer⟩
  have hLess : (bytes.drop n).length < length := by
    rw [List.length_drop]
    omega
  rcases ih _ hLess next (bytes.drop n) rfl with
    ⟨after, hRest⟩
  have hPours := Pours.more hPositive hFew hOffer hRest
  rw [List.take_append_drop] at hPours
  exact ⟨after, hPours⟩

end BsonView

------------------------------------------------------------
-- Elements To Streams
------------------------------------------------------------

namespace BsonView

namespace Element

/-
  What an element hands to a stream: its encoding, if it is
  valid and is not to start elsewhere than at the stream's
  own end.
-/
def handed?
    (element : Element)
    (start : Nat) : Reaching Error Bytes :=
  match element.validate? with
  | none => none
  | some (.error failure) => some (.error failure.error)
  | some (.ok _) =>
      if start ≠ 0 then some (.error .invalidWriteTarget)
      else element.encode?

/-
  Writing an element to a stream of any kind: what is handed
  to it is poured, and its length is the answer. Where there
  is neither a thing to hand over nor an error, there is no
  answer.
-/
def Streams
    {σ : Type}
    (element : Element)
    (channel : Channel σ)
    (start : Nat)
    (state : σ)
    (outcome : Except Error Nat)
    (taken : Bytes)
    (after : σ) : Prop :=
  match element.handed? start with
  | none => False
  | some (.error error) =>
      outcome = .error error ∧ taken = [] ∧ after = state
  | some (.ok bytes) =>
      ∃ sent, Pours channel state bytes sent taken after ∧
        outcome = sent.map fun _ => bytes.length

end Element

namespace Stream

variable {received bytes : Bytes} {room : Nat}

/- A stream of limited room takes what it has room for. -/
def offer : Channel Stream :=
  fun stream bytes =>
    let taken := bytes.take stream.room
    (.taken taken.length,
      ⟨stream.received ++ taken,
        stream.room - taken.length⟩)

/- What fits is sent. -/
theorem send_of_room
    (hAll : bytes.length ≤ room) :
    send ⟨received, room⟩ bytes =
      (.ok (), ⟨received ++ bytes, room - bytes.length⟩) := by
  simp only [send, if_pos hAll,
    List.take_of_length_le hAll]

/- Of what does not fit as much is sent as does. -/
theorem send_of_short
    (hShort : room < bytes.length) :
    send ⟨received, room⟩ bytes =
      (.error .streamFull,
        ⟨received ++ bytes.take room, 0⟩) := by
  have hTaken : (bytes.take room).length = room := by
    rw [List.length_take]
    omega
  simp only [send, if_neg (Nat.not_le_of_lt hShort), hTaken,
    Nat.sub_self]

/- To send what fits is to pour it. -/
theorem pours_of_room
    (hAll : bytes.length ≤ room) :
    Pours offer ⟨received, room⟩ bytes (.ok ()) bytes
      ⟨received ++ bytes, room - bytes.length⟩ := by
  by_cases hSome : bytes = []
  · subst hSome
    simpa using Pours.done _
  have hOffer :
      offer ⟨received, room⟩ bytes =
        (.taken bytes.length,
          ⟨received ++ bytes, room - bytes.length⟩) := by
    simp only [offer, List.take_of_length_le hAll]
  have hRest :
      Pours offer
        ⟨received ++ bytes, room - bytes.length⟩
        (bytes.drop bytes.length) (.ok ()) []
        ⟨received ++ bytes, room - bytes.length⟩ := by
    rw [List.drop_length]
    exact Pours.done _
  have hPours :=
    Pours.more (List.length_pos_iff.mpr hSome)
      (Nat.le_refl _) hOffer
      hRest
  rwa [List.take_length, List.append_nil] at hPours

/- To send what does not fit is to pour it, too. -/
theorem pours_of_short
    (hShort : room < bytes.length) :
    Pours offer ⟨received, room⟩ bytes (.error .streamFull)
      (bytes.take room)
      ⟨received ++ bytes.take room, 0⟩ := by
  have hTaken : (bytes.take room).length = room := by
    rw [List.length_take]
    omega
  have hLeft : bytes.drop room ≠ [] := by
    intro hNone
    have hLength := congrArg List.length hNone
    rw [List.length_drop, List.length_nil] at hLength
    omega
  have hOffer :
      offer ⟨received, room⟩ bytes =
        (.taken room,
          ⟨received ++ bytes.take room, 0⟩) := by
    simp only [offer, hTaken, Nat.sub_self]
  -- The rest is offered once more, to a full stream.
  have hFull :
      offer ⟨received ++ bytes.take room, 0⟩
          (bytes.drop room) =
        (.taken 0, ⟨received ++ bytes.take room, 0⟩) := by
    simp [offer]
  rcases Nat.eq_zero_or_pos room with rfl | hPositive
  · simpa using Pours.full hLeft hFull
  have hPours :=
    Pours.more hPositive (Nat.le_of_lt hShort) hOffer
      (Pours.full hLeft hFull)
  rwa [List.append_nil] at hPours

end Stream

namespace Element

variable {element : Element} {start n : Nat}

/- What does not validate is not handed over. -/
theorem handed?_of_invalid
    {failure : Failure}
    (hFailed : element.validate? = some (.error failure)) :
    element.handed? start = some (.error failure.error) := by
  unfold handed?
  rw [hFailed]

/- Nothing is handed over to start elsewhere. -/
theorem handed?_elsewhere
    (hValid : element.validate? = some (.ok n))
    (hStart : start ≠ 0) :
    element.handed? start =
      some (.error .invalidWriteTarget) := by
  unfold handed?
  rw [hValid]
  exact if_pos hStart

/- At the stream's end the encoding is. -/
theorem handed?_zero
    (element : Element) :
    element.handed? 0 = element.encode? := by
  unfold handed?
  split
  next hNone =>
    rw [encode?, encodeWith?, hNone]
    rfl
  next failure hFailed =>
    rw [encode?, encodeWith?, hFailed]
    rfl
  · rfl

/- What is sent is what is handed over. -/
theorem writeTo?_stream
    (element : Element)
    (start : Nat)
    (stream : Stream) :
    element.writeTo? start (.stream stream) =
      match element.handed? start with
      | none => none
      | some (.error error) =>
          some (.error error, .stream stream)
      | some (.ok bytes) =>
          let (sent, after) := stream.send bytes
          some (sent.map fun _ => bytes.length,
            .stream after) := by
  unfold writeTo? handed?
  rcases element.validate? with _ | failure | size
  · rfl
  · rfl
  · cases start with
    | succ start => rfl
    | zero =>
        simp only [put?, send?]
        rcases element.encode? with _ | error | bytes
        · rfl
        · rfl
        · rfl

/-
  Writing to a stream of limited room is one way of writing
  to a stream.
-/
theorem streams_bounded
    {stream : Stream}
    {outcome : Except Error Nat}
    {target : Target}
    (hWrite :
      element.writeTo? start (.stream stream) =
        some (outcome, target)) :
    ∃ taken after, target = .stream after ∧
      after.received = stream.received ++ taken ∧
      element.Streams Stream.offer start stream outcome
        taken after := by
  rcases stream with ⟨received, room⟩
  rw [writeTo?_stream] at hWrite
  unfold Streams
  revert hWrite
  rcases element.handed? start with _ | error | bytes
  · intro hWrite
    cases hWrite
  · intro hWrite
    cases hWrite
    exact
      ⟨[], _, rfl, (List.append_nil _).symm, rfl, rfl, rfl⟩
  · intro hWrite
    dsimp only at hWrite ⊢
    by_cases hAll : bytes.length ≤ room
    · rw [Stream.send_of_room hAll] at hWrite
      cases hWrite
      exact
        ⟨_, _, rfl, rfl, _, Stream.pours_of_room hAll, rfl⟩
    · have hShort := Nat.lt_of_not_le hAll
      rw [Stream.send_of_short hShort] at hWrite
      cases hWrite
      exact
        ⟨_, _, rfl, rfl, _, Stream.pours_of_short hShort,
          rfl⟩

end Element

end BsonView

------------------------------------------------------------
-- Elements To Buffers
------------------------------------------------------------

namespace BsonView

open Grammar

/- A buffer with zeros behind it up to a position. -/
def Bytes.padded
    (dest : Bytes)
    (stop : Nat) : Bytes :=
  dest ++ List.replicate (stop - dest.length) 0

theorem Bytes.length_padded
    (dest : Bytes)
    (stop : Nat) :
    (dest.padded stop).length = max dest.length stop := by
  rw [padded, List.length_append, List.length_replicate]
  omega

/- As far as buffers can reach, zeros are put behind. -/
theorem Bytes.grown?_eq_padded
    {dest : Bytes}
    {stop : Nat}
    (hReach : 2 * stop < positionLimit) :
    dest.grown? stop = some (dest.padded stop) := by
  unfold grown? padded
  rw [if_pos hReach]
  split
  next hThere => simp [Nat.sub_eq_zero_of_le hThere]
  · rfl

/- Why a buffer has no room up to a position. -/
def Bytes.shortage
    (dest : Bytes)
    (stop : Nat) : Error :=
  if positionLimit ≤ stop then .endOfFile
  else .destinationTooSmall stop dest.length

namespace Element

variable {element : Element} {n : Nat}

/-
  An element that is counted is encoded, and fills as much
  room as it was counted with its encoding.
-/
theorem encode?_fills
    (hCounted : element.validate? = some (.ok n))
    (hSmall : n ≤ Word.maxLength) :
    ∃ field, element.Encodes field ∧
      (bodyBytes [field]).length = n ∧
      element.encode? = some (.ok (bodyBytes [field])) ∧
      Written.Fills (fun start => element.write true start n)
        (bodyBytes [field]) := by
  have hValid := validateWith_of_counted hCounted
  rcases write_exact hValid hSmall with
    ⟨field, hField, rfl, _, hFills, _⟩
  refine ⟨field, hField, rfl, ?_, hFills⟩
  have hRoom :
      (List.replicate (bodyBytes [field]).length
          (0 : UInt8)).length =
        (bodyBytes [field]).length :=
    List.length_replicate
  have hWritten :=
    hFills 0 _ (hRoom.symm ▸ lt_positionLimit hSmall)
      (by omega)
  dsimp only at hWritten
  have hEncode :
      encodeWith (.ok (bodyBytes [field]).length)
          (element.write true 0) =
        .ok (bodyBytes [field]) := by
    unfold encodeWith
    simp only [mapError_ok, ok_bind]
    rw [hWritten]
    simp [Bytes.overwrite, pure, Except.pure]
  rw [← hEncode]
  exact
    encodeWith?_keeps hCounted (half_lt_positionLimit hSmall)

/-
  A valid element needs all of its room: where a buffer ends
  before, it is left as it was.
-/
theorem write_short
    {start : Nat}
    {dest : Bytes}
    (hValid : element.validate = .ok n)
    (hShort : dest.length < start + n) :
    element.write true start n dest =
      ⟨.error ((dest.shortage (start + n)).after 0),
        dest⟩ := by
  rcases (measure_eq_ok (Nat.zero_le _)).mp hValid with
    ⟨⟨key, tree⟩, ⟨hKey, hTree⟩, rfl, _⟩
  rcases element with ⟨value⟩
  rcases lead_eq hKey hTree with ⟨hBody, hLength⟩
  have hWrite := write_eq hTree true start
  rw [hBody, ← hLength] at hWrite
  rw [hWrite]
  unfold Write.into Bytes.shortage
  dsimp only
  by_cases hLimit :
      positionLimit ≤
        start + (bodyBytes [⟨key, tree⟩]).length
  · rw [if_pos hLimit, if_pos hLimit]
    rfl
  · rw [if_neg hLimit, if_neg hLimit, if_pos hShort]
    rfl

section

variable
  {bytes dest : Bytes}
  (hCounted : element.validate? = some (.ok bytes.length))
  (hFills :
    Written.Fills
      (fun start => element.write true start bytes.length)
      bytes)

include hCounted hFills

/-
  A part of a buffer is replaced by the encoding, if the
  buffer has the room, or else nothing is.
-/
theorem writeTo?_fixed
    (hAddress : dest.length < positionLimit)
    (start : Nat) :
    element.writeTo? start (.fixed dest) =
      if start + bytes.length ≤ dest.length then
        some (.ok bytes.length,
          .fixed (dest.overwrite start bytes))
      else
        some
          (.error (dest.shortage (start + bytes.length)),
            .fixed dest) := by
  simp only [writeTo?, hCounted, put?]
  split
  next hRoom =>
    have hWritten := hFills start dest hAddress hRoom
    dsimp only at hWritten
    rw [hWritten]
    rfl
  next hRoom =>
    have hValid := validateWith_of_counted hCounted
    rw [write_short hValid (Nat.lt_of_not_le hRoom)]
    rfl

/-
  A buffer that grows is filled up with zeros as far as is
  needed and gets the encoding there, if a buffer can reach
  that far. What is no position is refused.
-/
theorem writeTo?_growing
    (hAddress : dest.Addressable)
    (start : Nat) :
    element.writeTo? start (.growing dest) =
      if 2 * (start + bytes.length) < positionLimit then
        some (.ok bytes.length,
          .growing
            ((dest.padded (start + bytes.length)).overwrite
              start bytes))
      else if start + bytes.length < positionLimit then
        none
      else
        some (.error .endOfFile, .growing dest) := by
  unfold Bytes.Addressable at hAddress
  simp only [writeTo?, hCounted, put?]
  by_cases hReach :
      2 * (start + bytes.length) < positionLimit
  · have hPadded :=
      dest.length_padded (start + bytes.length)
    have hWritten :=
      hFills start (dest.padded (start + bytes.length))
        (by omega) (by omega)
    dsimp only at hWritten
    rw [if_neg (by omega), if_pos hReach,
      Bytes.grown?_eq_padded hReach]
    simp [hWritten, Except.mapError]
  rw [if_neg hReach]
  by_cases hLimit : start + bytes.length < positionLimit
  · have hBehind :
        ¬start + bytes.length ≤ dest.length := by
      omega
    rw [if_neg (by omega), if_pos hLimit, Bytes.grown?,
      if_neg hBehind, if_neg hReach]
    rfl
  · rw [if_pos (Nat.le_of_not_lt hLimit), if_neg hLimit]

end

end Element

end BsonView

------------------------------------------------------------
-- All Targets
------------------------------------------------------------

namespace BsonView

open Grammar

namespace Element

/-
  Nothing is handed to a stream at a place, whatever stream
  it is, and the answer is an error.
-/
def StreamsNothing
    (element : Element)
    (start : Nat)
    (error : Error) : Prop :=
  ∀ (σ : Type) (channel : Channel σ) (state : σ)
      (outcome : Except Error Nat) (taken : Bytes)
      (after : σ),
    element.Streams channel start state outcome taken
        after →
      outcome = .error error ∧ taken = [] ∧ after = state

/-
  No target is changed, wherever the element is to be
  written, and the answer is an error.
-/
structure IsWithheld
    (element : Element)
    (error : Error) : Prop where
  target_eq :
    ∀ (start : Nat) (target : Target),
      element.writeTo? start target =
        some (.error error, target)
  stream_eq :
    ∀ stream : Stream,
      element.send? stream = some (.error error, stream)
  streams : ∀ start, element.StreamsNothing start error

/-
  Every target gets the same bytes and answers how many they
  are: a buffer in place of what was there, if it has the
  room, a buffer that grows behind zeros, if need be and as
  far as buffers can reach, and a stream at its end. If a
  stream fails it has got a part of them; one that takes
  something of whatever it is offered gets all. No buffer
  has more positions than there are.
-/
structure Delivers
    (element : Element)
    (bytes : Bytes) : Prop where
  fixed_eq :
    ∀ dest : Bytes, dest.length < positionLimit →
      ∀ start : Nat,
        element.writeTo? start (.fixed dest) =
          if start + bytes.length ≤ dest.length then
            some (.ok bytes.length,
              .fixed (dest.overwrite start bytes))
          else
            some
              (.error
                (dest.shortage (start + bytes.length)),
                .fixed dest)
  growing_eq :
    ∀ dest : Bytes, dest.Addressable →
      ∀ start : Nat,
        element.writeTo? start (.growing dest) =
          if 2 * (start + bytes.length) < positionLimit then
            some (.ok bytes.length,
              .growing
                ((dest.padded
                    (start + bytes.length)).overwrite start
                  bytes))
          else if
            start + bytes.length < positionLimit then none
          else
            some (.error .endOfFile, .growing dest)
  send_eq :
    ∀ (received : Bytes) (room : Nat),
      element.send? ⟨received, room⟩ =
        if bytes.length ≤ room then
          some (.ok bytes.length,
            ⟨received ++ bytes, room - bytes.length⟩)
        else
          some (.error .streamFull,
            ⟨received ++ bytes.take room, 0⟩)
  stream_eq :
    ∀ stream : Stream,
      element.writeTo? 0 (.stream stream) =
        (element.send? stream).map fun (sent, after) =>
          (sent, .stream after)
  streams :
    ∀ (σ : Type) (channel : Channel σ) (state : σ)
        (outcome : Except Error Nat) (taken : Bytes)
        (after : σ),
      element.Streams channel 0 state outcome taken
          after →
        taken <+: bytes ∧
          (outcome = .ok bytes.length ∧ taken = bytes ∨
            ∃ error, outcome = .error error ∧
              taken.length < bytes.length)
  accepted :
    ∀ (σ : Type) (channel : Channel σ) (state : σ),
      channel.IsWilling →
        ∃ after,
          element.Streams channel 0 state
            (.ok bytes.length) bytes after
  elsewhere :
    ∀ start : Nat, start ≠ 0 →
      element.StreamsNothing start .invalidWriteTarget ∧
        ∀ stream : Stream,
          element.writeTo? start (.stream stream) =
            some (.error .invalidWriteTarget,
              .stream stream)

variable {element : Element} {start n : Nat}

/- Where nothing is handed over no stream gets anything. -/
theorem streamsNothing_of_handed?
    {error : Error}
    (hHanded :
      element.handed? start = some (.error error)) :
    element.StreamsNothing start error := by
  intro σ channel state outcome taken after hStreams
  unfold Streams at hStreams
  rw [hHanded] at hStreams
  exact hStreams

/- An element that does not validate is withheld. -/
theorem isWithheld_of_invalid
    {failure : Failure}
    (hFailed : element.validate? = some (.error failure)) :
    element.IsWithheld failure.error where
  target_eq := by
    intro start target
    simp only [writeTo?, hFailed]
  stream_eq := by
    intro stream
    have hHanded :
        element.handed? 0 = some (.error failure.error) :=
      handed?_of_invalid hFailed
    rw [handed?_zero] at hHanded
    simp only [send?, hHanded]
  streams := by
    intro start
    exact
      streamsNothing_of_handed? (handed?_of_invalid hFailed)

/-
  A stream that an encoding is poured into gets all of it,
  or it fails and has got a part that is not all.
-/
theorem streams_of_encode
    {σ : Type}
    {channel : Channel σ}
    {state after : σ}
    {bytes taken : Bytes}
    {outcome : Except Error Nat}
    (hEncode : element.encode? = some (.ok bytes))
    (hStreams :
      element.Streams channel 0 state outcome taken after) :
    taken <+: bytes ∧
      (outcome = .ok bytes.length ∧ taken = bytes ∨
        ∃ error, outcome = .error error ∧
          taken.length < bytes.length) := by
  unfold Streams at hStreams
  rw [handed?_zero, hEncode] at hStreams
  rcases hStreams with ⟨sent, hPours, rfl⟩
  refine ⟨hPours.taken_prefix, ?_⟩
  cases sent with
  | ok _ => exact .inl ⟨rfl, hPours.taken_eq⟩
  | error error =>
      exact .inr ⟨error, rfl, hPours.taken_short⟩

/- An encoding that fits its fields is delivered. -/
theorem delivers_of_counted
    {bytes : Bytes}
    (hCounted : element.validate? = some (.ok bytes.length))
    (hEncode : element.encode? = some (.ok bytes))
    (hFills :
      Written.Fills
        (fun start => element.write true start bytes.length)
        bytes) :
    element.Delivers bytes where
  fixed_eq := fun _ => writeTo?_fixed hCounted hFills
  growing_eq := fun _ => writeTo?_growing hCounted hFills
  send_eq := by
    intro received room
    simp only [send?, hEncode]
    split
    next hAll =>
      rw [Stream.send_of_room hAll]
      rfl
    next hShort =>
      rw [Stream.send_of_short (Nat.lt_of_not_le hShort)]
      rfl
  stream_eq := by
    intro stream
    simp only [writeTo?, hCounted, put?]
    cases element.send? stream <;> rfl
  streams := by
    intro σ channel state outcome taken after hStreams
    exact streams_of_encode hEncode hStreams
  accepted := by
    intro σ channel state hWilling
    rcases hWilling.pours state bytes with ⟨after, hPours⟩
    refine ⟨after, ?_⟩
    unfold Streams
    rw [handed?_zero, hEncode]
    exact ⟨.ok (), hPours, rfl⟩
  elsewhere := by
    intro start hStart
    have hHanded := handed?_elsewhere hCounted hStart
    refine ⟨streamsNothing_of_handed? hHanded, ?_⟩
    intro stream
    rw [writeTo?_stream, hHanded]

end Element

end BsonView
