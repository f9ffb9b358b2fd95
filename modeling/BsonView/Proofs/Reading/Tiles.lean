import BsonView.Proofs.Reading.Measures

/-
  What reading accepts.

  The splitter tells elements apart by their framing alone.
  The bytes it accepts as a document are those that a length
  field, tiles and a null byte make up, where a tile is a
  type byte, a key with its null byte, and a payload that is
  as long as its framing says. The elements found lie one
  right behind the other and cover all tiles. Whatever is
  valid is accepted.

  Main declarations:
    * `Tile`
    * `Tile.IsWhole`
    * `TiledBy`
    * `Covers`
    * `Span.split_tiles`
    * `Span.tiles_of_split`
    * `Document.read_eq_ok_iff`
    * `reading_accepts_tiled`
-/

------------------------------------------------------------
-- Tiles
------------------------------------------------------------

namespace BsonView

/-
  An element as the splitter tells it apart: its type, its
  key and the bytes of its payload, whatever these are.
-/
structure Tile where
  tag : Tag
  key : Bytes
  payload : Bytes
deriving DecidableEq, Repr

namespace Tile

/- The type byte, the key, a null byte, the payload. -/
def bytes (tile : Tile) : Bytes :=
  tile.tag.byte :: (tile.key ++ 0 :: tile.payload)

/-
  A tile is whole when its key holds no null byte and its
  payload, on its own, is as long as its framing says.
-/
structure IsWhole (tile : Tile) : Prop where
  key : 0 ∉ tile.key
  payload :
    Framing.payloadLengthAt tile.tag tile.payload 0 =
      .ok tile.payload.length

/- Where tiles stand that are laid out one by one. -/
def spans : Nat → List Tile → List Span
| _, [] => []
| pos, tile :: rest =>
    ⟨pos, pos + (tile.key.length + 2)⟩ ::
      spans (pos + tile.bytes.length) rest

@[simp] theorem length_bytes
    (tile : Tile) :
    tile.bytes.length =
      tile.key.length + 2 + tile.payload.length := by
  simp [bytes]
  omega

/- The payload of a whole tile is measured in place. -/
theorem IsWhole.payloadLength
    {tile : Tile}
    {bytes : Bytes}
    (hWhole : tile.IsWhole)
    (hFront : tile.payload <+: bytes) :
    Framing.payloadLength tile.tag bytes =
      .ok tile.payload.length := by
  have hOwn := hWhole.payload
  rw [Framing.payloadLengthAt, if_pos (Nat.zero_le _),
    List.drop_zero] at hOwn
  exact Framing.payloadLength_of_front hFront hOwn

end Tile

/-
  The bytes are a length field with their own length, whole
  tiles, and one null byte. A length field is a signed word.
-/
structure TiledBy
    (data : Bytes)
    (tiles : List Tile) : Prop where
  small : data.length ≤ Word.maxLength
  whole : ∀ tile ∈ tiles, tile.IsWhole
  bytes_eq :
    data =
      Word.ofLength data.length ++
        (tiles.flatMap Tile.bytes ++ [0])

/- The tiles come after the length field. -/
theorem TiledBy.drop_eq
    {data : Bytes}
    {tiles : List Tile}
    (hTiled : TiledBy data tiles) :
    data.drop 4 = tiles.flatMap Tile.bytes ++ [0] := by
  rw [hTiled.bytes_eq]
  exact List.drop_left' (Word.length_ofLength _)

/- They take all but the length field and the null byte. -/
theorem TiledBy.length_eq
    {data : Bytes}
    {tiles : List Tile}
    (hTiled : TiledBy data tiles) :
    data.length =
      4 + ((tiles.flatMap Tile.bytes).length + 1) := by
  have hSizes := congrArg List.length hTiled.bytes_eq
  rw [List.length_append, Word.length_ofLength,
    List.length_append, List.length_singleton] at hSizes
  exact hSizes

/-
  The elements are views of the bytes, not opened, with the
  types, keys and payloads of the tiles. The first begins at
  a position, each of the others where the one before it
  ends, and the last ends at `stop`.
-/
def Covers
    (data : Bytes)
    (stop : Nat) :
    Nat → List Element → List Tile → Prop
| pos, [], [] => pos = stop
| pos, ⟨value⟩ :: rest, tile :: tiles =>
    value.payload = .raw ∧ value.buffer = data ∧
      value.start = pos ∧ value.tag = .ok tile.tag ∧
      value.keyBytes? = some tile.key ∧
      value.payloadBytes = .ok tile.payload ∧
      Covers data stop
        (value.offset + tile.payload.length) rest tiles
| _, _, _ => False

/- Elements cover one list of tiles at most. -/
theorem Covers.unique
    {data : Bytes}
    {stop : Nat} :
    ∀ {pos : Nat} {elements : List Element}
      {a b : List Tile},
      Covers data stop pos elements a →
        Covers data stop pos elements b → a = b
| _, [], [], [], _, _ => rfl
| _, ⟨value⟩ :: rest, ⟨tagA, keyA, payloadA⟩ :: a,
    ⟨tagB, keyB, payloadB⟩ :: b,
    ⟨_, _, _, hTagA, hKeyA, hPayloadA, hA⟩,
    ⟨_, _, _, hTagB, hKeyB, hPayloadB, hB⟩ => by
    cases hTagA.symm.trans hTagB
    cases hKeyA.symm.trans hKeyB
    cases hPayloadA.symm.trans hPayloadB
    rw [Covers.unique hA hB]
| _, [], _ :: _, _, hA, _ => hA.elim
| _, [], _, _ :: _, _, hB => hB.elim
| _, ⟨_⟩ :: _, [], _, hA, _ => hA.elim
| _, ⟨_⟩ :: _, _, [], _, hB => hB.elim

end BsonView

------------------------------------------------------------
-- Splitting
------------------------------------------------------------

namespace BsonView

/- Whole tiles before a null byte are found by splitting. -/
theorem Span.split_tiles
    {tiles : List Tile}
    (hWhole : ∀ tile ∈ tiles, tile.IsWhole)
    (after : Bytes)
    (pos : Nat) :
    split (tiles.flatMap Tile.bytes ++ 0 :: after) pos =
      .ok (Tile.spans pos tiles,
        pos + (tiles.flatMap Tile.bytes).length) := by
  induction tiles generalizing pos with
  | nil =>
      rw [List.flatMap_nil, List.nil_append,
        Span.split.eq_def]
      rfl
  | cons tile rest ih =>
      rcases List.forall_mem_cons.mp hWhole with
        ⟨hTile, hRest⟩
      have hBytes :
          (tile :: rest).flatMap Tile.bytes ++ 0 :: after =
            tile.tag.byte ::
              (tile.key ++ 0 ::
                (tile.payload ++
                  (rest.flatMap Tile.bytes ++
                    0 :: after))) := by
        simp [Tile.bytes]
      have hHeader :
          1 + tile.key.length + 1 =
            tile.key.length + 2 := by omega
      rw [hBytes, Span.split_cons tile.tag.byte_ne_zero,
        Framing.tag_eq_ok.mpr rfl,
        Bytes.cstringLength_terminated hTile.key]
      simp only [mapError_ok, ok_bind]
      rw [Bytes.drop_terminated,
        hTile.payloadLength (List.prefix_append _ _)]
      simp only [ok_bind]
      rw [List.drop_left, ih hRest, hHeader,
        List.flatMap_cons, List.length_append, Tile.spans,
        Tile.length_bytes]
      simp only [ok_bind, Nat.add_assoc]
      rfl

/- Where splitting succeeds there are whole tiles. -/
theorem Span.tiles_of_split
    {bytes : Bytes}
    {pos last : Nat}
    {spans : List Span}
    (hSplit : split bytes pos = .ok (spans, last)) :
    ∃ (tiles : List Tile) (after : Bytes),
      (∀ tile ∈ tiles, tile.IsWhole) ∧
        bytes =
          tiles.flatMap Tile.bytes ++ 0 :: after := by
  fun_induction split bytes pos generalizing spans last with
  | case1 => cases hSplit
  | case2 pos after => exact ⟨[], after, by simp, rfl⟩
  | case3 pos b rest hNull ih =>
      rcases bind_eq_ok.mp hSplit with ⟨tag, hTag, hSplit⟩
      rcases bind_eq_ok.mp hSplit with
        ⟨size, hSize, hSplit⟩
      rcases bind_eq_ok.mp hSplit with
        ⟨length, hLength, hSplit⟩
      rcases bind_eq_ok.mp hSplit with
        ⟨⟨more, stop⟩, hMore, _⟩
      rcases ih size length hMore with
        ⟨tiles, after, hWhole, hRest⟩
      rcases Bytes.cstringLength_eq_ok.mp
          (mapError_eq_ok.mp hSize) with
        ⟨key, behind, rfl, hKey, rfl⟩
      rw [Bytes.drop_terminated] at hLength hRest
      have hThere := Framing.payloadLength_le hLength
      have hOwn := Framing.payloadLength_take hLength
      let tile : Tile := ⟨tag, key, behind.take length⟩
      have hTile : tile.IsWhole := by
        refine ⟨hKey, ?_⟩
        rw [Framing.payloadLengthAt,
          if_pos (Nat.zero_le _), List.drop_zero, hOwn,
          List.length_take_of_le hThere]
      refine ⟨tile :: tiles, after, ?_, ?_⟩
      · exact List.forall_mem_cons.mpr ⟨hTile, hWhole⟩
      · rw [List.flatMap_cons, List.append_assoc, ← hRest,
          Framing.tag_eq_ok.mp hTag]
        simp [tile, Tile.bytes]

end BsonView

------------------------------------------------------------
-- Reading
------------------------------------------------------------

namespace BsonView

/- The elements found where tiles stand cover the tiles. -/
theorem covers_spans
    {data after : Bytes}
    {tiles : List Tile}
    {pos : Nat}
    (hWhole : ∀ tile ∈ tiles, tile.IsWhole)
    (hBytes :
      data.drop pos =
        tiles.flatMap Tile.bytes ++ after) :
    Covers data
      (pos + (tiles.flatMap Tile.bytes).length) pos
      ((Tile.spans pos tiles).map (Element.ofSpan data))
      tiles := by
  induction tiles generalizing pos with
  | nil => rfl
  | cons tile rest ih =>
      rcases List.forall_mem_cons.mp hWhole with
        ⟨hTile, hRest⟩
      rw [List.flatMap_cons, List.append_assoc] at hBytes
      have hFront :
          tile.tag.byte :: (tile.key ++ [0]) ++
              tile.payload <+: data.drop pos := by
        rw [hBytes]
        simp [Tile.bytes]
      rcases Place.of_header
          ⟨data, pos, pos + (tile.key.length + 2)⟩
          hTile.key rfl hFront with
        ⟨hTag, hKey, hPayload⟩
      have hLength := hTile.payloadLength hPayload
      have hNext :
          data.drop (pos + tile.bytes.length) =
            rest.flatMap Tile.bytes ++ after := by
        rw [← List.drop_drop, hBytes, List.drop_left]
      have hEnd :
          pos + (tile.key.length + 2) +
              tile.payload.length =
            pos + tile.bytes.length := by
        rw [Tile.length_bytes]
        omega
      have hCovers := ih hRest hNext
      rw [Nat.add_assoc, ← List.length_append,
        ← List.flatMap_cons] at hCovers
      refine ⟨rfl, rfl, rfl, hTag, hKey, ?_, ?_⟩
      · change
          (Place.mk data pos
            (pos + (tile.key.length + 2))).payloadBytes = _
        unfold Place.payloadBytes
        rw [hTag, ok_bind, hLength, ok_bind]
        exact congrArg Except.ok
          (List.prefix_iff_eq_take.mp hPayload).symm
      · change Covers data _
          (pos + (tile.key.length + 2) +
            tile.payload.length) _ rest
        rw [hEnd]
        exact hCovers

/-
  A document is read out of bytes that are tiled, and has an
  element where each of the tiles stands.
-/
theorem Document.read_eq_ok_iff
    {data : Bytes}
    {doc : Document} :
    read data = .ok doc ↔
      ∃ tiles, TiledBy data tiles ∧
        doc.elements =
          (Tile.spans 4 tiles).map
            (Element.ofSpan data) := by
  constructor
  · intro hRead
    rcases of_read_eq_ok hRead with ⟨hFrom, hLength⟩
    rcases Word.readLength_eq_ok.mp hLength with
      ⟨hSmall, hField⟩
    rcases bind_eq_ok.mp hFrom with ⟨spans, hSpans, hDoc⟩
    cases hDoc
    rcases of_spansFrom_eq_ok hSpans with
      ⟨length, last, hThere, hSplit, hLast⟩
    have hWhole :=
      (Framing.documentLength_eq_ok.mp hThere).1
    rw [List.drop_zero] at hWhole hSplit
    cases hLength.symm.trans hWhole
    rw [List.take_length, Nat.zero_add] at hSplit
    rcases Span.tiles_of_split hSplit with
      ⟨tiles, after, hTiles, hBody⟩
    rw [hBody, Span.split_tiles hTiles] at hSplit
    cases hSplit
    have hSizes := congrArg List.length hBody
    rw [List.length_drop, List.length_append,
      List.length_cons] at hSizes
    have hEnd : after = [] := by
      apply List.eq_nil_of_length_eq_zero
      omega
    rw [hEnd] at hBody
    refine ⟨tiles, ⟨hSmall, hTiles, ?_⟩, rfl⟩
    rcases hField with ⟨body, hBytes⟩
    have hDrop := congrArg (List.drop 4) hBytes
    rw [List.drop_left' (Word.length_ofLength _), hBody]
      at hDrop
    rw [← hDrop, hBytes]
  · intro hExists
    rcases hExists with ⟨tiles, hTiled, hElements⟩
    have hSizes := hTiled.length_eq
    have hLength :
        Word.readLength data = .ok data.length :=
      Word.readLength_eq_ok.mpr
        ⟨hTiled.small, _, hTiled.bytes_eq.symm⟩
    have hSpans :
        spansFrom data 0 = .ok (Tile.spans 4 tiles) := by
      unfold spansFrom
      rw [List.drop_zero, hLength, ok_bind]
      dsimp only
      rw [if_neg (by unfold Framing.emptyLength; omega)]
      simp only [Nat.zero_add, List.take_length]
      rw [hTiled.drop_eq, Span.split_tiles hTiled.whole]
      simp only [ok_bind]
      rw [if_neg (by omega)]
      rfl
    rcases doc with ⟨elements⟩
    cases hElements
    unfold read readFrom
    rw [hSpans, hLength]
    simp only [ok_bind, pure_bind]
    rw [if_neg (by simp)]
    rfl

/- What is read out of tiled bytes covers the tiles. -/
theorem TiledBy.covers
    {data : Bytes}
    {tiles : List Tile}
    (hTiled : TiledBy data tiles) :
    Covers data (data.length - 1) 4
      ((Tile.spans 4 tiles).map (Element.ofSpan data))
      tiles := by
  have hStop :
      data.length - 1 =
        4 + (tiles.flatMap Tile.bytes).length := by
    rw [hTiled.length_eq]
    omega
  rw [hStop]
  exact covers_spans hTiled.whole hTiled.drop_eq

end BsonView

------------------------------------------------------------
-- Acceptance
------------------------------------------------------------

namespace BsonView

open Grammar

/- What is valid, all of it, is read. -/
theorem Document.exists_read_of_valid
    {limits : Limits}
    {data : Bytes}
    (hValid :
      Validation.document limits data 0 0 =
        .ok data.length) :
    ∃ doc, read data = .ok doc := by
  rw [Validation.document_eq_plain, List.drop_zero]
    at hValid
  rcases Validation.Plain.document_eq_ok_iff.mp hValid with
    ⟨fields, hFields, hFront, hLength, _⟩
  have hWhole : documentBytes fields = data :=
    hFront.eq_of_length hLength.symm
  rcases read_show_of_isDocument hFields with
    ⟨doc, hRead, _⟩
  rw [hWhole] at hRead
  exact ⟨doc, hRead⟩

/-
  Bytes are read as a document exactly when they are tiled,
  and they are tiled in one way only. The elements that are
  read cover the tiles, in order and without a gap, from the
  length field to the closing null byte. Bytes that are
  valid, all of them, are read within whatever limits they
  are valid.
-/
theorem reading_accepts_tiled
    (data : Bytes) :
    ((∃ doc, Document.read data = .ok doc) ↔
        ∃ tiles, TiledBy data tiles) ∧
      (∀ a b, TiledBy data a → TiledBy data b → a = b) ∧
      (∀ doc tiles,
        Document.read data = .ok doc →
          TiledBy data tiles →
          Covers data (data.length - 1) 4 doc.elements
            tiles) ∧
      ∀ limits,
        Validation.document limits data 0 0 =
            .ok data.length →
          ∃ doc, Document.read data = .ok doc := by
  have hRead (tiles : List Tile)
      (hTiled : TiledBy data tiles) :
      Document.read data =
        .ok ⟨(Tile.spans 4 tiles).map
          (Element.ofSpan data)⟩ :=
    Document.read_eq_ok_iff.mpr ⟨tiles, hTiled, rfl⟩
  refine ⟨⟨?_, ?_⟩, ?_, ?_, ?_⟩
  · rintro ⟨doc, hDoc⟩
    rcases Document.read_eq_ok_iff.mp hDoc with
      ⟨tiles, hTiled, _⟩
    exact ⟨tiles, hTiled⟩
  · rintro ⟨tiles, hTiled⟩
    exact ⟨_, hRead tiles hTiled⟩
  · intro a b hA hB
    -- Both are covered by the elements that are read.
    have hSame := (hRead a hA).symm.trans (hRead b hB)
    have hElements :=
      congrArg Document.elements (Except.ok.inj hSame)
    dsimp only at hElements
    have hCovers := hA.covers
    rw [hElements] at hCovers
    exact hCovers.unique hB.covers
  · intro doc tiles hDoc hTiled
    cases hDoc.symm.trans (hRead tiles hTiled)
    exact hTiled.covers
  · intro limits hValid
    exact Document.exists_read_of_valid hValid

/- A text, an array that is none inside, and a null. -/
theorem shallow_tiles_are_read :
    let data : Bytes :=
      [25, 0, 0, 0, 2, 97, 0, 2, 0, 0, 0, 120, 0,
        4, 98, 0, 6, 0, 0, 0, 255, 9, 10, 0, 0]
    let tiles : List Tile :=
      [⟨.string, [97], [2, 0, 0, 0, 120, 0]⟩,
        ⟨.array, [98], [6, 0, 0, 0, 255, 9]⟩,
        ⟨.null, [], []⟩]
    TiledBy data tiles ∧
      ∃ doc, Document.read data = .ok doc ∧
        Covers data 24 4 doc.elements tiles := by
  intro data tiles
  have hTiled : TiledBy data tiles := by
    refine ⟨by decide, ?_, by decide⟩
    intro tile hMem
    simp only [tiles, List.mem_cons, List.not_mem_nil,
      or_false] at hMem
    rcases hMem with rfl | rfl | rfl
    · exact ⟨by decide, rfl⟩
    · exact ⟨by decide, rfl⟩
    · exact ⟨by decide, rfl⟩
  rcases reading_accepts_tiled data with
    ⟨hAccepts, _, hCovers, _⟩
  rcases hAccepts.mpr ⟨tiles, hTiled⟩ with ⟨doc, hRead⟩
  exact
    ⟨hTiled, doc, hRead, hCovers doc tiles hRead hTiled⟩

end BsonView
