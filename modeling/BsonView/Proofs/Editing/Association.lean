import BsonView.Proofs.Editing.Positions

/-
  Documents as ordered association lists.

  What a caller sees of a document are rows: a key, if it
  can be read, and what is under it. Any sequence of
  requests is answered as an ordered list of rows answers
  it, and leaves the rows that the list is left with,
  although each value that is set is moved into a buffer of
  its own.

  Main declarations:
    * `Cargo`
    * `Row`
    * `Request`
    * `Reply`
    * `Listing.serve`
    * `Document.serve`
    * `Document.serve_rows`
    * `Document.serveAll_rows`
    * `Document.SetsTo`
    * `document_is_association_list`
-/

------------------------------------------------------------
-- Rows
------------------------------------------------------------

namespace BsonView

/-
  What a value carries wherever it stands: its type, the
  bytes of its payload, and the container that is opened.
-/
structure Cargo where
  tag : Except Error Tag
  bytes : Except Error Bytes
  payload : Payload

/- What is under a key. A row may be without a key. -/
structure Row where
  key? : Option String
  cargo : Cargo

namespace Value

/- What the value carries. -/
def cargo (value : Value) : Cargo where
  tag := value.tag
  bytes := value.payloadBytes
  payload := value.payload

end Value

namespace Element

/- The key that can be read and what is under it. -/
def row (element : Element) : Row where
  key? := element.key?
  cargo := element.value.cargo

end Element

namespace Document

/- The rows of the elements in order. -/
def rows (doc : Document) : List Row :=
  doc.elements.map Element.row

end Document

end BsonView

------------------------------------------------------------
-- Requests
------------------------------------------------------------

namespace BsonView

/-
  What is asked of a list of entries `ε` which have contents
  `ν` under their keys.
-/
inductive Request (ε ν : Type)
| push (entry : ε)
| set (key : String) (content : ν)
| find (key : String)
| get (key : String)
| erase (key : String)

/- What is answered. -/
inductive Reply (ε ν : Type)
| done
| refused (error : Error)
| entry (found : Option ε)
| content (found : Option ν)

section

variable {ε ε' ν ν' σ : Type}

namespace Request

/- The request with other entries and contents. -/
def map
    (entry : ε → ε')
    (content : ν → ν') :
    Request ε ν → Request ε' ν'
| .push e => .push (entry e)
| .set key v => .set key (content v)
| .find key => .find key
| .get key => .get key
| .erase key => .erase key

end Request

namespace Reply

/- The reply with other entries and contents. -/
def map
    (entry : ε → ε')
    (content : ν → ν') :
    Reply ε ν → Reply ε' ν'
| .done => .done
| .refused error => .refused error
| .entry found => .entry (found.map entry)
| .content found => .content (found.map content)

end Reply

/- Serve requests one after the other. -/
def serveAll
    (serve : Request ε ν → σ → Reply ε ν × σ) :
    List (Request ε ν) → σ → List (Reply ε ν) × σ
| [], state => ([], state)
| request :: rest, state =>
    let (reply, next) := serve request state
    let (replies, last) := serveAll serve rest next
    (reply :: replies, last)

end

end BsonView

------------------------------------------------------------
-- The Ordered List
------------------------------------------------------------

namespace BsonView

namespace Listing

/- The first row that has the key. -/
def find
    (key : String)
    (rows : List Row) : Option Row :=
  rows.find? (·.key? == some key)

/-
  The rows with a content under a key: in place of the first
  row that has the key, or else in one more row.
-/
def put
    (key : String)
    (cargo : Cargo) : List Row → List Row
| [] => [⟨some key, cargo⟩]
| first :: rest =>
    if first.key? = some key then
      ⟨some key, cargo⟩ :: rest
    else
      first :: put key cargo rest

/- The rows without the first one that has the key. -/
def erase
    (key : String)
    (rows : List Row) : List Row :=
  rows.eraseP (·.key? == some key)

/- Serve a request. What is refused changes nothing. -/
def serve :
    Request Row Cargo → List Row →
      Reply Row Cargo × List Row
| .push row, rows => (.done, rows ++ [row])
| .set key cargo, rows =>
    if 0 ∈ Bytes.ofText key then
      (.refused .invalidKey, rows)
    else
      match cargo.bytes with
      | .error _ => (.refused .uninitializedValue, rows)
      | .ok _ =>
          (.entry (find key rows), put key cargo rows)
| .find key, rows => (.entry (find key rows), rows)
| .get key, rows =>
    (.content ((find key rows).map Row.cargo), rows)
| .erase key, rows =>
    (.entry (find key rows), erase key rows)

variable {key : String} {rows : List Row}

/- A key that no row has is put at the end. -/
theorem put_of_lacks
    (cargo : Cargo)
    (hLacks : ∀ row ∈ rows, row.key? ≠ some key) :
    put key cargo rows = rows ++ [⟨some key, cargo⟩] := by
  induction rows with
  | nil => rfl
  | cons first rest ih =>
      rcases List.forall_mem_cons.mp hLacks with
        ⟨hFirst, hRest⟩
      rw [put, if_neg hFirst, ih hRest]
      rfl

/- Rows before the first one with the key are kept. -/
theorem put_append
    (cargo : Cargo)
    (hLacks : ∀ row ∈ rows, row.key? ≠ some key)
    (others : List Row) :
    put key cargo (rows ++ others) =
      rows ++ put key cargo others := by
  induction rows with
  | nil => rfl
  | cons first rest ih =>
      rcases List.forall_mem_cons.mp hLacks with
        ⟨hFirst, hRest⟩
      rw [List.cons_append, put, if_neg hFirst, ih hRest]
      rfl

theorem erase_of_lacks
    (hLacks : ∀ row ∈ rows, row.key? ≠ some key) :
    erase key rows = rows := by
  apply List.eraseP_of_forall_not
  intro row hRow
  simpa using hLacks row hRow

/- The first row with the key is erased, and no other. -/
theorem erase_append
    {row : Row}
    (hLacks : ∀ other ∈ rows, other.key? ≠ some key)
    (hKey : row.key? = some key)
    (others : List Row) :
    erase key (rows ++ row :: others) = rows ++ others := by
  have hBefore :
      ∀ other ∈ rows, ¬(other.key? == some key) = true := by
    intro other hOther
    simpa using hLacks other hOther
  have hFirst : (row.key? == some key) = true := by
    simpa using hKey
  rw [erase, List.eraseP_append_right _ hBefore]
  exact
    congrArg (rows ++ ·) (List.eraseP_cons_of_pos hFirst)

end Listing

end BsonView

------------------------------------------------------------
-- The Document As A List
------------------------------------------------------------

namespace BsonView

namespace Document

/- Serve a request. What is refused changes nothing. -/
def serve :
    Request Element Value → Document →
      Reply Element Value × Document
| .push element, doc => (.done, doc.push element)
| .set key value, doc =>
    match doc.set key value with
    | .ok (changed, replaced) => (.entry replaced, changed)
    | .error error => (.refused error, doc)
| .find key, doc => (.entry (doc.find? key), doc)
| .get key, doc => (.content (doc.get? key), doc)
| .erase key, doc =>
    match doc.erase? key with
    | some (changed, erased) => (.entry erased, changed)
    | none => (.entry none, doc)

variable {doc : Document} {key : String}

/- A key that no element has is in no row. -/
theorem Lacks.rows
    (hLacks : doc.Lacks key) :
    ∀ row ∈ doc.rows, row.key? ≠ some key := by
  intro row hRow
  rcases List.mem_map.mp hRow with ⟨element, hElement, rfl⟩
  exact hLacks element hElement

/- The first element with a key is the first row with it. -/
theorem FirstWith.rows
    {before after : List Element}
    {element : Element}
    (hFirst : doc.FirstWith key before element after) :
    doc.rows =
        before.map Element.row ++
          element.row :: after.map Element.row ∧
      ∀ row ∈ before.map Element.row,
        row.key? ≠ some key := by
  refine ⟨?_, ?_⟩
  · rw [Document.rows, hFirst.elements_eq, List.map_append,
      List.map_cons]
  · intro row hRow
    rcases List.mem_map.mp hRow with ⟨other, hOther, rfl⟩
    exact hFirst.before_lacks other hOther

/- What is found is found among the rows. -/
theorem find?_rows
    (doc : Document)
    (key : String) :
    (doc.find? key).map Element.row =
      Listing.find key doc.rows := by
  rw [find?_eq, Listing.find, rows, List.find?_map]
  rfl

/- What is made for a value is its row. -/
theorem row_of_make?
    {value : Value}
    {made : Element}
    (hMake : Element.make? key value = some made) :
    made.row = ⟨some key, value.cargo⟩ := by
  rcases Element.of_make? hMake with
    ⟨hKey, hTag, hBytes, hPayload⟩
  rw [Element.row, Value.cargo, hKey, hTag, hBytes,
    hPayload]
  rfl

/- What is set is put among the rows. -/
theorem rows_of_set
    {value : Value}
    {made : Element}
    (hMake : Element.make? key value = some made)
    (doc : Document) :
    ∃ changed replaced,
      doc.set key value = .ok (changed, replaced) ∧
        replaced = doc.find? key ∧
        changed.rows =
          Listing.put key value.cargo doc.rows := by
  have hMade := row_of_make? hMake
  rcases doc.lacks_or_firstWith key with
    hLacks | ⟨before, element, after, hFirst⟩
  · refine
      ⟨_, _, set_of_lacks hMake hLacks,
        (find?_of_lacks hLacks).symm, ?_⟩
    rw [Listing.put_of_lacks _ hLacks.rows, ← hMade, rows,
      List.map_append]
    rfl
  · refine
      ⟨_, _, set_of_firstWith hMake hFirst,
        (find?_of_firstWith hFirst).symm, ?_⟩
    rcases hFirst.rows with ⟨hRows, hBefore⟩
    have hKey : element.row.key? = some key := hFirst.key_eq
    rw [hRows, Listing.put_append _ hBefore, Listing.put,
      if_pos hKey, ← hMade, rows, List.map_append]
    rfl

/- A value is set, or refused, as the rows do. -/
theorem serve_set_rows
    (doc : Document)
    (key : String)
    (value : Value) :
    Prod.map (Reply.map Element.row Value.cargo) rows
        (serve (.set key value) doc) =
      Listing.serve (.set key value.cargo) doc.rows := by
  rw [serve, Listing.serve]
  by_cases hNull : 0 ∈ Bytes.ofText key
  · rw [set_eq_invalidKey.mpr hNull, if_pos hNull]
    rfl
  rw [if_neg hNull]
  cases hMake : Element.make? key value with
  | none =>
      have hNone :=
        (Element.make?_eq_none.mp hMake).resolve_left hNull
      have hSet :
          doc.set key value = .error .uninitializedValue :=
        set_eq_uninitialized.mpr
          ⟨hNull, Place.unsized_iff.mpr hNone⟩
      rw [hSet]
      cases hBytes : value.cargo.bytes with
      | error error => rfl
      | ok bytes => exact absurd ⟨bytes, hBytes⟩ hNone
  | some made =>
      rcases rows_of_set hMake doc with
        ⟨changed, replaced, hSet, rfl, hRows⟩
      rcases Element.of_make?_eq_some hMake with
        ⟨_, bytes, _, hOwn, _⟩
      have hBytes : value.cargo.bytes = .ok bytes := hOwn
      rw [hSet, hBytes]
      simp only [Prod.map_apply, Reply.map, hRows,
        find?_rows]

/- A key is erased as the rows erase it. -/
theorem serve_erase_rows
    (doc : Document)
    (key : String) :
    Prod.map (Reply.map Element.row Value.cargo) rows
        (serve (.erase key) doc) =
      Listing.serve (.erase key) doc.rows := by
  rw [serve, Listing.serve, ← find?_rows]
  rcases doc.lacks_or_firstWith key with
    hLacks | ⟨before, element, after, hFirst⟩
  · rw [erase?_of_lacks hLacks, find?_of_lacks hLacks,
      Listing.erase_of_lacks hLacks.rows]
    rfl
  · rcases hFirst.rows with ⟨hRows, hBefore⟩
    rw [erase?_of_firstWith hFirst,
      find?_of_firstWith hFirst, hRows,
      Listing.erase_append hBefore hFirst.key_eq,
      ← List.map_append]
    rfl

/- Any request is served as the rows serve it. -/
theorem serve_rows
    (doc : Document)
    (request : Request Element Value) :
    Prod.map (Reply.map Element.row Value.cargo) rows
        (serve request doc) =
      Listing.serve
        (request.map Element.row Value.cargo) doc.rows := by
  cases request with
  | push element =>
      simp [serve, Listing.serve, Request.map, Reply.map,
        rows, push]
  | find key =>
      simp [serve, Listing.serve, Request.map, Reply.map,
        find?_rows]
  | get key =>
      simp only [serve, Listing.serve, Request.map,
        Prod.map_apply, Reply.map, ← find?_rows, get?,
        Option.map_map]
      rfl
  | set key value => exact serve_set_rows doc key value
  | erase key => exact serve_erase_rows doc key

/- So is any sequence of requests. -/
theorem serveAll_rows
    (doc : Document)
    (requests : List (Request Element Value)) :
    Prod.map (List.map (Reply.map Element.row Value.cargo))
        rows (serveAll serve requests doc) =
      serveAll Listing.serve
        (requests.map (Request.map Element.row Value.cargo))
        doc.rows := by
  induction requests generalizing doc with
  | nil => rfl
  | cons request rest ih =>
      rw [List.map_cons, serveAll, serveAll, ← serve_rows]
      simp only [Prod.map_apply, Prod.map_fst, Prod.map_snd,
        List.map_cons, ← ih]

end Document

end BsonView

------------------------------------------------------------
-- What Requests Do
------------------------------------------------------------

namespace BsonView

namespace Document

/-
  The value has been set under the key: in place of the
  first element with that key, which is answered, or else at
  the end. The key now gets what the value carries, and
  every other key finds what it found.
-/
structure SetsTo
    (doc : Document)
    (key : String)
    (value : Value)
    (changed : Document)
    (replaced : Option Element) : Prop where
  set_eq : doc.set key value = .ok (changed, replaced)
  placed :
    ∃ made : Element, made.row = ⟨some key, value.cargo⟩ ∧
      ((doc.Lacks key ∧ replaced = none ∧
          changed.elements = doc.elements ++ [made]) ∨
        ∃ before element after,
          doc.FirstWith key before element after ∧
            replaced = some element ∧
            changed.elements = before ++ made :: after)
  get_eq :
    (changed.get? key).map Value.cargo = some value.cargo
  find_others :
    ∀ other, other ≠ key →
      changed.find? other = doc.find? other

variable {doc changed : Document} {key : String}

/-
  An element that stands for others with its key, or for
  none, is found in their place, and no other key sees it.
-/
theorem find?_of_exchange
    {before replaced after : List Element}
    {made : Element}
    (hElements :
      doc.elements = before ++ (replaced ++ after))
    (hChanged :
      changed.elements = before ++ made :: after)
    (hKey : made.key? = some key)
    (hBefore : ∀ e ∈ before, e.key? ≠ some key)
    (hReplaced : ∀ e ∈ replaced, e.key? = some key) :
    changed.find? key = some made ∧
      ∀ other, other ≠ key →
        changed.find? other = doc.find? other := by
  refine ⟨?_, ?_⟩
  · have hNone :
        before.find? (·.key? == some key) = none := by
      rw [List.find?_eq_none]
      intro e hMem
      simpa using hBefore e hMem
    rw [find?_eq, hChanged, List.find?_append, hNone]
    simp [hKey]
  · intro other hOther
    have hSkipped :
        replaced.find? (·.key? == some other) = none := by
      rw [List.find?_eq_none]
      intro e hMem
      simp [hReplaced e hMem, hOther.symm]
    have hMade : (made.key? == some other) = false := by
      simp [hKey, hOther.symm]
    rw [find?_eq, find?_eq, hElements, hChanged,
      List.find?_append, List.find?_append,
      List.find?_append, hSkipped, List.find?_cons, hMade]
    rfl

/- A value that an element can be made for is set. -/
theorem setsTo_of_make?
    {value : Value}
    {made : Element}
    (hMake : Element.make? key value = some made)
    (doc : Document) :
    ∃ changed replaced,
      doc.SetsTo key value changed replaced := by
  have hRow := row_of_make? hMake
  have hKey : made.key? = some key := congrArg Row.key? hRow
  have hGet :
      ∀ changed : Document, changed.find? key = some made →
        (changed.get? key).map Value.cargo =
          some value.cargo := by
    intro changed hFound
    rw [get?, hFound]
    exact congrArg (some ∘ Row.cargo) hRow
  rcases doc.lacks_or_firstWith key with
    hLacks | ⟨before, element, after, hFirst⟩
  · have hElements :
        doc.elements = doc.elements ++ ([] ++ []) := by
      simp
    have hChanged :
        (⟨doc.elements ++ [made]⟩ : Document).elements =
          doc.elements ++ made :: [] := rfl
    rcases find?_of_exchange hElements hChanged hKey hLacks
        (by simp) with ⟨hFound, hOthers⟩
    exact
      ⟨_, _, set_of_lacks hMake hLacks,
        ⟨made, hRow, .inl ⟨hLacks, rfl, rfl⟩⟩,
        hGet _ hFound, hOthers⟩
  · have hElements :
        doc.elements = before ++ ([element] ++ after) :=
      hFirst.elements_eq
    have hChanged :
        (⟨before ++ made :: after⟩ : Document).elements =
          before ++ made :: after := rfl
    have hReplaced :
        ∀ e ∈ [element], e.key? = some key := by
      intro e hMem
      rw [List.mem_singleton.mp hMem]
      exact hFirst.key_eq
    rcases find?_of_exchange hElements hChanged hKey
        hFirst.before_lacks hReplaced with
      ⟨hFound, hOthers⟩
    exact
      ⟨_, _, set_of_firstWith hMake hFirst,
        ⟨made, hRow,
          .inr ⟨before, element, after, hFirst, rfl, rfl⟩⟩,
        hGet _ hFound, hOthers⟩

end Document

/-
  A document is an ordered association list. Its requests
  are answered as those of its rows, one after the other.
  Setting a value is refused for a key with a null byte, and
  else for a value without a length; otherwise it changes
  what is under that key and nothing else. The first element
  with a key is the one that is found and erased.
-/
theorem document_is_association_list
    (doc : Document) :
    (∀ requests,
      Prod.map
          (List.map (Reply.map Element.row Value.cargo))
          Document.rows
          (serveAll Document.serve requests doc) =
        serveAll Listing.serve
          (requests.map
            (Request.map Element.row Value.cargo))
          doc.rows) ∧
    (∀ key value,
      (doc.set key value = .error .invalidKey ↔
        0 ∈ Bytes.ofText key) ∧
      (doc.set key value = .error .uninitializedValue ↔
        0 ∉ Bytes.ofText key ∧ value.Unsized) ∧
      (0 ∉ Bytes.ofText key → ¬value.Unsized →
        ∃ changed replaced,
          doc.SetsTo key value changed replaced)) ∧
    ∀ key,
      (doc.Lacks key ∧ doc.find? key = none ∧
        doc.erase? key = none) ∨
      ∃ before element after,
        doc.FirstWith key before element after ∧
          doc.find? key = some element ∧
          doc.erase? key =
            some (⟨before ++ after⟩, element) := by
  refine ⟨doc.serveAll_rows, ?_, ?_⟩
  · intro key value
    refine
      ⟨Document.set_eq_invalidKey,
        Document.set_eq_uninitialized, ?_⟩
    intro hKey hSized
    cases hMake : Element.make? key value with
    | none =>
        have hNone :=
          (Element.make?_eq_none.mp hMake).resolve_left hKey
        exact absurd (Place.unsized_iff.mpr hNone) hSized
    | some made => exact doc.setsTo_of_make? hMake
  · intro key
    rcases doc.lacks_or_firstWith key with
      hLacks | ⟨before, element, after, hFirst⟩
    · exact
        .inl
          ⟨hLacks, Document.find?_of_lacks hLacks,
            Document.erase?_of_lacks hLacks⟩
    · exact
        .inr
          ⟨before, element, after, hFirst,
            Document.find?_of_firstWith hFirst,
            Document.erase?_of_firstWith hFirst⟩

/-
  Setting a key that stands twice, after an element whose
  key cannot be read, changes the first of the two.
-/
theorem repeated_key_sets_the_first :
    ∃ unread first second changed replaced,
      Document.FirstWith ⟨[unread, first, second]⟩ "k"
          [unread] first [second] ∧
        Document.SetsTo ⟨[unread, first, second]⟩ "k"
          (.ofScalar (.boolean true)) changed replaced := by
  let unread : Element := ⟨⟨⟨[8, 255, 0, 1], 0, 3⟩, .raw⟩⟩
  let first : Element := ⟨⟨⟨[8, 107, 0, 0], 0, 3⟩, .raw⟩⟩
  let second : Element := ⟨⟨⟨[10, 107, 0], 0, 3⟩, .raw⟩⟩
  have hFirst :
      Document.FirstWith ⟨[unread, first, second]⟩ "k"
        [unread] first [second] := by
    have hKey : first.key? = some "k" := by decide +kernel
    have hUnread : unread.key? = none := by decide +kernel
    refine ⟨rfl, hKey, ?_⟩
    intro other hOther
    rw [List.mem_singleton.mp hOther, hUnread]
    exact nofun
  have hSized :
      ¬Place.Unsized
        (Value.ofScalar (.boolean true)).toPlace :=
    fun hNone =>
      Place.unsized_iff.mp hNone ⟨[1], rfl⟩
  rcases (document_is_association_list
      ⟨[unread, first, second]⟩).2.1 "k"
      (.ofScalar (.boolean true)) with ⟨_, _, hSet⟩
  rcases hSet (by decide) hSized with
    ⟨changed, replaced, hChanged⟩
  exact
    ⟨unread, first, second, changed, replaced, hFirst,
      hChanged⟩

end BsonView
