import LightOss.ByteText
import LightOss.CatalogSpecs
import LightOss.Decimal
import LightOss.Keyset
import LightOss.ObjectKeys
import LightOss.ObjectServices
import Mathlib.Data.Prod.Lex

/-! # Object listing — the pages of `List` and the cursor between them

    The newest objects come first, and of two created at once the one with the
    higher id.  A page that is not the last hands out the place of its last row as
    text; the next request reads it back.

    The cursor round trip (`decodeCursor_encodeCursor`) makes one page of the service
    one keyset page (`listPage_eq`) and a traversal a keyset walk (`follow_eq`); what a
    walk returns is known of any table.  Between the pages rows come, change and go: a
    statement keeps every id with its row and moves no row back, unless it overwrites
    with an older time (`ObjectStatement.later`, `later_of_run`), and then no row is
    returned twice (`returned_of_follow`). -/

namespace ObjectListing

open ByteText Decimal KeyedTable Fallible LedgerRows Catalog CatalogSpecs Validation ObjectKeys
open ObjectServices MetadataServices

variable {k : Collation}

/-! ## The cursor -/

/-- `ObjectListCursor`: the place of the last row of a page. -/
structure Cursor where
  createdAt : Time
  id : Nat
  deriving DecidableEq

/-- `UnixNano`: an instant beyond the range of `int64` wraps around. -/
def unixNano (t : Time) : Int := t.bmod (2 ^ 64)

/-- `encodeCursor`: nanoseconds and id around a bar, in URL-safe base64. -/
def encodeCursor (createdAt : Time) (id : Nat) : String :=
  let raw := printInt (unixNano createdAt) ++ '|' :: printNat id
  String.ofList (encodeBase64 (encodeUtf8 raw))

/-- The one error of `decodeCursor`. -/
def invalidCursor : Err := .errorf "invalid cursor"

/-- `strconv.ParseInt(s, 10, 64)`. -/
def parseInt64 (text : List Char) : Except Err Int :=
  match parseSigned text with
  | some n => if -2 ^ 63 ≤ n ∧ n < 2 ^ 63 then .ok n else .error invalidCursor
  | none => .error invalidCursor

/-- `strconv.ParseUint(s, 10, 64)`. -/
def parseUint64 (text : List Char) : Except Err Nat :=
  match if text = [] then none else parseDigits text with
  | some n => if n < 2 ^ 64 then .ok n else .error invalidCursor
  | none => .error invalidCursor

/-- No cursor for a blank text. -/
def decodeCursor (value : String) : Except Err (Option Cursor) :=
  if trimSpace value = "" then .ok none
  else do
    let raw ← orElseThrow (decodeBase64 value.toList) invalidCursor
    match (decodeUtf8 raw).splitOn '|' with
    | [createdAt, id] => do
        let nanos ← parseInt64 createdAt
        let id ← parseUint64 id
        return some { createdAt := nanos, id := id }
    | _ => .error invalidCursor

/-! ## The pages -/

/-- The limit when the request names none. -/
def defaultListLimit : Int := 20

/-- The largest page. -/
def maxListLimit : Int := 100

/-- `(created_at < ?) OR (created_at = ? AND id < ?)`. -/
def beforeCursor (cursor : Option Cursor) (o : Object) : Bool :=
  match cursor with
  | none => true
  | some cursor =>
      decide (o.createdAt < cursor.createdAt ∨ (o.createdAt = cursor.createdAt ∧ o.id < cursor.id))

/-- The objects that a listing of the bucket under the prefix is about. -/
def matching (c : Tables k) (bucketName pfx : String) : List Object :=
  c.objects.select fun o => k.eq o.bucketName bucketName && prefixFilter k pfx o

/-- `ORDER BY created_at DESC, id DESC`. -/
def newestFirst (a b : Object) : Bool :=
  decide (b.createdAt < a.createdAt ∨ (b.createdAt = a.createdAt ∧ b.id ≤ a.id))

/-- `ObjectRepository.ListActive`. -/
def listActive (c : Tables k) (bucketName pfx : String) (limit : Nat) (cursor : Option Cursor) :
    List Object :=
  (((matching c bucketName pfx).filter (beforeCursor cursor)).mergeSort newestFirst).take limit

structure ListObjectsInput where
  bucketName : String
  pfx : String
  limit : Int
  cursor : String

structure ListObjectsOutput where
  items : List Object
  nextCursor : String

/-- The part of `List` behind its checks: one row more than the page tells whether
    another page follows. -/
def listPage (c : Tables k) (bucketName pfx : String) (limit : Nat) (cursor : String) :
    Except Err ListObjectsOutput := do
  let cursor ← (decodeCursor cursor).mapError fun _ =>
    .app 400 "invalid_cursor" "cursor is invalid"
  let objects := listActive c bucketName pfx (limit + 1) cursor
  if limit < objects.length then
    let nextCursor := match objects[limit - 1]? with
      | some last => encodeCursor last.createdAt last.id
      | none => ""
    return { items := objects.take limit, nextCursor := nextCursor }
  else return { items := objects, nextCursor := "" }

/-- `ObjectService.List`. -/
def list (c : Tables k) (input : ListObjectsInput) : Except Err ListObjectsOutput := do
  validateBucketName input.bucketName
  validatePrefix input.pfx
  ensureBucketExists c input.bucketName
  let limit := if input.limit = 0 then defaultListLimit else input.limit
  ensure (1 ≤ limit ∧ limit ≤ maxListLimit)
    (.app 400 "invalid_request" "limit must be between 1 and 100")
  listPage c input.bucketName input.pfx limit.toNat input.cursor

/-- The pages of one traversal and the cursor to ask with next, unless it has ended. -/
structure Traversal where
  pages : List (List Object)
  pending : Option String

/-- Following the cursors; each request finds the tables in the state they are in then. -/
def follow (bucketName pfx : String) (limit : Nat) :
    List (Tables k) → String → Except Err Traversal
  | [], cursor => .ok { pages := [], pending := some cursor }
  | c :: rest, cursor => do
      let output ← listPage c bucketName pfx limit cursor
      if output.nextCursor = "" then return { pages := [output.items], pending := none }
      else do
        let traversal ← follow bucketName pfx limit rest output.nextCursor
        return { traversal with pages := output.items :: traversal.pages }

/-! ## The cursor round trip -/

/-- The values a cursor can carry: `int64` nanoseconds and a `BIGINT UNSIGNED`. -/
def Representable (createdAt : Time) (id : Nat) : Prop :=
  -2 ^ 63 ≤ createdAt ∧ createdAt < 2 ^ 63 ∧ id < 2 ^ 64

theorem unixNano_eq {t : Time} (hlow : -2 ^ 63 ≤ t) (hhigh : t < 2 ^ 63) : unixNano t = t := by
  refine Int.bmod_eq_of_le ?_ ?_
  · norm_num at hlow ⊢
    exact hlow
  · norm_num at hhigh ⊢
    exact hhigh

/-- A number within range is read back from its digits. -/
theorem parseInt64_printInt {n : Int} (hlow : -2 ^ 63 ≤ n) (hhigh : n < 2 ^ 63) :
    parseInt64 (printInt n) = .ok n := by
  rw [parseInt64, parseSigned_printInt]
  exact if_pos ⟨hlow, hhigh⟩

theorem parseUint64_printNat {n : Nat} (h : n < 2 ^ 64) : parseUint64 (printNat n) = .ok n := by
  obtain ⟨c, rest, hcons, -⟩ := printNat_cons n
  have hne : printNat n ≠ [] := by
    rw [hcons]
    exact List.cons_ne_nil c rest
  rw [parseUint64, if_neg hne, parseDigits_printNat]
  exact if_pos h

theorem not_bar_of_digit {c : Char} (h : isDigit c = true) : c ≠ '|' := by
  rintro rfl
  exact absurd h (by decide)

/-- A printed number has no bar, so the text is cut where it was joined. -/
theorem bar_not_mem_printInt (n : Int) : '|' ∉ printInt n := by
  intro hc
  rcases mem_printInt hc with hc | hc
  · exact absurd hc (by decide)
  · exact not_bar_of_digit hc rfl

/-- No symbol is white space. -/
theorem encodeBase64_visible {bytes : List UInt8} (h : bytes ≠ []) :
    trimSpace (String.ofList (encodeBase64 bytes)) ≠ "" := by
  obtain ⟨c, hc⟩ := List.exists_mem_of_ne_nil _ (encodeBase64_ne_nil h)
  refine trimSpace_ne_empty.mpr ⟨c, ?_, ?_⟩
  · rw [String.toList_ofList]
    exact hc
  · obtain ⟨n, -, rfl⟩ := List.mem_map.mp hc
    have hspace : ∀ c ∈ alphabet, isSpace c = false := forall_chars (by decide)
    exact hspace _ (symbol_mem n)

/-- A cursor is never blank. -/
theorem encodeCursor_visible (createdAt : Time) (id : Nat) :
    trimSpace (encodeCursor createdAt id) ≠ "" := by
  refine encodeBase64_visible ?_
  rw [encodeUtf8, List.flatMap_append, List.flatMap_cons]
  exact List.append_ne_nil_of_right_ne_nil _ (List.append_ne_nil_of_left_ne_nil (by decide) _)

/-- The text of a cursor is never the empty one, which asks for the first page. -/
theorem encodeCursor_ne_empty (createdAt : Time) (id : Nat) : encodeCursor createdAt id ≠ "" := by
  intro hempty
  refine encodeCursor_visible createdAt id ?_
  rw [hempty]
  decide

/-- **The cursor** reads back as the pair it was made of. -/
theorem decodeCursor_encodeCursor {createdAt : Time} {id : Nat} (h : Representable createdAt id) :
    decodeCursor (encodeCursor createdAt id) = .ok (some { createdAt := createdAt, id := id }) := by
  obtain ⟨hlow, hhigh, hid⟩ := h
  have hsplit : (printInt createdAt ++ '|' :: printNat id).splitOn '|'
      = [printInt createdAt, printNat id] := by
    have hfree : '|' ∉ printNat id := fun hc => not_bar_of_digit (isDigit_printNat _ _ hc) rfl
    rw [List.splitOn_append_cons_self, List.splitOn_eq_singleton (bar_not_mem_printInt _),
      List.splitOn_eq_singleton hfree]
    rfl
  rw [decodeCursor, if_neg (encodeCursor_visible createdAt id), encodeCursor, String.toList_ofList,
    decodeBase64_encodeBase64, unixNano_eq hlow hhigh]
  refine bind_eq_ok.mpr ⟨_, rfl, ?_⟩
  rw [decodeUtf8_encodeUtf8, hsplit]
  refine bind_eq_ok.mpr ⟨createdAt, parseInt64_printInt hlow hhigh, ?_⟩
  exact bind_eq_ok.mpr ⟨id, parseUint64_printNat hid, rfl⟩

/-! ## The pages are keyset pages -/

/-- The place of an object in the listing. -/
def place (o : Object) : (Lex (Time × Nat))ᵒᵈ := OrderDual.toDual (toLex (o.createdAt, o.id))

/-- One row comes before another when it is newer, or as new with a higher id. -/
theorem place_lt {a b : Object} :
    place a < place b ↔ b.createdAt < a.createdAt ∨ (b.createdAt = a.createdAt ∧ b.id < a.id) := by
  rw [place, place, OrderDual.toDual_lt_toDual, Prod.Lex.toLex_lt_toLex]

theorem place_le {a b : Object} :
    place a ≤ place b ↔ b.createdAt < a.createdAt ∨ (b.createdAt = a.createdAt ∧ b.id ≤ a.id) := by
  rw [place, place, OrderDual.toDual_le_toDual, Prod.Lex.toLex_le_toLex]

/-- What a cursor says to the listing. -/
def Cursor.start (cursor : Option Cursor) : Option (Lex (Time × Nat))ᵒᵈ :=
  cursor.map fun c => OrderDual.toDual (toLex (c.createdAt, c.id))

/-- The `WHERE` clause of a later page is standing behind the cursor. -/
theorem beforeCursor_eq (cursor : Option Cursor) :
    beforeCursor cursor = Keyset.behind place (Cursor.start cursor) := by
  funext o
  cases cursor with
  | none => rfl
  | some cursor =>
      rw [beforeCursor, Bool.eq_iff_iff, decide_eq_true_iff]
      refine Iff.trans ?_ Keyset.behind_some.symm
      rw [place, OrderDual.toDual_lt_toDual, Prod.Lex.toLex_lt_toLex]

/-- The `ORDER BY` clause is the order of the places. -/
theorem newestFirst_eq : newestFirst = Keyset.inOrder place := by
  funext a b
  rw [newestFirst, Keyset.inOrder, Bool.eq_iff_iff, decide_eq_true_iff,
    decide_eq_true_iff, place_le]

/-- **The query of a page** is the general keyset query. -/
theorem listActive_eq (c : Tables k) (bucketName pfx : String) (limit : Nat)
    (cursor : Option Cursor) :
    listActive c bucketName pfx limit cursor
      = (Keyset.candidates place (Cursor.start cursor) (matching c bucketName pfx)).take limit := by
  rw [listActive, Keyset.candidates, beforeCursor_eq, newestFirst_eq]

/-- Rows of the table have distinct places: their ids differ. -/
theorem places_nodup (c : Tables k) (bucketName pfx : String) :
    ((matching c bucketName pfx).map place).Nodup := by
  refine List.Nodup.map_on (fun a ha b hb hplace => ?_) (c.objects.rows_nodup.filter _)
  have hid : a.id = b.id := by
    have hpair := toLex.injective (OrderDual.toDual.injective hplace)
    exact (Prod.mk.inj hpair).2
  refine c.objects.eq_of_clash (List.mem_filter.mp ha).1 (List.mem_filter.mp hb).1 ?_
  rw [Object.clash, hid, beq_self_eq_true, Bool.true_or]

/-- The rows of the listing have places that a cursor can carry. -/
def AllRepresentable (c : Tables k) : Prop :=
  ∀ o ∈ c.objects.rows, Representable o.createdAt o.id

/-- The text a request is made with. -/
def cursorText (start : Option Cursor) : String :=
  match start with
  | none => ""
  | some cursor => encodeCursor cursor.createdAt cursor.id

/-- The next request's cursor as a value. -/
def nextStart (next : Option (Lex (Time × Nat))ᵒᵈ) : Option Cursor :=
  next.map fun k =>
    { createdAt := (ofLex (OrderDual.ofDual k)).1, id := (ofLex (OrderDual.ofDual k)).2 }

/-- **One page** of the service is one keyset page. -/
theorem listPage_eq (c : Tables k) (bucketName pfx : String) {limit : Nat} (hlimit : 0 < limit)
    {cursor : String} {start : Option Cursor} (hcursor : decodeCursor cursor = .ok start) :
    listPage c bucketName pfx limit cursor = .ok {
      items := (Keyset.page place limit (Cursor.start start) (matching c bucketName pfx)).items
      nextCursor := cursorText (nextStart
        (Keyset.page place limit (Cursor.start start) (matching c bucketName pfx)).next) } := by
  rw [listPage]
  refine bind_eq_ok.mpr ⟨start, mapError_eq_ok.mpr hcursor, ?_⟩
  dsimp only
  rw [listActive_eq, Keyset.page]
  generalize Keyset.candidates place (Cursor.start start) (matching c bucketName pfx) = rows
  have hlength : (rows.take (limit + 1)).length = min (limit + 1) rows.length := List.length_take
  by_cases hmore : limit < rows.length
  · have htake : (rows.take (limit + 1)).take limit = rows.take limit := by
      rw [List.take_take, Nat.min_eq_left (Nat.le_succ limit)]
    have hlast : (rows.take (limit + 1))[limit - 1]? = (rows.take limit).getLast? := by
      rw [List.getLast?_eq_getElem?, List.length_take, Nat.min_eq_left hmore.le,
        List.getElem?_take_of_lt (by omega), List.getElem?_take_of_lt (by omega)]
    rw [if_pos (by omega), if_pos hmore, htake, hlast]
    cases (rows.take limit).getLast? with
    | none => rfl
    | some last => rfl
  · rw [if_neg (by omega), if_neg hmore, List.take_of_length_le (by omega),
      List.take_of_length_le (by omega)]
    rfl

/-- The cursor a page hands out is read back as the same place. -/
theorem decodeCursor_cursorText {start : Option Cursor}
    (h : ∀ cursor, start = some cursor → Representable cursor.createdAt cursor.id) :
    decodeCursor (cursorText start) = .ok start := by
  cases start with
  | none => exact if_pos (by decide)
  | some cursor => exact decodeCursor_encodeCursor (h cursor rfl)

/-- A place survives the way over a cursor. -/
theorem start_nextStart (next : Option (Lex (Time × Nat))ᵒᵈ) :
    Cursor.start (nextStart next) = next := by
  cases next <;> rfl

/-- The traversal took the same way as the walk. -/
structure SameWay (traversal : Traversal) (walk : Keyset.Walk Object (Lex (Time × Nat))ᵒᵈ) :
    Prop where
  pages : traversal.pages = walk.pages
  ended : walk.pending = none → traversal.pending = none
  pending : ∀ next, walk.pending = some next → ∃ text start, traversal.pending = some text
    ∧ decodeCursor text = .ok start ∧ Cursor.start start = next

/-- **Following the cursors** is a keyset walk over the matching rows of each request. -/
theorem follow_eq (bucketName pfx : String) {limit : Nat} (hlimit : 0 < limit) :
    ∀ (tables : List (Tables k)) (cursor : String) (start : Option Cursor),
      (∀ c ∈ tables, AllRepresentable c) → decodeCursor cursor = .ok start →
      ∃ traversal, follow bucketName pfx limit tables cursor = .ok traversal
        ∧ SameWay traversal (Keyset.walk place limit
            (tables.map fun c => matching c bucketName pfx) (Cursor.start start)) := by
  intro tables
  induction tables with
  | nil =>
      intro cursor start _ hcursor
      refine ⟨_, rfl, rfl, (fun h => by cases h), ?_⟩
      rintro next ⟨⟩
      exact ⟨cursor, start, rfl, hcursor, rfl⟩
  | cons c rest ih =>
      intro cursor start htables hcursor
      obtain ⟨hrange, hrest⟩ := List.forall_mem_cons.mp htables
      have hpage := listPage_eq c bucketName pfx hlimit hcursor
      rw [follow, List.map_cons, Keyset.walk]
      cases hnext :
          (Keyset.page place limit (Cursor.start start) (matching c bucketName pfx)).next with
      -- the last page: the walk ends as well
      | none =>
          rw [hnext] at hpage
          refine ⟨_, bind_eq_ok.mpr ⟨_, hpage, if_pos rfl⟩, rfl, fun _ => rfl,
            (fun _ h => by cases h)⟩
      | some next =>
          rw [hnext] at hpage
          -- the cursor is the place of a row, so it can be read back
          obtain ⟨⟨front, last, hitems, rfl⟩, -⟩ :=
            Keyset.next_some (places_nodup c bucketName pfx) hnext
          have hlast : last ∈ c.objects.rows := by
            have hmem : last ∈ (Keyset.page place limit (Cursor.start start)
                (matching c bucketName pfx)).items := by
              rw [hitems]
              exact List.mem_append_right _ List.mem_cons_self
            exact (List.mem_filter.mp (Keyset.mem_items hmem).1).1
          have hback : decodeCursor (cursorText (nextStart (some (place last))))
              = .ok (nextStart (some (place last))) := by
            refine decodeCursor_cursorText ?_
            rintro _ ⟨⟩
            exact hrange last hlast
          obtain ⟨traversal, hfollow, hway⟩ := ih _ _ hrest hback
          let items :=
            (Keyset.page place limit (Cursor.start start) (matching c bucketName pfx)).items
          refine ⟨{ traversal with pages := items :: traversal.pages },
            bind_eq_ok.mpr ⟨_, hpage, ?_⟩, ?_⟩
          · have hne : cursorText (nextStart (some (place last))) ≠ "" := encodeCursor_ne_empty _ _
            refine (if_neg hne).trans ?_
            exact bind_eq_ok.mpr ⟨traversal, hfollow, rfl⟩
          · rw [start_nextStart] at hway
            exact ⟨congrArg _ hway.pages, hway.ended, hway.pending⟩

/-! ## Mutations between the pages -/

/-- The statements that insert, overwrite, change or delete object rows. -/
inductive ObjectStatement where
  | create (object : Object) (now : Time)
  | upsertRow (object : Object) (now : Time)
  | insert (object : Object)
  | hardDeleteByIDs (ids : List Nat)
  | hardDeleteByBucket (bucketName : String)
  | updateVisibility (bucketName objectKey : String) (visibility : Visibility) (now : Time)

/-- What a statement does to the tables. -/
def ObjectStatement.run (c : Tables k) : ObjectStatement → Except Err (Tables k)
  | .create object now => Catalog.create c object now
  | .upsertRow object now => Catalog.upsertRow now c object
  | .insert object => insertObject c object
  | .hardDeleteByIDs ids => .ok (Catalog.hardDeleteByIDs c ids).2
  | .hardDeleteByBucket bucketName => .ok (Catalog.hardDeleteByBucket c bucketName)
  | .updateVisibility bucketName objectKey visibility now =>
      Catalog.updateVisibility c bucketName objectKey visibility now

/-- Statements of any requests, one after the other. -/
def mutations (k : Collation) : StepSystem.System (Tables k) ObjectStatement where
  start _ := True
  step c statement c' := statement.run c = .ok c'

/-- An overwrite whose `now`, which was read before the statement, is not behind the
    `created_at` of the row it overwrites. -/
def ObjectStatement.Timely (c : Tables k) : ObjectStatement → Prop
  | .upsertRow object now => ∀ o ∈ c.objects.rows,
      sameKey k object.bucketName object.objectKey o = true → o.createdAt ≤ now
  | _ => True

/-- The statements of any number of requests, with overwrites that are timely. -/
def timelyMutations (k : Collation) : StepSystem.System (Tables k) ObjectStatement where
  start _ := True
  step c statement c' := (mutations k).step c statement c' ∧ statement.Timely c

/-- The rows of `c'` are those of `c`, moved to no earlier place, and new ones. -/
structure Later (c c' : Tables k) : Prop where
  rows : ∀ o' ∈ c'.objects.rows, (∃ o ∈ c.objects.rows, o.id = o'.id ∧ o.createdAt ≤ o'.createdAt)
    ∨ (c.nextObjectID ≤ o'.id ∧ o'.id < c'.nextObjectID)
  nextObjectID : c.nextObjectID ≤ c'.nextObjectID

theorem Later.refl (c : Tables k) : Later c c :=
  ⟨fun o ho => Or.inl ⟨o, ho, rfl, le_rfl⟩, Nat.le_refl _⟩

/-- One run of statements after another. -/
theorem Later.trans {c m c' : Tables k} (h : Later c m) (h' : Later m c') : Later c c' := by
  refine ⟨fun o' ho' => ?_, h.nextObjectID.trans h'.nextObjectID⟩
  rcases h'.rows o' ho' with ⟨o, ho, hid, hle⟩ | ⟨hlow, hhigh⟩
  · rcases h.rows o ho with ⟨a, ha, hid', hle'⟩ | ⟨hlow, hhigh⟩
    · exact Or.inl ⟨a, ha, hid'.trans hid, hle'.trans hle⟩
    · exact Or.inr (hid ▸ ⟨hlow, Nat.lt_of_lt_of_le hhigh h'.nextObjectID⟩)
  · exact Or.inr ⟨Nat.le_trans h.nextObjectID hlow, hhigh⟩

/-- An insert adds a row under a new id. -/
theorem insertObject_later {c c' : Tables k} {object : Object}
    (h : insertObject c object = .ok c') :
    Later c c' := by
  have hrows := (insertObject_ok h).2.2
  have hnext : c'.nextObjectID = c.nextObjectID + 1 := by
    rw [insertObject] at h
    split at h
    · split at h
      · cases h
        rfl
      · cases h
    · cases h
  refine ⟨fun o' ho' => ?_, hnext ▸ Nat.le_succ _⟩
  rw [hrows] at ho'
  rcases List.mem_append.mp ho' with ho' | ho'
  · exact Or.inl ⟨o', ho', rfl, le_rfl⟩
  · rw [List.mem_singleton.mp ho']
    exact Or.inr ⟨Nat.le_refl _, hnext ▸ Nat.lt_succ_self _⟩

/-- A statement that only takes rows out. -/
theorem later_of_subset {c c' : Tables k} (hrows : ∀ o ∈ c'.objects.rows, o ∈ c.objects.rows)
    (hnext : c'.nextObjectID = c.nextObjectID) : Later c c' :=
  ⟨fun o ho => Or.inl ⟨o, hrows o ho, rfl, le_rfl⟩, hnext.ge⟩

/-- **One timely statement**: ids stay with their rows and creation times only grow. -/
theorem ObjectStatement.later {c c' : Tables k} {statement : ObjectStatement}
    (htimely : statement.Timely c) (h : statement.run c = .ok c') : Later c c' := by
  cases statement with
  | create object now => exact insertObject_later h
  | insert object => exact insertObject_later h
  -- the only statement that writes the time of a row that is there
  | upsertRow object now =>
      rw [ObjectStatement.run, Catalog.upsertRow] at h
      split at h
      · cases h
        refine ⟨fun o' ho' => ?_, Nat.le_refl _⟩
        obtain ⟨o, ho, rfl⟩ := List.mem_map.mp ho'
        refine Or.inl ⟨o, ho, ?_⟩
        split
        · next hkey => exact ⟨rfl, htimely o ho hkey⟩
        · exact ⟨rfl, le_rfl⟩
      · exact insertObject_later h
  | hardDeleteByIDs ids =>
      cases h
      exact later_of_subset (fun o ho => (List.mem_filter.mp ho).1) rfl
  | hardDeleteByBucket bucketName =>
      cases h
      exact later_of_subset (fun o ho => (List.mem_filter.mp ho).1) rfl
  | updateVisibility bucketName objectKey visibility now =>
      rw [ObjectStatement.run, Catalog.updateVisibility] at h
      obtain ⟨_, -, h⟩ := bind_eq_ok.mp h
      cases pure_eq_ok.mp h
      refine ⟨fun o' ho' => ?_, Nat.le_refl _⟩
      obtain ⟨o, ho, rfl⟩ := List.mem_map.mp ho'
      refine Or.inl ⟨o, ho, ?_⟩
      split <;> exact ⟨rfl, le_rfl⟩

/-- **Any run** of timely statements. -/
theorem later_of_run {c c' : Tables k} {statements : List ObjectStatement}
    (h : StepSystem.Run (timelyMutations k) c statements c') : Later c c' := by
  induction h with
  | nil c => exact Later.refl c
  | cons hstep _ ih => exact (ObjectStatement.later hstep.2 hstep.1).trans ih

/-- `AUTO_INCREMENT` of the objects. -/
def IdsBelow (c : Tables k) : Prop := ∀ o ∈ c.objects.rows, o.id < c.nextObjectID

theorem IdsBelow.later {c c' : Tables k} (h : IdsBelow c) (hlater : Later c c') : IdsBelow c' := by
  intro o' ho'
  rcases hlater.rows o' ho' with ⟨o, ho, hid, -⟩ | ⟨-, hhigh⟩
  · exact hid ▸ Nat.lt_of_lt_of_le (h o ho) hlater.nextObjectID
  · exact hhigh

/-- A row that is found again later has not moved to an earlier place. -/
theorem createdAt_le {c c' : Tables k} (hids : IdsBelow c) (hlater : Later c c') {o o' : Object}
    (ho : o ∈ c.objects.rows) (ho' : o' ∈ c'.objects.rows) (hid : o.id = o'.id) :
    o.createdAt ≤ o'.createdAt := by
  rcases hlater.rows o' ho' with ⟨a, ha, haid, hle⟩ | ⟨hlow, -⟩
  · have heq : a = o := c.objects.eq_of_clash ha ho (by
      rw [Object.clash, haid, hid, beq_self_eq_true, Bool.true_or])
    exact heq ▸ hle
  · exact absurd (hids o ho) (by omega)

/-! ## Traversals -/

/-- The object belongs to the listing. -/
def Matches (k : Collation) (bucketName pfx : String) (o : Object) : Prop :=
  (k.eq o.bucketName bucketName && prefixFilter k pfx o) = true

/-- What a traversal returns when objects come, change and go between its pages.  That
    no row comes twice is the one part that needs timely overwrites. -/
structure Returned (k : Collation) (bucketName pfx : String) (tables : List (Tables k))
    (traversal : Traversal) : Prop where
  matching : ∀ o ∈ traversal.pages.flatten, Matches k bucketName pfx o
    ∧ ∃ c ∈ tables, o ∈ c.objects.rows
  inOrder : traversal.pages.flatten.Pairwise fun a b =>
    b.createdAt < a.createdAt ∨ (b.createdAt = a.createdAt ∧ b.id < a.id)
  once : (∀ c ∈ tables.head?, IdsBelow c) →
    tables.IsChain (fun c c' => ∃ statements, StepSystem.Run (timelyMutations k) c statements c') →
      (traversal.pages.flatten.map (·.id)).Nodup
  covered : traversal.pending = none → ∀ o, Matches k bucketName pfx o →
    (∀ c ∈ tables.take traversal.pages.length, o ∈ c.objects.rows) → o ∈ traversal.pages.flatten

/-- Any two tables of a chain are related, not only neighbours. -/
theorem isChain_later {tables : List (Tables k)}
    (h : tables.IsChain fun c c' => ∃ statements,
      StepSystem.Run (timelyMutations k) c statements c') :
    tables.Pairwise Later := by
  have : IsTrans (Tables k) Later := ⟨fun _ _ _ => Later.trans⟩
  exact List.isChain_iff_pairwise.mp (h.imp fun _ _ ⟨_, hrun⟩ => later_of_run hrun)

/-- Ids and times along the tables of a traversal. -/
theorem ids_along {tables : List (Tables k)} (hhead : ∀ c ∈ tables.head?, IdsBelow c)
    (hlater : tables.Pairwise Later) : ∀ c ∈ tables, IdsBelow c := by
  cases tables with
  | nil => exact nofun
  | cons c rest =>
      have hc := hhead c rfl
      refine List.forall_mem_cons.mpr ⟨hc, fun c' hc' => ?_⟩
      exact hc.later ((List.pairwise_cons.mp hlater).1 c' hc')

/-- Following the cursors over changing tables ends, and what it returned is as `Returned`
    says. -/
theorem returned_of_follow (bucketName pfx : String) {limit : Nat} (hlimit : 0 < limit)
    {tables : List (Tables k)} (hrange : ∀ c ∈ tables, AllRepresentable c) :
    ∃ traversal, follow bucketName pfx limit tables "" = .ok traversal
      ∧ Returned k bucketName pfx tables traversal := by
  have hblank : decodeCursor "" = .ok none := if_pos (by decide)
  obtain ⟨traversal, hfollow, hway⟩ := follow_eq bucketName pfx hlimit tables "" none hrange hblank
  have hkeys : ∀ rows ∈ tables.map fun c => matching c bucketName pfx, (rows.map place).Nodup := by
    intro rows hrows
    obtain ⟨c, -, rfl⟩ := List.mem_map.mp hrows
    exact places_nodup c bucketName pfx
  have hinOrder := (Keyset.walk_pairwise limit _ (Cursor.start none) hkeys).1
  rw [← hway.pages] at hinOrder
  refine ⟨traversal, hfollow, fun o ho => ?_, hinOrder.imp place_lt.mp, fun hhead hchain => ?_,
    fun hended o hmatches hthere => ?_⟩
  · rw [hway.pages] at ho
    obtain ⟨rows, hrows, ho⟩ := Keyset.mem_walk ho
    obtain ⟨c, hc, rfl⟩ := List.mem_map.mp hrows
    obtain ⟨hrow, hmatches⟩ := List.mem_filter.mp ho
    exact ⟨hmatches, c, hc, hrow⟩
  · have hlater := isChain_later hchain
    have hids := ids_along hhead hlater
    -- a row seen again has not moved back, and a walk only goes back
    have hrelated : traversal.pages.flatten.Pairwise fun a b =>
        a.id = b.id → a.createdAt ≤ b.createdAt := by
      rw [hway.pages]
      refine Keyset.walk_related _ _ (List.pairwise_map.mpr ?_) ?_
      · refine hlater.imp_of_mem fun {c c'} hc _ hcc' a ha b hb hid => ?_
        exact createdAt_le (hids c hc) hcc' (List.mem_filter.mp ha).1 (List.mem_filter.mp hb).1 hid
      · intro rows hrows a ha b hb hid
        obtain ⟨c, hc, rfl⟩ := List.mem_map.mp hrows
        exact createdAt_le (hids c hc) (Later.refl c) (List.mem_filter.mp ha).1
          (List.mem_filter.mp hb).1 hid
    rw [List.Nodup, List.pairwise_map]
    refine (hinOrder.and hrelated).imp fun {a b} h hid => ?_
    rcases place_lt.mp h.1 with hlt | ⟨-, hlt⟩
    · exact absurd hlt (not_lt.mpr (h.2 hid))
    · exact absurd hlt (hid ▸ Nat.lt_irrefl _)
  -- a row there at every page is met, or still ahead of the cursor
  · have hcovers := Keyset.walk_covers hlimit _ (Cursor.start none) hkeys o rfl fun rows hrows => by
      rw [← hway.pages, ← List.map_take] at hrows
      obtain ⟨c, hc, rfl⟩ := List.mem_map.mp hrows
      exact List.mem_filter.mpr ⟨hthere c hc, hmatches⟩
    rcases hcovers with hcovers | ⟨next, hpending, -⟩
    · exact hway.pages ▸ hcovers
    · obtain ⟨text, -, htext, -⟩ := hway.pending next hpending
      exact nomatch hended.symm.trans htext

/-- **The object listing**: the cursor round trip, the traversal of a table that stays,
    and the traversal of one that changes, by any statements for what is returned and
    not skipped and by timely ones for no row twice; the service is `listPage` for
    every limit it accepts. -/
theorem list_keyset_pagination (k : Collation) :
    (∀ createdAt id, Representable createdAt id →
      decodeCursor (encodeCursor createdAt id) = .ok (some { createdAt := createdAt, id := id }))
    ∧ (∀ (c : Tables k) bucketName pfx limit, 0 < limit → AllRepresentable c →
        ∀ n, (matching c bucketName pfx).length < n → ∃ traversal,
          follow bucketName pfx limit (List.replicate n c) "" = .ok traversal
          ∧ traversal.pending = none
          ∧ traversal.pages.flatten.Perm (matching c bucketName pfx)
          ∧ traversal.pages.flatten.Pairwise fun a b =>
              b.createdAt < a.createdAt ∨ (b.createdAt = a.createdAt ∧ b.id < a.id))
    ∧ (∀ (tables : List (Tables k)) bucketName pfx limit, 0 < limit →
        (∀ c ∈ tables, AllRepresentable c) → ∃ traversal,
          follow bucketName pfx limit tables "" = .ok traversal
          ∧ Returned k bucketName pfx tables traversal)
    ∧ ∀ (c : Tables k) (input : ListObjectsInput), validateBucketName input.bucketName = .ok () →
        validatePrefix input.pfx = .ok () → bucketExists c input.bucketName = true →
        1 ≤ input.limit → input.limit ≤ maxListLimit →
          list c input = listPage c input.bucketName input.pfx input.limit.toNat input.cursor := by
  refine ⟨fun _ _ => decodeCursor_encodeCursor, fun c bucketName pfx limit hlimit hrange n hn => ?_,
    fun tables bucketName pfx limit hlimit hrange =>
      returned_of_follow bucketName pfx hlimit hrange,
    fun c input hbucket hpfx hexists hlow hhigh => ?_⟩
  · have hblank : decodeCursor "" = .ok none := if_pos (by decide)
    obtain ⟨traversal, hfollow, hway⟩ :=
      follow_eq bucketName pfx hlimit (List.replicate n c) "" none
      (fun c' hc' => List.eq_of_mem_replicate hc' ▸ hrange) hblank
    rw [List.map_replicate] at hway
    obtain ⟨hends, hperm, hinOrder⟩ :=
      Keyset.walk_static hlimit (places_nodup c bucketName pfx) hn
    exact ⟨traversal, hfollow, hway.ended hends, hway.pages ▸ hperm,
      hway.pages ▸ hinOrder.imp place_lt.mp⟩
  · have hzero : input.limit ≠ 0 := by omega
    rw [list, hbucket, hpfx, ensureBucketExists, ensure, if_pos hexists]
    show (ensure _ _ >>= fun _ => _) = _
    rw [if_neg hzero, ensure, if_pos ⟨hlow, hhigh⟩]
    rfl

/-- Two objects created at once. -/
def twins : Tables Collation.binary where
  buckets := ⟨[{ id := 1, name := "docs" }], by decide⟩
  objects := ⟨[{ id := 1, bucketName := "docs", objectKey := "a"
                 storagePath := "objects/a", size := 1, createdAt := 5 },
               { id := 2, bucketName := "docs", objectKey := "b"
                 storagePath := "objects/b", size := 1, createdAt := 5 }], by decide⟩
  nextObjectID := 3

/-- Their times and ids survive the cursor. -/
theorem twins_representable : AllRepresentable twins := by
  intro o ho
  have hall : ∀ o ∈ twins.objects.rows,
      -2 ^ 63 ≤ o.createdAt ∧ o.createdAt < 2 ^ 63 ∧ o.id < 2 ^ 64 := by decide
  exact hall o ho

/-! Two objects, the newer of which is overwritten between two requests. -/

/-- A row that is there from the start. -/
def draft : Object where
  id := 1
  bucketName := "docs"
  objectKey := "draft"
  storagePath := "objects/draft"
  size := 1
  createdAt := 1

/-- An object that is uploaded while a client lists. -/
def report : Object where
  bucketName := "docs"
  objectKey := "report"
  storagePath := "objects/report"
  size := 1

/-- The row of the report. -/
def reportRow (createdAt : Time) : Object :=
  { report with id := 2, createdAt := createdAt, updatedAt := createdAt }

/-- The table before the report, with one older object. -/
def older : Tables Collation.binary where
  buckets := ⟨[{ id := 1, name := "docs" }], by decide⟩
  objects := ⟨[draft], by decide⟩
  nextObjectID := 2

/-- The two do not clash under any time of the upload. -/
theorem report_distinct (createdAt : Time) :
    draft.clash Collation.binary (reportRow createdAt) = false :=
  (by decide : draft.clash Collation.binary (reportRow 0) = false)

/-- The table with the report created at `createdAt`. -/
def reported (createdAt : Time) : Tables Collation.binary :=
  { older with
    objects := ⟨[draft, reportRow createdAt], List.pairwise_pair.mpr (report_distinct createdAt)⟩
    nextObjectID := 3 }

/-- The tables after the upload have only representable rows. -/
theorem reported_representable {createdAt : Time} (hlow : 0 ≤ createdAt)
    (hhigh : createdAt < 2 ^ 63) : AllRepresentable (reported createdAt) := by
  intro o ho
  rcases List.mem_pair.mp ho with rfl | rfl
  · exact ⟨by decide, by decide, by decide⟩
  · exact ⟨le_trans (by decide) hlow, hhigh, show 2 < 2 ^ 64 by decide⟩

theorem reported_below (createdAt : Time) : IdsBelow (reported createdAt) := by
  intro o ho
  rcases List.mem_pair.mp ho with rfl | rfl
  · exact (by decide : 1 < 3)
  · exact (by decide : 2 < 3)

/-- Two rows created at once are listed to the end, and a report that is overwritten
    while a client lists is returned once. -/
theorem list_keyset_pagination_twins :
    decodeCursor (encodeCursor 5 2) = .ok (some { createdAt := 5, id := 2 })
    ∧ (∃ traversal, follow "docs" "" 1 (List.replicate 3 twins) "" = .ok traversal
      ∧ traversal.pending = none)
    ∧ (∃ traversal, follow "docs" "" 1
        [reported 10, reported 20, (hardDeleteByIDs (reported 20) [1]).2] "" = .ok traversal
      ∧ (traversal.pages.flatten.map (·.id)).Nodup)
    ∧ list twins { bucketName := "docs", pfx := "", limit := 1, cursor := "" }
      = listPage twins "docs" "" 1 "" := by
  obtain ⟨hcursor, hstays, hchanges, hlist⟩ := list_keyset_pagination Collation.binary
  refine ⟨hcursor 5 2 ⟨by decide, by decide, by decide⟩, ?_, ?_,
    hlist twins { bucketName := "docs", pfx := "", limit := 1, cursor := "" }
      (by decide) (by decide)
      (by decide) (by decide) (by decide)⟩
  · obtain ⟨traversal, hfollow, hended, -⟩ :=
      hstays twins "docs" "" 1 (by decide) twins_representable 3 (by decide)
    exact ⟨traversal, hfollow, hended⟩
  · have h10 := @reported_representable 10 (by decide) (by decide)
    have h20 := @reported_representable 20 (by decide) (by decide)
    have hdeleted : AllRepresentable (hardDeleteByIDs (reported 20) [1]).2 := fun o ho =>
      h20 o (List.mem_filter.mp ho).1
    obtain ⟨traversal, hfollow, hreturned⟩ := hchanges
      [reported 10, reported 20, (hardDeleteByIDs (reported 20) [1]).2] "docs" "" 1 (by decide)
      (List.forall_mem_cons.mpr ⟨h10, List.forall_mem_cons.mpr ⟨h20,
        List.forall_mem_singleton.mpr hdeleted⟩⟩)
    refine ⟨traversal, hfollow, hreturned.once ?_ ?_⟩
    · rintro c ⟨⟩
      exact reported_below 10
    · -- the report is overwritten with a later clock, then the draft is deleted
      have hlater : ObjectStatement.Timely (reported 10) (.upsertRow report 20) := by
        intro o ho _
        rcases List.mem_pair.mp ho with rfl | rfl <;> decide
      refine List.IsChain.cons_cons ⟨[.upsertRow report 20], .cons ⟨rfl, hlater⟩ (.nil _)⟩ ?_
      exact List.isChain_pair.mpr ⟨[.hardDeleteByIDs [1]], .cons ⟨rfl, trivial⟩ (.nil _)⟩

/-- A page of one that begins before the report. -/
theorem listPage_reported {createdAt : Time} {cursor : String} {start : Option Cursor}
    (hnewer : 1 < createdAt) (hcursor : decodeCursor cursor = .ok start)
    (hrows : (matching (reported createdAt) "docs" "").filter (beforeCursor start)
      = [draft, reportRow createdAt]) :
    listPage (reported createdAt) "docs" "" 1 cursor
      = .ok { items := [reportRow createdAt], nextCursor := encodeCursor createdAt 2 } := by
  have hdraft : newestFirst draft (reportRow createdAt) = false := by
    rw [newestFirst, decide_eq_false_iff_not]
    rintro (hlt | ⟨heq, -⟩)
    · exact lt_asymm hnewer hlt
    · exact hnewer.ne heq.symm
  have hsorted :
      [draft, reportRow createdAt].mergeSort newestFirst = [reportRow createdAt, draft] := by
    simp [List.mergeSort, List.MergeSort.Internal.splitInTwo, hdraft]
  rw [listPage, hcursor]
  show (if 1 < (listActive (reported createdAt) "docs" "" 2 start).length then _ else _) = _
  rw [listActive, hrows, hsorted]
  rfl

/-- **A row returned twice**: the report is created at 10 and listed, then overwritten by a
    request that had read its clock at 5, and goes behind the cursor that has passed it. -/
theorem overwrite_returned_twice :
    create older report 10 = .ok (reported 10)
      ∧ (mutations Collation.binary).step (reported 10) (.upsertRow report 5) (reported 5)
      ∧ (∀ c ∈ [reported 10, reported 5], AllRepresentable c) ∧ IdsBelow (reported 10)
      ∧ ∃ traversal, follow "docs" "" 1 [reported 10, reported 5] "" = .ok traversal
        ∧ traversal.pages.flatten.map (·.id) = [2, 2] := by
  have h10 := @reported_representable 10 (by decide) (by decide)
  have h5 := @reported_representable 5 (by decide) (by decide)
  have hblank : decodeCursor "" = .ok none := if_pos (by decide)
  have hcursor : decodeCursor (encodeCursor 10 2) = .ok (some ⟨10, 2⟩) :=
    decodeCursor_encodeCursor ⟨by decide, by decide, by decide⟩
  have hfirst := @listPage_reported 10 _ _ (by decide) hblank (by decide)
  have hsecond := @listPage_reported 5 _ _ (by decide) hcursor (by decide)
  refine ⟨rfl, rfl, ?_, reported_below 10, ?_⟩
  · exact List.forall_mem_cons.mpr ⟨h10, List.forall_mem_singleton.mpr h5⟩
  · refine ⟨{ pages := [[reportRow 10], [reportRow 5]], pending := some (encodeCursor 5 2) }, ?_,
      rfl⟩
    refine bind_eq_ok.mpr ⟨_, hfirst, (if_neg (encodeCursor_ne_empty 10 2)).trans ?_⟩
    refine bind_eq_ok.mpr
      ⟨{ pages := [[reportRow 5]], pending := some (encodeCursor 5 2) }, ?_, rfl⟩
    exact bind_eq_ok.mpr ⟨_, hsecond, (if_neg (encodeCursor_ne_empty 5 2)).trans rfl⟩

end ObjectListing
