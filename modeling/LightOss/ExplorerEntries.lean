import LightOss.JsonText
import LightOss.ObjectListing
import LightOss.Rfc3339
import Mathlib.Data.String.Basic

/-! # Explorer entries — their order and the cursor that names a place in it

    `explorer_cursor.go`.  The comparison of entries is lexicographic
    (`compareExplorerEntries_eq`): the type, then the value and the name in the direction
    asked for; only entries of one type and name tie (`same_of_tie`).  Comparing with an
    entry and comparing with the entry its decoded cursor describes are the same
    (`compare_cursor`).

    A cursor is printed and parsed member by member (`prints_members`,
    `unmarshal_members`), so it comes back from its text, but the decoder refuses an
    empty name (`explorer_cursor_round_trip`). -/

namespace ExplorerEntries

open Decimal JsonText LedgerRows Catalog Validation ObjectListing

/-- `ExplorerEntryType`: what a row of the explorer is. -/
inductive ExplorerEntryType where
  | directory
  | file
  deriving DecidableEq

/-- `ExplorerSortBy`: the column the explorer sorts by. -/
inductive ExplorerSortBy where
  | name
  | size
  | createdAt
  deriving DecidableEq

inductive ExplorerSortOrder where
  | asc
  | desc
  deriving DecidableEq

/-- `ExplorerEntry`: a directory has a path and no object, a file an object. -/
@[ext] structure ExplorerEntry where
  type : ExplorerEntryType
  path : String := ""
  name : String
  isEmpty : Bool := false
  object : Option Object := none
  deriving DecidableEq

/-- `ExplorerCursor`: what a cursor keeps of the last entry of a page. -/
structure ExplorerCursor where
  sortBy : ExplorerSortBy
  sortOrder : ExplorerSortOrder
  type : ExplorerEntryType
  name : String
  size : Option Int := none
  createdAt : Option Time := none
  deriving DecidableEq

/-- The constants as the cursor writes them. -/
def ExplorerEntryType.text : ExplorerEntryType → String
  | .directory => "directory"
  | .file => "file"

/-- The constants as the request and the cursor write them. -/
def ExplorerSortBy.text : ExplorerSortBy → String
  | .name => "name"
  | .size => "size"
  | .createdAt => "created_at"

/-- The constants as the request and the cursor write them. -/
def ExplorerSortOrder.text : ExplorerSortOrder → String
  | .asc => "asc"
  | .desc => "desc"

/-- The two types a cursor may name; any other text is refused. -/
def parseEntryType (value : String) : Option ExplorerEntryType :=
  [ExplorerEntryType.directory, .file].find? fun t => t.text == value

/-- `isValidExplorerSortBy`. -/
def parseSortBy (value : String) : Option ExplorerSortBy :=
  [ExplorerSortBy.name, .size, .createdAt].find? fun s => s.text == value

/-- `isValidExplorerSortOrder`. -/
def parseSortOrder (value : String) : Option ExplorerSortOrder :=
  [ExplorerSortOrder.asc, .desc].find? fun o => o.text == value

/-- `normalizeExplorerSortBy`: no text at all means the time of creation. -/
def normalizeExplorerSortBy (value : String) : Option ExplorerSortBy :=
  if trimSpace value = "" then some .createdAt else parseSortBy (trimSpace value)

/-- `normalizeExplorerSortOrder`: no text at all means descending. -/
def normalizeExplorerSortOrder (value : String) : Option ExplorerSortOrder :=
  if trimSpace value = "" then some .desc else parseSortOrder (trimSpace value)

/-! ## The order of entries -/

section Order

-- `unicode.ToLower`; no result depends on its table
variable (toLower : Char → Char)

/-- `strings.ToLower`. -/
def lower (s : String) : String := String.ofList (s.toList.map toLower)

/-- `time.Time{}`: the first instant of year 1. -/
def zeroTime : Time := -62135596800000000000

/-- `explorerTypeOrder`: directories stand before files in either direction. -/
def explorerTypeOrder : ExplorerEntryType → Nat
  | .directory => 0
  | .file => 1

/-- `applyExplorerSortOrder`: descending turns the comparison round. -/
def applyExplorerSortOrder (value : Ordering) : ExplorerSortOrder → Ordering
  | .desc => value.swap
  | .asc => value

/-- UTF-8 keeps the order of the characters, so strings compare by their characters. -/
def compareExplorerEntryNames (left right : String) : Ordering :=
  if lower toLower left ≠ lower toLower right then
    compare (lower toLower left) (lower toLower right)
  else compare left right

/-- `explorerEntrySize`: an entry without an object counts as empty. -/
def explorerEntrySize (entry : ExplorerEntry) : Int :=
  match entry.object with
  | some object => object.size
  | none => 0

/-- `explorerEntryCreatedAt`: an entry without an object has the zero time. -/
def explorerEntryCreatedAt (entry : ExplorerEntry) : Time :=
  match entry.object with
  | some object => object.createdAt
  | none => zeroTime

/-- The value a file is sorted by before its name. -/
def sortField (sortBy : ExplorerSortBy) (entry : ExplorerEntry) : Int :=
  match sortBy with
  | .name => 0
  | .size => explorerEntrySize entry
  | .createdAt => explorerEntryCreatedAt entry

/-- The sign of the source's number. -/
def compareExplorerEntries (sortBy : ExplorerSortBy) (sortOrder : ExplorerSortOrder)
    (left right : ExplorerEntry) : Ordering :=
  if explorerTypeOrder left.type ≠ explorerTypeOrder right.type then
    compare (explorerTypeOrder left.type) (explorerTypeOrder right.type)
  else if left.type = .directory then
    applyExplorerSortOrder (compareExplorerEntryNames toLower left.name right.name) sortOrder
  else if compare (sortField sortBy left) (sortField sortBy right) ≠ .eq then
    applyExplorerSortOrder (compare (sortField sortBy left) (sortField sortBy right)) sortOrder
  else applyExplorerSortOrder (compareExplorerEntryNames toLower left.name right.name) sortOrder

end Order

/-! ## The cursor -/

/-- `explorerCursorFromEntry`: the column that is sorted by is kept for files only. -/
def explorerCursorFromEntry (entry : ExplorerEntry) (sortBy : ExplorerSortBy)
    (sortOrder : ExplorerSortOrder) : ExplorerCursor :=
  let cursor : ExplorerCursor := { sortBy, sortOrder, type := entry.type, name := entry.name }
  match entry.type, entry.object with
  | .file, some object =>
      match sortBy with
      | .size => { cursor with size := some object.size }
      | .createdAt => { cursor with createdAt := some object.createdAt }
      | .name => cursor
  | _, _ => cursor

/-- The zero value of `model.Object` with the two fields a cursor sets. -/
def explorerCursorToEntry (cursor : ExplorerCursor) : ExplorerEntry :=
  let entry : ExplorerEntry := { type := cursor.type, name := cursor.name }
  match cursor.type with
  | .directory => entry
  | .file =>
      { entry with object := some { bucketName := "", objectKey := "", storagePath := ""
                                    contentType := ""
                                    size := cursor.size.getD 0
                                    createdAt := cursor.createdAt.getD zeroTime
                                    updatedAt := zeroTime } }

/-- A string member of the cursor's object. -/
def stringMember (name text : String) : Member :=
  ⟨name.toList, printString text.toList, .str (quote text.toList)⟩

/-- The JSON members in the order of the struct's fields; absent pointers are left out. -/
def ExplorerCursor.members (cursor : ExplorerCursor) : List Member :=
  [stringMember "sort_by" cursor.sortBy.text, stringMember "sort_order" cursor.sortOrder.text,
    stringMember "type" cursor.type.text, stringMember "name" cursor.name]
  ++ (cursor.size.map fun n => ⟨"size".toList, printInt n, .num (printInt n)⟩).toList
  ++ (cursor.createdAt.map fun t =>
      ⟨"created_at".toList, printString (Rfc3339.format t), .str (quote (Rfc3339.format t))⟩).toList

/-- `encodeExplorerCursor`: the JSON text in URL-safe base64. -/
def encodeExplorerCursor (cursor : ExplorerCursor) : String :=
  String.ofList (ByteText.encodeBase64 (ByteText.encodeUtf8 (printObject cursor.members)))

/-- The struct as it is filled from JSON, before any check. -/
structure RawCursor where
  sortBy : List Char := []
  sortOrder : List Char := []
  type : List Char := []
  name : List Char := []
  size : Option Int := none
  createdAt : Option Time := none

/-- The fold under which a member's name finds its field. -/
def foldRune (c : Char) : Char :=
  if 'a' ≤ c ∧ c ≤ 'z' then c.toUpper
  else if c = Char.ofNat 0x17F then 'S'
  else if c = Char.ofNat 0x212A then 'K'
  else c

/-- Whether a member's name is a field's: `encoding/json` folds case. -/
def names (field : String) (name : List Char) : Bool :=
  name.map foldRune == field.toList.map foldRune

/-- `null` leaves a string as it is; anything but a string is an error. -/
def readString (j : Json) (old : List Char) : Option (List Char) :=
  match j with
  | .str raw => some (unquote raw)
  | .null => some old
  | _ => none

/-- A number that fits an `int64`; `null` is no number. -/
def readInt64 : Json → Option (Option Int)
  | .num raw => ((parseInt raw).filter fun n => -2 ^ 63 ≤ n ∧ n < 2 ^ 63).map some
  | .null => some none
  | _ => none

/-- A time in its strict form, read from the raw string; `null` is no time. -/
def readTime : Json → Option (Option Time)
  | .str raw => (Rfc3339.parse raw).map some
  | .null => some none
  | _ => none

/-- Fills the field a member names; a member that names none is skipped. -/
def RawCursor.set (c : RawCursor) (name : List Char) (j : Json) : Option RawCursor :=
  if names "sort_by" name then (readString j c.sortBy).map fun s => { c with sortBy := s }
  else if names "sort_order" name then
    (readString j c.sortOrder).map fun s => { c with sortOrder := s }
  else if names "type" name then (readString j c.type).map fun s => { c with type := s }
  else if names "name" name then (readString j c.name).map fun s => { c with name := s }
  else if names "size" name then (readInt64 j).map fun n => { c with size := n }
  else if names "created_at" name then (readTime j).map fun t => { c with createdAt := t }
  else some c

/-- `json.Unmarshal` into the struct. -/
def unmarshal : Json → Option RawCursor
  | .obj members => members.foldlM (fun c m => c.set (unquote m.1) m.2) {}
  | .null => some {}
  | _ => none

/-- The checks of the decoder: the three enumerations, a name, and for a file the value
    it is sorted by. -/
def RawCursor.check (c : RawCursor) : Option ExplorerCursor := do
  let sortBy ← parseSortBy (String.ofList c.sortBy)
  let sortOrder ← parseSortOrder (String.ofList c.sortOrder)
  let type ← parseEntryType (String.ofList c.type)
  if c.name = [] then none
  else if type = .file ∧ sortBy = .size ∧ c.size = none then none
  else if type = .file ∧ sortBy = .createdAt ∧ c.createdAt = none then none
  else some ⟨sortBy, sortOrder, type, String.ofList c.name, c.size, c.createdAt⟩

/-- Nothing is an error, whose text the caller drops; no cursor is a cursor of its own. -/
def decodeExplorerCursor (value : String) : Option (Option ExplorerCursor) :=
  if trimSpace value = "" then some none
  else do
    let raw ← ByteText.decodeBase64 value.toList
    let json ← parse (ByteText.decodeUtf8 raw)
    let cursor ← unmarshal json
    (cursor.check).map some

/-! ## A strict total order -/

section Total

variable {toLower : Char → Char} {sortBy : ExplorerSortBy} {sortOrder : ExplorerSortOrder}

/-- Comparing names is comparing lowered names first and then the names themselves. -/
theorem compareExplorerEntryNames_eq (toLower : Char → Char) :
    compareExplorerEntryNames toLower = compareLex (compareOn (lower toLower)) compare := by
  funext a b
  rw [compareExplorerEntryNames, compareLex, compareOn]
  split
  · next h =>
      have hne : compare (lower toLower a) (lower toLower b) ≠ .eq := fun heq =>
        h (Std.LawfulEqOrd.eq_of_compare heq)
      cases hc : compare (lower toLower a) (lower toLower b) with
      | eq => exact absurd hc hne
      | lt => rfl
      | gt => rfl
  · next h =>
      rw [not_not.mp h, Std.ReflOrd.compare_self]
      rfl

/-- A comparison in one of the two directions. -/
def directed {α : Type} (cmp : α → α → Ordering) (order : ExplorerSortOrder) (a b : α) : Ordering :=
  match order with
  | .asc => cmp a b
  | .desc => cmp b a

/-- What decides between two entries of one type, going up. -/
def ascending (toLower : Char → Char) (sortBy : ExplorerSortBy) :
    ExplorerEntry → ExplorerEntry → Ordering :=
  compareLex (compareOn fun e => if e.type = .directory then 0 else sortField sortBy e)
    (compareLex (compareOn fun e => lower toLower e.name) (compareOn ExplorerEntry.name))

instance : Std.TransCmp (ascending toLower sortBy) := by
  rw [ascending]
  infer_instance

instance {cmp : α → α → Ordering} [Std.TransCmp cmp] : Std.TransCmp (directed cmp sortOrder) :=
  match sortOrder with
  | .asc => inferInstanceAs (Std.TransCmp cmp)
  | .desc => inferInstanceAs (Std.TransCmp fun a b => cmp b a)

/-- Turning the answer round is comparing the other way. -/
theorem directed_eq (cmp : α → α → Ordering) [Std.OrientedCmp cmp] (a b : α) :
    applyExplorerSortOrder (cmp a b) sortOrder = directed cmp sortOrder a b := by
  cases sortOrder with
  | asc => rfl
  | desc => exact Std.OrientedCmp.eq_swap.symm

/-- The comparison is lexicographic: the type, then the rest in the direction asked for. -/
theorem compareExplorerEntries_eq :
    compareExplorerEntries toLower sortBy sortOrder =
      compareLex (compareOn fun e => explorerTypeOrder e.type)
        (directed (ascending toLower sortBy) sortOrder) := by
  funext a b
  have hascending : ascending toLower sortBy a b
      = (compare (if a.type = .directory then 0 else sortField sortBy a)
          (if b.type = .directory then 0 else sortField sortBy b)).then
        (compareExplorerEntryNames toLower a.name b.name) := by
    rw [compareExplorerEntryNames_eq]
    rfl
  rw [compareExplorerEntries, compareLex, compareOn, ← directed_eq]
  -- two directories have no value to sort by and fall to the name
  by_cases htype : explorerTypeOrder a.type = explorerTypeOrder b.type
  · have hsame : b.type = a.type := by
      revert htype
      cases a.type <;> cases b.type <;> decide
    rw [if_neg (not_not.mpr htype), htype, Std.ReflOrd.compare_self, hascending, hsame]
    by_cases hdir : a.type = .directory
    · rw [if_pos hdir, if_pos hdir, if_pos hdir, Std.ReflOrd.compare_self]
      rfl
    · rw [if_neg hdir, if_neg hdir, if_neg hdir]
      cases compare (sortField sortBy a) (sortField sortBy b) <;> rfl
  · have hne : compare (explorerTypeOrder a.type) (explorerTypeOrder b.type) ≠ .eq :=
      fun heq => htype (Std.LawfulEqOrd.eq_of_compare heq)
    rw [if_pos htype]
    revert hne
    cases compare (explorerTypeOrder a.type) (explorerTypeOrder b.type) with
    | eq => exact fun hne => absurd rfl hne
    | lt => exact fun _ => rfl
    | gt => exact fun _ => rfl

instance : Std.TransCmp (compareExplorerEntries toLower sortBy sortOrder) := by
  rw [compareExplorerEntries_eq]
  infer_instance

/-- Exchanging the entries turns the answer round. -/
theorem compare_swap (a b : ExplorerEntry) : compareExplorerEntries toLower sortBy sortOrder b a
    = (compareExplorerEntries toLower sortBy sortOrder a b).swap := Std.OrientedCmp.eq_swap

theorem compare_irrefl (a : ExplorerEntry) :
    compareExplorerEntries toLower sortBy sortOrder a a ≠ .lt := by
  have hself : compareExplorerEntries toLower sortBy sortOrder a a = .eq := Std.ReflCmp.compare_self
  rw [hself]
  exact Ordering.noConfusion

/-- Of two entries one at most comes before the other. -/
theorem compare_asymm {a b : ExplorerEntry}
    (h : compareExplorerEntries toLower sortBy sortOrder a b = .lt) :
    compareExplorerEntries toLower sortBy sortOrder b a = .gt := by
  rw [compare_swap a b, h]
  rfl

/-- Only entries of one type and name tie. -/
theorem same_of_tie {a b : ExplorerEntry}
    (h : compareExplorerEntries toLower sortBy sortOrder a b = .eq) :
    a.type = b.type ∧ a.name = b.name := by
  rw [compareExplorerEntries_eq, compareLex_eq_eq, ← directed_eq] at h
  have htype : a.type = b.type := by
    have horder : explorerTypeOrder a.type = explorerTypeOrder b.type :=
      Std.LawfulEqOrd.eq_of_compare h.1
    revert horder
    cases a.type <;> cases b.type <;> decide
  have hup : ascending toLower sortBy a b = .eq := by
    have hdir := h.2
    revert hdir
    cases sortOrder with
    | asc => exact id
    | desc => exact Ordering.swap_eq_eq.mp
  rw [ascending, compareLex_eq_eq, compareLex_eq_eq] at hup
  exact ⟨htype, Std.LawfulEqOrd.eq_of_compare hup.2.2⟩

/-! ## The cursor of an entry -/

/-- An entry as the listing builds it: exactly the files have an object. -/
def Proper (e : ExplorerEntry) : Prop := e.object.isSome = true ↔ e.type = .file

/-- A cursor carries the order it was made under. -/
theorem explorerCursorFromEntry_sort (e : ExplorerEntry) (sortBy : ExplorerSortBy)
    (sortOrder : ExplorerSortOrder) :
    (explorerCursorFromEntry e sortBy sortOrder).sortBy = sortBy
      ∧ (explorerCursorFromEntry e sortBy sortOrder).sortOrder = sortOrder := by
  rw [explorerCursorFromEntry]
  split
  · cases sortBy <;> exact ⟨rfl, rfl⟩
  · exact ⟨rfl, rfl⟩

/-- Comparing with an entry and with its cursor is the same. -/
theorem compare_cursor {e : ExplorerEntry} (he : Proper e) (a : ExplorerEntry) :
    compareExplorerEntries toLower sortBy sortOrder a
        (explorerCursorToEntry (explorerCursorFromEntry e sortBy sortOrder))
      = compareExplorerEntries toLower sortBy sortOrder a e := by
  obtain ⟨type, path, name, isEmpty, object⟩ := e
  cases type with
  | directory =>
      -- a directory is placed by its name alone, and only among directories
      rw [compareExplorerEntries, compareExplorerEntries]
      cases a.type <;> rfl
  | file =>
      obtain ⟨o, rfl⟩ : ∃ o, object = some o := Option.isSome_iff_exists.mp (he.mpr rfl)
      cases sortBy <;> rfl

end Total

/-! ## The cursor as text -/

/-- What the struct holds that a cursor's object fills. -/
def ExplorerCursor.raw (c : ExplorerCursor) : RawCursor :=
  ⟨c.sortBy.text.toList, c.sortOrder.text.toList, c.type.text.toList, c.name.toList, c.size,
    c.createdAt⟩

/-- The values of the cursor's optional members are ones the text can hold. -/
structure InRange (c : ExplorerCursor) : Prop where
  size : ∀ n ∈ c.size, -2 ^ 63 ≤ n ∧ n < 2 ^ 63
  createdAt : ∀ t ∈ c.createdAt, 0 ≤ Rfc3339.year t ∧ Rfc3339.year t ≤ 9999

/-- Every member of a cursor is printed as the parser reads it. -/
theorem prints_members (c : ExplorerCursor) : ∀ m ∈ c.members, Prints m.text m.value := by
  intro m hm
  rw [ExplorerCursor.members] at hm
  rcases List.mem_append.mp hm with hm | hm
  · rcases List.mem_append.mp hm with hm | hm
    · fin_cases hm <;> exact prints_string _
    · obtain ⟨n, -, rfl⟩ := Option.map_eq_some_iff.mp (Option.mem_toList.mp hm)
      exact prints_int n
  · obtain ⟨t, -, rfl⟩ := Option.map_eq_some_iff.mp (Option.mem_toList.mp hm)
    exact prints_string _

/-- The text of a time needs no escape. -/
theorem quote_format (t : Time) : quote (Rfc3339.format t) = Rfc3339.format t := by
  have hplain : ∀ c ∈ Rfc3339.formatChars, quoteChar c = [c] := ByteText.forall_chars (by decide)
  exact quote_plain fun c hc => hplain c (Rfc3339.formatChars_format t c hc)

section Fields

variable (raw : RawCursor) (text : List Char)

theorem set_sortBy :
    raw.set "sort_by".toList (.str (quote text)) = some { raw with sortBy := text } := by
  rw [RawCursor.set, if_pos (by decide), readString, unquote_quote]
  rfl

/-- Reading back the member `sort_order`. -/
theorem set_sortOrder :
    raw.set "sort_order".toList (.str (quote text)) = some { raw with sortOrder := text } := by
  rw [RawCursor.set, if_neg (by decide), if_pos (by decide), readString, unquote_quote]
  rfl

theorem set_type : raw.set "type".toList (.str (quote text)) = some { raw with type := text } := by
  rw [RawCursor.set, if_neg (by decide), if_neg (by decide), if_pos (by decide), readString,
    unquote_quote]
  rfl

theorem set_name : raw.set "name".toList (.str (quote text)) = some { raw with name := text } := by
  rw [RawCursor.set, if_neg (by decide), if_neg (by decide), if_neg (by decide), if_pos (by decide),
    readString, unquote_quote]
  rfl

/-- A size within the signed 64 bits is read back. -/
theorem set_size {n : Int} (h : -2 ^ 63 ≤ n ∧ n < 2 ^ 63) :
    raw.set "size".toList (.num (printInt n)) = some { raw with size := some n } := by
  rw [RawCursor.set, if_neg (by decide), if_neg (by decide), if_neg (by decide), if_neg (by decide),
    if_pos (by decide), readInt64, parseInt_printInt, Option.filter_some, if_pos (decide_eq_true h)]
  rfl

/-- A time with a year of at most four digits is read back. -/
theorem set_createdAt {t : Time} (h : 0 ≤ Rfc3339.year t ∧ Rfc3339.year t ≤ 9999) :
    raw.set "created_at".toList (.str (quote (Rfc3339.format t)))
      = some { raw with createdAt := some t } := by
  rw [RawCursor.set, if_neg (by decide), if_neg (by decide), if_neg (by decide), if_neg (by decide),
    if_neg (by decide), if_pos (by decide), readTime, quote_format, Rfc3339.parse_format h]
  rfl

end Fields

/-- The members of a cursor fill the struct with the cursor's own values. -/
theorem unmarshal_members {c : ExplorerCursor} (h : InRange c) :
    unmarshal (.obj (c.members.map Member.parsed)) = some c.raw := by
  obtain ⟨sortBy, sortOrder, type, name, size, createdAt⟩ := c
  have hsize := h.size
  have htime := h.createdAt
  have hstrings : ∀ rest : List Member, unmarshal (.obj (([stringMember "sort_by" sortBy.text,
      stringMember "sort_order" sortOrder.text, stringMember "type" type.text,
      stringMember "name" name] ++ rest).map Member.parsed))
      = (rest.map Member.parsed).foldlM (fun raw m => raw.set (unquote m.1) m.2)
        { sortBy := sortBy.text.toList, sortOrder := sortOrder.text.toList
          type := type.text.toList, name := name.toList } := by
    intro rest
    simp only [unmarshal, stringMember, List.cons_append, List.nil_append, List.map_cons,
      List.foldlM_cons, Member.parsed, unquote_quote, set_sortBy, set_sortOrder, set_type, set_name,
      Option.bind_eq_bind, Option.bind_some]
  rw [ExplorerCursor.members, List.append_assoc, hstrings]
  -- at most one of the two optional members is there, but each case reads the same
  cases size with
  | none =>
      cases createdAt with
      | none => rfl
      | some t =>
          simp only [Option.map_none, Option.map_some, Option.toList_none, Option.toList_some,
            List.nil_append, List.map_cons, List.map_nil, List.foldlM_cons, List.foldlM_nil,
            Member.parsed, unquote_quote, set_createdAt _ (htime t rfl), Option.bind_eq_bind,
            Option.bind_some]
          rfl
  | some n =>
      cases createdAt with
      | none =>
          simp only [Option.map_none, Option.map_some, Option.toList_none, Option.toList_some,
            List.append_nil, List.map_cons, List.map_nil, List.foldlM_cons, List.foldlM_nil,
            Member.parsed, unquote_quote, set_size _ (hsize n rfl), Option.bind_eq_bind,
            Option.bind_some]
          rfl
      | some t =>
          simp only [Option.map_some, Option.toList_some, List.cons_append, List.nil_append,
            List.map_cons, List.map_nil, List.foldlM_cons, List.foldlM_nil, Member.parsed,
            unquote_quote, set_size _ (hsize n rfl), set_createdAt _ (htime t rfl),
            Option.bind_eq_bind, Option.bind_some]
          rfl

/-- A cursor is never blank. -/
theorem encodeExplorerCursor_visible (c : ExplorerCursor) :
    trimSpace (encodeExplorerCursor c) ≠ "" := by
  refine encodeBase64_visible ?_
  rw [printObject, ByteText.encodeUtf8_cons]
  exact List.append_ne_nil_of_left_ne_nil (by decide) _

/-- Decoding what was encoded is checking the cursor. -/
theorem decode_encode {c : ExplorerCursor} (h : InRange c) :
    decodeExplorerCursor (encodeExplorerCursor c) = c.raw.check.map some := by
  rw [decodeExplorerCursor, if_neg (encodeExplorerCursor_visible c), encodeExplorerCursor,
    String.toList_ofList,
    ByteText.decodeBase64_encodeBase64, Option.bind_eq_bind, Option.bind_some,
    ByteText.decodeUtf8_encodeUtf8, parse_printObject (prints_members c), Option.bind_eq_bind,
    Option.bind_some, unmarshal_members h, Option.bind_eq_bind, Option.bind_some]

/-- Every constant is read back from its text. -/
theorem parse_texts (sortBy : ExplorerSortBy) (sortOrder : ExplorerSortOrder)
    (type : ExplorerEntryType) :
    parseSortBy sortBy.text = some sortBy ∧ parseSortOrder sortOrder.text = some sortOrder
      ∧ parseEntryType type.text = some type := by
  refine ⟨?_, ?_, ?_⟩
  · cases sortBy <;> decide
  · cases sortOrder <;> decide
  · cases type <;> decide


/-! ## Every cursor -/

/-- A name, and for a file the value it is sorted by. -/
structure Readable (c : ExplorerCursor) : Prop where
  name : c.name ≠ ""
  size : c.type = .file → c.sortBy = .size → c.size ≠ none
  createdAt : c.type = .file → c.sortBy = .createdAt → c.createdAt ≠ none

/-- Only a readable cursor passes the checks. -/
theorem readable_of_check {raw : RawCursor} {c : ExplorerCursor} (h : raw.check = some c) :
    Readable c ∧ c.size = raw.size := by
  rw [RawCursor.check] at h
  obtain ⟨sortBy, -, h⟩ := Option.bind_eq_some_iff.mp h
  obtain ⟨sortOrder, -, h⟩ := Option.bind_eq_some_iff.mp h
  obtain ⟨type, -, h⟩ := Option.bind_eq_some_iff.mp h
  split at h
  · cases h
  · next hname =>
      split at h
      · cases h
      · next hsize =>
          split at h
          · cases h
          · next htime =>
              cases h
              refine ⟨⟨?_, fun htype hsort hnone => hsize ⟨htype, hsort, hnone⟩,
                fun htype hsort hnone => htime ⟨htype, hsort, hnone⟩⟩, rfl⟩
              intro hempty
              rw [← String.toList_inj, String.toList_ofList] at hempty
              exact hname hempty

/-- A cursor that names its entry passes the checks of the decoder. -/
theorem check_readable {c : ExplorerCursor} (h : Readable c) : c.raw.check = some c := by
  obtain ⟨hsortBy, hsortOrder, htype⟩ := parse_texts c.sortBy c.sortOrder c.type
  have hname : c.name.toList ≠ [] := fun hnil => h.name (String.toList_inj.mp hnil)
  simp only [ExplorerCursor.raw, RawCursor.check, String.ofList_toList, hsortBy, hsortOrder, htype,
    Option.bind_eq_bind, Option.bind_some]
  rw [if_neg hname, if_neg fun hsize => h.size hsize.1 hsize.2.1 hsize.2.2,
    if_neg fun htime => h.createdAt htime.1 htime.2.1 htime.2.2]

/-- A cursor of a nameless entry does not. -/
theorem check_unreadable {c : ExplorerCursor} (h : ¬ Readable c) : c.raw.check = none := by
  obtain ⟨hsortBy, hsortOrder, htype⟩ := parse_texts c.sortBy c.sortOrder c.type
  refine Option.eq_none_iff_forall_ne_some.mpr fun c' hcheck => h ?_
  have hsame : c' = c := by
    have hcheck' := hcheck
    simp only [ExplorerCursor.raw, RawCursor.check, String.ofList_toList, hsortBy, hsortOrder,
      htype, Option.bind_eq_bind, Option.bind_some] at hcheck'
    split at hcheck'
    · cases hcheck'
    split at hcheck'
    · cases hcheck'
    split at hcheck'
    · cases hcheck'
    · cases hcheck'
      rfl
  exact hsame ▸ (readable_of_check hcheck).1

/-- The cursor of an entry is readable exactly when the entry has a name. -/
theorem readable_fromEntry {e : ExplorerEntry} (he : Proper e) (sortBy : ExplorerSortBy)
    (sortOrder : ExplorerSortOrder) :
    Readable (explorerCursorFromEntry e sortBy sortOrder) ↔ e.name ≠ "" := by
  obtain ⟨type, path, name, isEmpty, object⟩ := e
  cases type with
  | directory =>
      refine ⟨fun h => h.name, fun hname => ⟨hname, fun htype => ?_, fun htype => ?_⟩⟩
      · cases htype
      · cases htype
  | file =>
      obtain ⟨o, rfl⟩ : ∃ o, object = some o := Option.isSome_iff_exists.mp (he.mpr rfl)
      cases sortBy with
      | name =>
          refine ⟨fun h => h.name, fun hname => ⟨hname, fun _ hsort => ?_, fun _ hsort => ?_⟩⟩
          · cases hsort
          · cases hsort
      | size =>
          refine ⟨fun h => h.name,
            fun hname => ⟨hname, fun _ _ => Option.some_ne_none _, fun _ hsort => ?_⟩⟩
          cases hsort
      | createdAt =>
          refine ⟨fun h => h.name,
            fun hname => ⟨hname, fun _ hsort => ?_, fun _ _ => Option.some_ne_none _⟩⟩
          cases hsort

/-- The cursor of an entry with a name reads back; that of one without is refused. -/
theorem decode_cursor {e : ExplorerEntry} (he : Proper e) {sortBy : ExplorerSortBy}
    {sortOrder : ExplorerSortOrder}
    (hrange : InRange (explorerCursorFromEntry e sortBy sortOrder)) :
    decodeExplorerCursor (encodeExplorerCursor (explorerCursorFromEntry e sortBy sortOrder))
      = if e.name = "" then none
        else some (some (explorerCursorFromEntry e sortBy sortOrder)) := by
  have hreadable := readable_fromEntry he sortBy sortOrder
  rw [decode_encode hrange]
  split
  · next hname => rw [check_unreadable fun h => hreadable.mp h hname, Option.map_none]
  · next hname => rw [check_readable (hreadable.mpr hname), Option.map_some]

/-- A member keeps the size within an `int64`. -/
theorem RawCursor.set_range {raw raw' : RawCursor} {name : List Char} {j : Json}
    (h : raw.set name j = some raw') (hrange : ∀ n ∈ raw.size, -2 ^ 63 ≤ n ∧ n < 2 ^ 63) :
    ∀ n ∈ raw'.size, -2 ^ 63 ≤ n ∧ n < 2 ^ 63 := by
  have hkeep : ∀ {α : Type} {x : Option α} {f : α → RawCursor}, x.map f = some raw' →
      (∀ a, (f a).size = raw.size) → ∀ n ∈ raw'.size, -2 ^ 63 ≤ n ∧ n < 2 ^ 63 := by
    intro α x f hmap hsame
    obtain ⟨a, -, rfl⟩ := Option.map_eq_some_iff.mp hmap
    rw [hsame a]
    exact hrange
  rw [RawCursor.set] at h
  split at h
  · exact hkeep h fun _ => rfl
  split at h
  · exact hkeep h fun _ => rfl
  split at h
  · exact hkeep h fun _ => rfl
  split at h
  · exact hkeep h fun _ => rfl
  split at h
  -- the size itself: a number out of range is refused
  · obtain ⟨size, hsize, rfl⟩ := Option.map_eq_some_iff.mp h
    intro n hn
    cases j with
    | num text =>
        obtain ⟨m, hm, rfl⟩ := Option.map_eq_some_iff.mp hsize
        cases hn
        exact of_decide_eq_true (Option.filter_eq_some_iff.mp hm).2
    | null =>
        cases hsize
        cases hn
    | bool b => cases hsize
    | str text => cases hsize
    | arr items => cases hsize
    | obj members => cases hsize
  split at h
  · exact hkeep h fun _ => rfl
  · cases h
    exact hrange

/-- A size that was read lies within the signed 64 bits. -/
theorem unmarshal_range {j : Json} {raw : RawCursor} (h : unmarshal j = some raw) :
    ∀ n ∈ raw.size, -2 ^ 63 ≤ n ∧ n < 2 ^ 63 := by
  have hfold : ∀ (members : List (List Char × Json)) (start : RawCursor),
      (∀ n ∈ start.size, -2 ^ 63 ≤ n ∧ n < 2 ^ 63) →
      members.foldlM (fun c m => c.set (unquote m.1) m.2) start = some raw →
      ∀ n ∈ raw.size, -2 ^ 63 ≤ n ∧ n < 2 ^ 63 := by
    intro members
    induction members with
    | nil =>
        intro start hstart hraw
        cases hraw
        exact hstart
    | cons m rest ih =>
        intro start hstart hraw
        rw [List.foldlM_cons] at hraw
        obtain ⟨next, hnext, hraw⟩ := Option.bind_eq_some_iff.mp hraw
        exact ih next (RawCursor.set_range hnext hstart) hraw
  have hblank : ∀ n ∈ ({} : RawCursor).size, -2 ^ 63 ≤ n ∧ n < 2 ^ 63 := by
    intro n hn
    cases hn
  -- only an object or `null` unmarshals into the struct
  cases j with
  | obj members => exact hfold members _ hblank h
  | null =>
      cases h
      exact hblank
  | bool b => cases h
  | num text => cases h
  | str text => cases h
  | arr items => cases h

/-- **Cursors** that are readable come back from their text, others are refused, and no
    text at all reads as a cursor that is not readable or has no `int64` size. -/
theorem explorer_cursor_round_trip :
    (∀ c, InRange c →
      (Readable c → decodeExplorerCursor (encodeExplorerCursor c) = some (some c))
        ∧ (¬ Readable c → decodeExplorerCursor (encodeExplorerCursor c) = none))
    ∧ ∀ value c, decodeExplorerCursor value = some (some c) →
        Readable c ∧ ∀ n ∈ c.size, -2 ^ 63 ≤ n ∧ n < 2 ^ 63 := by
  refine ⟨fun c hrange => ⟨fun hreadable => ?_, fun hreadable => ?_⟩, fun value c hdecode => ?_⟩
  · rw [decode_encode hrange, check_readable hreadable, Option.map_some]
  · rw [decode_encode hrange, check_unreadable hreadable, Option.map_none]
  · rw [decodeExplorerCursor] at hdecode
    split at hdecode
    · cases hdecode
    · obtain ⟨raw, -, hdecode⟩ := Option.bind_eq_some_iff.mp hdecode
      obtain ⟨json, -, hdecode⟩ := Option.bind_eq_some_iff.mp hdecode
      obtain ⟨fields, hfields, hdecode⟩ := Option.bind_eq_some_iff.mp hdecode
      obtain ⟨c', hcheck, heq⟩ := Option.map_eq_some_iff.mp hdecode
      cases heq
      obtain ⟨hreadable, hsize⟩ := readable_of_check hcheck
      rw [hsize]
      exact ⟨hreadable, unmarshal_range hfields⟩

/-- The cursor of a file of three bytes, and one without a name. -/
theorem explorer_cursor_round_trip_file :
    decodeExplorerCursor (encodeExplorerCursor ⟨.size, .asc, .file, "a \"b\".txt", some 3, none⟩)
        = some (some ⟨.size, .asc, .file, "a \"b\".txt", some 3, none⟩)
      ∧ decodeExplorerCursor (encodeExplorerCursor ⟨.name, .desc, .directory, "", none, none⟩)
          = none := by
  have hfile : InRange ⟨.size, .asc, .file, "a \"b\".txt", some 3, none⟩ := by
    refine ⟨fun n hn => ?_, fun t ht => ?_⟩
    · cases hn
      decide
    · cases ht
  have hdirectory : InRange ⟨.name, .desc, .directory, "", none, none⟩ := by
    refine ⟨fun n hn => ?_, fun t ht => ?_⟩
    · cases hn
    · cases ht
  refine ⟨(explorer_cursor_round_trip.1 _ hfile).1 ⟨by decide, fun _ _ => Option.some_ne_none _,
    fun _ hsort => ?_⟩, (explorer_cursor_round_trip.1 _ hdirectory).2 fun h => h.name rfl⟩
  cases hsort

end ExplorerEntries
