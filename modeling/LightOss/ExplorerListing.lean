import LightOss.ExplorerBatchDelete
import LightOss.ExplorerEntries
import LightOss.PathClean

/-! # Explorer listing — the folders and files right below a prefix

    `ListExplorerEntries` folds the keys below a prefix into one entry for each first
    segment, sorts the entries and cuts a page behind the cursor.  The entries do not
    depend on the order of the keys.  Following the cursors returns all of them once,
    unless a page that is not the last ends with the directory without a name: the
    decoder refuses its cursor.

    The maps of the loop are described by the objects seen so far (`Aggregated`); a key
    below a folder, a file and the prefix itself each keep this (`Aggregated.deep`,
    `Aggregated.file`, `addObject_other`), and the whole loop has it (`aggregated`).
    The sorted list is strictly in order (`sortedEntries_pairwise`), so the page behind
    a cursor begins where the last one ended (`listEntries_after`). -/

namespace ExplorerListing

open Fallible LedgerRows Catalog Validation ObjectKeys PathClean MetadataServices ObjectServices
open ExplorerEntries

variable {k : Collation} (toLower : Char → Char)

/-! ## `explorer.go` -/

def defaultExplorerLimit : Int := 100

structure ListExplorerEntriesInput where
  bucketName : String
  pfx : String
  search : String := ""
  limit : Int := 0
  cursor : String := ""
  sortBy : String := ""
  sortOrder : String := ""

structure ListExplorerEntriesOutput where
  items : List ExplorerEntry
  nextCursor : String
  deriving DecidableEq

/-- The two maps of the loop; each holds at most one entry of a name. -/
structure EntryMaps where
  directories : List ExplorerEntry := []
  files : List ExplorerEntry := []

/-- `entries[name]`. -/
def lookup (entries : List ExplorerEntry) (name : String) : Option ExplorerEntry :=
  entries.find? fun e => e.name == name

/-- `entries[entry.Name] = entry`. -/
def assign (entries : List ExplorerEntry) (entry : ExplorerEntry) : List ExplorerEntry :=
  entry :: entries.filter fun e => e.name != entry.name

/-- One turn of the loop over the objects. -/
def addObject (pfx : String) (maps : EntryMaps) (object : Object) : EntryMaps :=
  let relative := trimPrefix object.objectKey pfx
  if relative = "" then maps
  else
    match segments relative with
    | [] => maps
    | [name] =>
        if isFolderMarkerKey object.objectKey then maps
        else
          let entry : ExplorerEntry :=
            { type := .file, path := object.objectKey, name := name, object := some object }
          { maps with files := assign maps.files entry }
    | name :: rest =>
        -- a marker makes the directory an empty one unless something was seen before
        let isEmpty :=
          if rest = [folderMarkerFilename] then
            match lookup maps.directories name with
            | some entry => entry.isEmpty
            | none => true
          else false
        let entry : ExplorerEntry :=
          { type := .directory, path := pfx ++ name ++ "/", name := name, isEmpty := isEmpty }
        { maps with directories := assign maps.directories entry }

/-- `matchesExplorerSearch`: the search text was lowered when it was read. -/
def matchesExplorerSearch (name search : String) : Bool :=
  if search = "" then true else contains (lower toLower name) search

/-- The entries that match, in order. -/
def sortedEntries (objects : List Object) (pfx search : String) (sortBy : ExplorerSortBy)
    (sortOrder : ExplorerSortOrder) : List ExplorerEntry :=
  let maps := objects.foldl (addObject pfx) {}
  let entries := maps.directories.filter (fun e => matchesExplorerSearch toLower e.name search)
    ++ maps.files.filter fun e => matchesExplorerSearch toLower e.name search
  entries.mergeSort fun a b => (compareExplorerEntries toLower sortBy sortOrder a b).isLE

/-- The position of the first entry behind the cursor. -/
def startIndex (entries : List ExplorerEntry) (sortBy : ExplorerSortBy)
    (sortOrder : ExplorerSortOrder) : Option ExplorerCursor → Nat
  | none => 0
  | some cursor => entries.findIdx fun entry =>
      compareExplorerEntries toLower sortBy sortOrder entry (explorerCursorToEntry cursor) == .gt

/-- `ListExplorerEntries` on the objects its query returned, from the check of the limit
    on. -/
def listEntries (objects : List Object) (input : ListExplorerEntriesInput) :
    Except Err ListExplorerEntriesOutput := do
  let limit := if input.limit = 0 then defaultExplorerLimit else input.limit
  ensure (1 ≤ limit ∧ limit ≤ ExplorerBatchDelete.maxExplorerLimit)
    (invalidRequest "limit must be between 1 and 200")
  let sortBy ← orElseThrow (normalizeExplorerSortBy input.sortBy)
    (invalidRequest "sort_by must be name, size, or created_at")
  let sortOrder ← orElseThrow (normalizeExplorerSortOrder input.sortOrder)
    (invalidRequest "sort_order must be asc or desc")
  let cursor ← orElseThrow (decodeExplorerCursor input.cursor)
    (.app 400 "invalid_cursor" "cursor is invalid")
  ensure (∀ c ∈ cursor, c.sortBy = sortBy ∧ c.sortOrder = sortOrder)
    (.app 400 "invalid_cursor" "cursor is invalid")
  let search := lower toLower (trimSpace input.search)
  let entries := sortedEntries toLower objects input.pfx search sortBy sortOrder
  let entries := entries.drop (startIndex toLower entries sortBy sortOrder cursor)
  if limit.toNat < entries.length then
    let nextCursor := match entries[limit.toNat - 1]? with
      | some last => encodeExplorerCursor (explorerCursorFromEntry last sortBy sortOrder)
      | none => ""
    return { items := entries.take limit.toNat, nextCursor := nextCursor }
  else return { items := entries, nextCursor := "" }

/-- The pages of one traversal and the cursor to ask with next, unless it has ended. -/
structure Traversal where
  pages : List (List ExplorerEntry)
  pending : Option String

/-- At most so many requests, each with the cursor of the page before. -/
def follow (objects : List Object) (input : ListExplorerEntriesInput) :
    Nat → String → Except Err Traversal
  | 0, cursor => .ok { pages := [], pending := some cursor }
  | n + 1, cursor => do
      let output ← listEntries toLower objects { input with cursor := cursor }
      if output.nextCursor = "" then return { pages := [output.items], pending := none }
      else do
        let traversal ← follow objects input n output.nextCursor
        return { traversal with pages := output.items :: traversal.pages }

/-! ## First segments -/

/-- The first segment behind the prefix, of a key that has more. -/
def deepSegment (pfx : String) (o : Object) : Option String :=
  match segments (trimPrefix o.objectKey pfx) with
  | name :: _ :: _ => some name
  | _ => none

/-- A key of one segment behind the prefix that is no folder marker. -/
def isFile (pfx : String) (o : Object) : Bool :=
  trimPrefix o.objectKey pfx != "" && (segments (trimPrefix o.objectKey pfx)).length == 1
    && !isFolderMarkerKey o.objectKey

/-- The key of the marker of a folder right below the prefix. -/
def markerKey (pfx name : String) : String := pfx ++ name ++ "/" ++ folderMarkerFilename

variable {pfx : String} {o : Object}

/-- The first segment ends at the first slash. -/
theorem segments_cut {name : String} (hfree : '/' ∉ name.toList) (rest : String) :
    segments (name ++ "/" ++ rest) = name :: segments rest := by
  rw [segments_join, segments_of_free hfree]
  rfl

/-- A key below the prefix is the prefix and its relative part. -/
theorem relative_of_hasPrefix {key : String} (h : hasPrefix key pfx = true) :
    key = pfx ++ trimPrefix key pfx := by
  obtain ⟨rest, hrest⟩ := hasPrefix_iff.mp h
  have hkey : key = pfx ++ String.ofList rest := by
    rw [← String.toList_inj, String.toList_append, String.toList_ofList]
    exact hrest.symm
  rw [hkey, trimPrefix_append]

/-- A text of two segments or more, cut behind the first. -/
theorem join_cut {name next : String} {rest : List String} {s : String}
    (h : segments s = name :: next :: rest) :
    s = name ++ "/" ++ joinSegments (next :: rest) ∧ '/' ∉ name.toList := by
  refine ⟨?_, free_of_mem_segments (h ▸ List.mem_cons_self)⟩
  rw [← joinSegments_cons name (List.cons_ne_nil next rest), ← h, joinSegments_segments]

/-- The deep keys, read off the key itself. -/
theorem deepSegment_iff (hpfx : hasPrefix o.objectKey pfx = true) {name : String} :
    deepSegment pfx o = some name
      ↔ '/' ∉ name.toList ∧ ∃ rest, o.objectKey = pfx ++ name ++ "/" ++ rest := by
  have hkey := relative_of_hasPrefix hpfx
  constructor
  · intro h
    rw [deepSegment] at h
    split at h
    · next name' next rest hsegs =>
        cases h
        obtain ⟨hcut, hfree⟩ := join_cut hsegs
        refine ⟨hfree, joinSegments (next :: rest), ?_⟩
        rw [hkey, hcut]
        simp only [String.append_assoc]
    · cases h
  · rintro ⟨hfree, rest, hrest⟩
    have hrelative : trimPrefix o.objectKey pfx = name ++ "/" ++ rest := by
      have hassoc : pfx ++ name ++ "/" ++ rest = pfx ++ (name ++ "/" ++ rest) := by
        simp only [String.append_assoc]
      rw [hrest, hassoc, trimPrefix_append]
    obtain ⟨next, more, hmore⟩ := List.exists_cons_of_ne_nil (segments_ne_nil rest)
    rw [deepSegment, hrelative, segments_cut hfree, hmore]

/-- The files, read off the key itself. -/
theorem isFile_iff (hpfx : hasPrefix o.objectKey pfx = true) :
    isFile pfx o = true ↔ ∃ name, name ≠ "" ∧ '/' ∉ name.toList ∧ o.objectKey = pfx ++ name
      ∧ isFolderMarkerKey o.objectKey = false := by
  have hkey := relative_of_hasPrefix hpfx
  rw [isFile, Bool.and_eq_true, Bool.and_eq_true, bne_iff_ne, beq_iff_eq, Bool.not_eq_true']
  constructor
  · rintro ⟨⟨hne, hone⟩, hmarker⟩
    obtain ⟨name, hsegs⟩ := List.length_eq_one_iff.mp hone
    have hjoin := joinSegments_segments (trimPrefix o.objectKey pfx)
    have hname : trimPrefix o.objectKey pfx = name := by
      rw [← hjoin, hsegs, joinSegments, List.map_singleton, List.intercalate_singleton,
        String.ofList_toList]
    rw [hname] at hne hkey hsegs
    exact ⟨name, hne, free_of_mem_segments (hsegs ▸ List.mem_cons_self), hkey, hmarker⟩
  · rintro ⟨name, hne, hfree, hname, hmarker⟩
    rw [hname, trimPrefix_append, segments_of_free hfree]
    exact ⟨⟨hne, rfl⟩, hname ▸ hmarker⟩

/-! ## The maps after the loop -/

/-- The entry of a directory: empty when every key under it is its own marker. -/
def directoryEntry (pfx : String) (objects : List Object) (name : String) : ExplorerEntry where
  type := .directory
  path := pfx ++ name ++ "/"
  name := name
  isEmpty :=
    objects.all fun o => deepSegment pfx o != some name || o.objectKey == markerKey pfx name

/-- The entry of an object right below the prefix. -/
def fileEntry (pfx : String) (o : Object) : ExplorerEntry where
  type := .file
  path := o.objectKey
  name := trimPrefix o.objectKey pfx
  object := some o

/-- What the maps hold after the objects seen. -/
structure Aggregated (pfx : String) (seen : List Object) (maps : EntryMaps) : Prop where
  directories : ∀ e, e ∈ maps.directories
    ↔ ∃ name, (∃ o ∈ seen, deepSegment pfx o = some name) ∧ e = directoryEntry pfx seen name
  files : ∀ e, e ∈ maps.files ↔ ∃ o ∈ seen, isFile pfx o = true ∧ e = fileEntry pfx o
  directoryNames : (maps.directories.map (·.name)).Nodup
  fileNames : (maps.files.map (·.name)).Nodup

/-- Assigning to a name replaces the entry of that name. -/
theorem mem_assign {entries : List ExplorerEntry} {entry e : ExplorerEntry} :
    e ∈ assign entries entry ↔ e = entry ∨ (e ∈ entries ∧ e.name ≠ entry.name) := by
  rw [assign, List.mem_cons, List.mem_filter, bne_iff_ne]

theorem assign_nodup {entries : List ExplorerEntry} (h : (entries.map (·.name)).Nodup)
    (entry : ExplorerEntry) : ((assign entries entry).map (·.name)).Nodup := by
  rw [assign, List.map_cons, List.nodup_cons]
  refine ⟨fun hmem => ?_, h.sublist (List.filter_sublist.map _)⟩
  obtain ⟨e, he, hname⟩ := List.mem_map.mp hmem
  exact bne_iff_ne.mp (List.mem_filter.mp he).2 hname

/-- A directory stays empty as long as only its marker was seen. -/
def reopened (pfx name : String) (directories : List ExplorerEntry) (o : Object) :
    ExplorerEntry where
  type := .directory
  path := pfx ++ name ++ "/"
  name := name
  isEmpty := o.objectKey == markerKey pfx name
    && ((lookup directories name).map (·.isEmpty)).getD true

/-- The loop's turn at a key with more than one segment. -/
theorem addObject_deep (hpfx : hasPrefix o.objectKey pfx = true) (maps : EntryMaps) {name : String}
    (h : deepSegment pfx o = some name) :
    addObject pfx maps o
      = { maps with
          directories := assign maps.directories (reopened pfx name maps.directories o) } := by
  have hkey := relative_of_hasPrefix hpfx
  rw [deepSegment] at h
  split at h
  · next name' next rest hsegs =>
      cases h
      obtain ⟨hcut, hfree⟩ := join_cut hsegs
      have hne : trimPrefix o.objectKey pfx ≠ "" := by
        intro hempty
        rw [hempty, segments_of_free List.not_mem_nil] at hsegs
        cases hsegs
      -- the loop tests the rest of the key, the entry the whole of it
      have hmarker : next :: rest = [folderMarkerFilename] ↔ o.objectKey = markerKey pfx name := by
        constructor
        · intro hrest
          rw [hkey, hcut, hrest, joinSegments, List.map_singleton, List.intercalate_singleton,
            String.ofList_toList, markerKey]
          simp only [String.append_assoc]
        · intro hmarker
          have hrelative : trimPrefix o.objectKey pfx = name ++ "/" ++ folderMarkerFilename := by
            have hassoc : markerKey pfx name = pfx ++ (name ++ "/" ++ folderMarkerFilename) := by
              simp only [markerKey, String.append_assoc]
            rw [hmarker, hassoc, trimPrefix_append]
          rw [hrelative, segments_cut hfree, segments_of_free (by decide)] at hsegs
          exact (List.cons.inj hsegs).2.symm
      rw [addObject, if_neg hne, hsegs]
      have hempty : (if next :: rest = [folderMarkerFilename] then
          ((lookup maps.directories name).map (·.isEmpty)).getD true else false)
          = (o.objectKey == markerKey pfx name
            && ((lookup maps.directories name).map (·.isEmpty)).getD true) := by
        split
        · next hrest => rw [beq_iff_eq.mpr (hmarker.mp hrest), Bool.true_and]
        · next hrest =>
            rw [beq_eq_false_iff_ne.mpr fun heq => hrest (hmarker.mpr heq), Bool.false_and]
      rw [reopened, ← hempty]
      dsimp only
      cases lookup maps.directories name <;> rfl
  · cases h

/-- The loop's turn at a file. -/
theorem addObject_file (maps : EntryMaps) (h : isFile pfx o = true) :
    addObject pfx maps o = { maps with files := assign maps.files (fileEntry pfx o) } := by
  rw [isFile, Bool.and_eq_true, Bool.and_eq_true, bne_iff_ne, beq_iff_eq, Bool.not_eq_true'] at h
  obtain ⟨⟨hne, hone⟩, hmarker⟩ := h
  obtain ⟨name, hsegs⟩ := List.length_eq_one_iff.mp hone
  have hname : trimPrefix o.objectKey pfx = name := by
    rw [← joinSegments_segments (trimPrefix o.objectKey pfx), hsegs, joinSegments,
      List.map_singleton, List.intercalate_singleton, String.ofList_toList]
  rw [addObject, if_neg hne, hsegs]
  dsimp only
  rw [if_neg (Bool.eq_false_iff.mp hmarker), fileEntry, hname]

/-- The loop's turn at the prefix itself and at its own marker. -/
theorem addObject_other (maps : EntryMaps) (hdeep : deepSegment pfx o = none)
    (hfile : isFile pfx o = false) : addObject pfx maps o = maps := by
  rw [addObject]
  split
  · rfl
  · next hne =>
      rw [deepSegment] at hdeep
      rw [isFile] at hfile
      cases hsegs : segments (trimPrefix o.objectKey pfx) with
      | nil => rfl
      | cons name more =>
          rw [hsegs] at hdeep hfile
          cases more with
          | nil =>
              dsimp only
              refine if_pos ?_
              rw [bne_iff_ne.mpr hne] at hfile
              simpa using hfile
          | cons next rest => cases hdeep

/-- Another key leaves the other directories as they are. -/
theorem directoryEntry_concat (pfx : String) (seen : List Object) (o : Object) {name : String}
    (h : deepSegment pfx o ≠ some name) :
    directoryEntry pfx (seen ++ [o]) name = directoryEntry pfx seen name := by
  rw [directoryEntry, directoryEntry, List.all_append, List.all_cons, List.all_nil, Bool.and_true,
    bne_iff_ne.mpr h, Bool.true_or, Bool.and_true]

/-- The flag of a directory in the map: all that was seen below it is its marker. -/
theorem lookup_directory {seen : List Object} {maps : EntryMaps} (h : Aggregated pfx seen maps)
    (name : String) : ((lookup maps.directories name).map (·.isEmpty)).getD true
      = seen.all fun o => deepSegment pfx o != some name || o.objectKey == markerKey pfx name := by
  cases hfind : lookup maps.directories name with
  | none =>
      refine (List.all_eq_true.mpr fun o ho => ?_).symm
      rw [Bool.or_eq_true, bne_iff_ne]
      refine Or.inl fun hdeep => ?_
      have hmem := (h.directories _).mpr ⟨name, ⟨o, ho, hdeep⟩, rfl⟩
      exact List.find?_eq_none.mp hfind _ hmem (beq_self_eq_true name)
  | some e =>
      obtain ⟨name', -, heq⟩ := (h.directories e).mp (List.mem_of_find?_eq_some hfind)
      have hname := List.find?_some hfind
      rw [beq_iff_eq, heq] at hname
      rw [heq, ← hname]
      rfl

/-- One more key that is no file. -/
theorem files_concat {seen : List Object} (hfile : isFile pfx o = false) (e : ExplorerEntry) :
    (∃ a ∈ seen, isFile pfx a = true ∧ e = fileEntry pfx a)
      ↔ ∃ a ∈ seen ++ [o], isFile pfx a = true ∧ e = fileEntry pfx a := by
  constructor
  · rintro ⟨a, ha, hrest⟩
    exact ⟨a, List.mem_append_left _ ha, hrest⟩
  · rintro ⟨a, ha, hisFile, hrest⟩
    rcases List.mem_append.mp ha with ha | ha
    · exact ⟨a, ha, hisFile, hrest⟩
    · rw [List.mem_singleton.mp ha, hfile] at hisFile
      exact absurd hisFile Bool.false_ne_true

/-- One more directory key. -/
theorem Aggregated.deep {seen : List Object} {maps : EntryMaps} (h : Aggregated pfx seen maps)
    (hpfx : hasPrefix o.objectKey pfx = true) {name : String}
    (hdeep : deepSegment pfx o = some name)
    (hfile : isFile pfx o = false) : Aggregated pfx (seen ++ [o]) (addObject pfx maps o) := by
  have hentry : reopened pfx name maps.directories o = directoryEntry pfx (seen ++ [o]) name := by
    rw [reopened, directoryEntry, lookup_directory h, List.all_append, List.all_cons, List.all_nil,
      Bool.and_true, hdeep, bne_self_eq_false, Bool.false_or, Bool.and_comm]
  rw [addObject_deep hpfx maps hdeep, hentry]
  refine ⟨fun e => ?_, fun e => ?_, assign_nodup h.directoryNames _, h.fileNames⟩
  · rw [mem_assign, h.directories]
    constructor
    -- the folder of the new key, or one known before
    · rintro (rfl | ⟨⟨name', ⟨a, ha, hsegment⟩, rfl⟩, hne⟩)
      · exact ⟨name, ⟨o, List.mem_append_right _ List.mem_cons_self, hdeep⟩, rfl⟩
      · have hother : deepSegment pfx o ≠ some name' := by
          rw [hdeep]
          exact fun heq => hne (Option.some_inj.mp heq).symm
        exact ⟨name', ⟨a, List.mem_append_left _ ha, hsegment⟩,
          (directoryEntry_concat pfx seen o hother).symm⟩
    · rintro ⟨name', ⟨a, ha, hsegment⟩, rfl⟩
      by_cases hsame : name' = name
      · exact Or.inl (by rw [hsame])
      · have hother : deepSegment pfx o ≠ some name' := by
          rw [hdeep]
          exact fun heq => hsame (Option.some_inj.mp heq).symm
        have ha : a ∈ seen := by
          rcases List.mem_append.mp ha with ha | ha
          · exact ha
          · rw [List.mem_singleton.mp ha] at hsegment
            exact absurd hsegment hother
        exact Or.inr ⟨⟨name', ⟨a, ha, hsegment⟩, directoryEntry_concat pfx seen o hother⟩, hsame⟩
  · rw [h.files]
    exact files_concat hfile e

/-- One more key that is in no directory. -/
theorem directories_concat {seen : List Object} {maps : EntryMaps} (h : Aggregated pfx seen maps)
    (hdeep : deepSegment pfx o = none) (e : ExplorerEntry) : e ∈ maps.directories
      ↔ ∃ name, (∃ a ∈ seen ++ [o], deepSegment pfx a = some name)
        ∧ e = directoryEntry pfx (seen ++ [o]) name := by
  have hnot : ∀ name, deepSegment pfx o ≠ some name := by
    intro name
    rw [hdeep]
    exact (Option.some_ne_none name).symm
  rw [h.directories]
  refine exists_congr fun name => ?_
  rw [directoryEntry_concat pfx seen o (hnot name)]
  refine and_congr_left fun _ => ⟨?_, ?_⟩
  · rintro ⟨a, ha, hsegment⟩
    exact ⟨a, List.mem_append_left _ ha, hsegment⟩
  · rintro ⟨a, ha, hsegment⟩
    rcases List.mem_append.mp ha with ha | ha
    · exact ⟨a, ha, hsegment⟩
    · rw [List.mem_singleton.mp ha] at hsegment
      exact absurd hsegment (hnot name)

/-- One more file; no other file has its key. -/
theorem Aggregated.file {seen : List Object} {maps : EntryMaps} (h : Aggregated pfx seen maps)
    (hprefixes : ∀ a ∈ seen ++ [o], hasPrefix a.objectKey pfx = true)
    (hnew : ∀ a ∈ seen, a.objectKey ≠ o.objectKey) (hdeep : deepSegment pfx o = none)
    (hfile : isFile pfx o = true) : Aggregated pfx (seen ++ [o]) (addObject pfx maps o) := by
  have hdirectories := directories_concat h hdeep
  rw [addObject_file maps hfile]
  refine ⟨hdirectories, fun e => ?_, h.directoryNames, assign_nodup h.fileNames _⟩
  rw [mem_assign, h.files]
  constructor
  · rintro (rfl | ⟨⟨a, ha, hisFile, rfl⟩, -⟩)
    · exact ⟨o, List.mem_append_right _ List.mem_cons_self, hfile, rfl⟩
    · exact ⟨a, List.mem_append_left _ ha, hisFile, rfl⟩
  · rintro ⟨a, ha, hisFile, rfl⟩
    rcases List.mem_append.mp ha with hseen | ha
    · refine Or.inr ⟨⟨a, hseen, hisFile, rfl⟩, fun hname => hnew a hseen ?_⟩
      rw [relative_of_hasPrefix (hprefixes a ha), relative_of_hasPrefix (hprefixes o
        (List.mem_append_right _ List.mem_cons_self))]
      exact congrArg (pfx ++ ·) hname
    · exact Or.inl (by rw [List.mem_singleton.mp ha])

/-- **The maps** after the whole loop. -/
theorem aggregated {objects : List Object} (hkeys : (objects.map (·.objectKey)).Nodup)
    (hprefixes : ∀ o ∈ objects, hasPrefix o.objectKey pfx = true) :
    Aggregated pfx objects (objects.foldl (addObject pfx) {}) := by
  induction objects using List.reverseRecOn with
  | nil =>
      refine ⟨fun e => ⟨fun he => absurd he List.not_mem_nil, ?_⟩,
        fun e => ⟨fun he => absurd he List.not_mem_nil, ?_⟩, List.nodup_nil, List.nodup_nil⟩
      · rintro ⟨_, ⟨o, ho, -⟩, -⟩
        exact absurd ho List.not_mem_nil
      · rintro ⟨o, ho, -⟩
        exact absurd ho List.not_mem_nil
  | append_singleton seen o ih =>
      rw [List.map_append, List.nodup_append] at hkeys
      have h := ih hkeys.1 fun a ha => hprefixes a (List.mem_append_left _ ha)
      have hpfx := hprefixes o (List.mem_append_right _ List.mem_cons_self)
      rw [List.foldl_append, List.foldl_cons, List.foldl_nil]
      -- a key in a folder, a file, or neither
      cases hdeep : deepSegment pfx o with
      | some name =>
          refine h.deep hpfx hdeep ?_
          -- a key has one segment or more
          rw [isFile]
          rw [deepSegment] at hdeep
          split at hdeep
          · next hsegs => rw [hsegs]; simp
          · cases hdeep
      | none =>
          cases hfile : isFile pfx o with
          | true =>
              refine h.file hprefixes (fun a ha heq => ?_) hdeep hfile
              exact hkeys.2.2 _ (List.mem_map_of_mem ha) _
                (List.mem_map_of_mem List.mem_cons_self) heq
          | false =>
              rw [addObject_other _ hdeep hfile]
              refine ⟨directories_concat h hdeep, fun e => ?_, h.directoryNames, h.fileNames⟩
              rw [h.files]
              exact files_concat hfile e

/-! ## The sorted entries -/

section Sorted

variable {toLower : Char → Char} {objects : List Object} {search : String}
variable {sortBy : ExplorerSortBy} {sortOrder : ExplorerSortOrder}

/-- Objects with distinct keys below the prefix. -/
structure Below (pfx : String) (objects : List Object) : Prop where
  keys : (objects.map (·.objectKey)).Nodup
  prefixes : ∀ o ∈ objects, hasPrefix o.objectKey pfx = true

/-- What the query returns: sizes and times are such as their columns hold. -/
structure Rows (pfx : String) (objects : List Object) : Prop extends Below pfx objects where
  sizes : ∀ o ∈ objects, -2 ^ 63 ≤ o.size ∧ o.size < 2 ^ 63
  times : ∀ o ∈ objects, 0 ≤ Rfc3339.year o.createdAt ∧ Rfc3339.year o.createdAt ≤ 9999

/-- **What the sorted list holds**: a directory for each first segment, a file for each
    object without one. -/
theorem mem_sortedEntries (h : Below pfx objects) {e : ExplorerEntry} :
    e ∈ sortedEntries toLower objects pfx search sortBy sortOrder
      ↔ matchesExplorerSearch toLower e.name search = true
        ∧ ((∃ name, (∃ o ∈ objects, deepSegment pfx o = some name)
            ∧ e = directoryEntry pfx objects name)
          ∨ ∃ o ∈ objects, isFile pfx o = true ∧ e = fileEntry pfx o) := by
  have hmaps := aggregated h.keys h.prefixes
  rw [sortedEntries, List.mem_mergeSort, List.mem_append, List.mem_filter, List.mem_filter,
    hmaps.directories, hmaps.files, ← or_and_right, and_comm]

/-- Every listed entry is a directory or a file as `Proper` says. -/
theorem proper_of_mem (h : Below pfx objects) {e : ExplorerEntry}
    (he : e ∈ sortedEntries toLower objects pfx search sortBy sortOrder) : Proper e := by
  rcases ((mem_sortedEntries h).mp he).2 with ⟨name, -, rfl⟩ | ⟨o, -, -, rfl⟩
  · exact ⟨fun hsome => absurd hsome Bool.false_ne_true, fun htype => by cases htype⟩
  · exact ⟨fun _ => rfl, fun _ => rfl⟩

/-- The cursor of a listed entry can be printed and read back. -/
theorem inRange_of_mem (h : Rows pfx objects) {e : ExplorerEntry}
    (he : e ∈ sortedEntries toLower objects pfx search sortBy sortOrder) :
    InRange (explorerCursorFromEntry e sortBy sortOrder) := by
  rcases ((mem_sortedEntries h.toBelow).mp he).2 with ⟨name, -, rfl⟩ | ⟨o, ho, -, rfl⟩
  · refine ⟨fun n hn => ?_, fun t ht => ?_⟩
    · cases hn
    · cases ht
  · cases sortBy with
    | name =>
        refine ⟨fun n hn => ?_, fun t ht => ?_⟩
        · cases hn
        · cases ht
    | size =>
        refine ⟨fun n hn => ?_, fun t ht => ?_⟩
        · cases hn
          exact h.sizes o ho
        · cases ht
    | createdAt =>
        refine ⟨fun n hn => ?_, fun t ht => ?_⟩
        · cases hn
        · cases ht
          exact h.times o ho

/-- No two entries have the same type and name. -/
theorem entries_distinct (h : Below pfx objects) :
    (sortedEntries toLower objects pfx search sortBy sortOrder).Pairwise
      fun a b => ¬ (a.type = b.type ∧ a.name = b.name) := by
  have hmaps := aggregated h.keys h.prefixes
  have hnames : ∀ {entries : List ExplorerEntry}, (entries.map (·.name)).Nodup →
      (entries.filter fun e => matchesExplorerSearch toLower e.name search).Pairwise
        fun a b => ¬ (a.type = b.type ∧ a.name = b.name) := by
    intro entries hnodup
    refine (List.pairwise_map.mp hnodup).sublist List.filter_sublist |>.imp ?_
    exact fun hne hsame => hne hsame.2
  rw [sortedEntries]
  refine (List.mergeSort_perm _ _).symm.pairwise ?_ fun hne hsame =>
    hne ⟨hsame.1.symm, hsame.2.symm⟩
  refine List.pairwise_append.mpr ⟨hnames hmaps.directoryNames, hnames hmaps.fileNames, ?_⟩
  intro a ha b hb hsame
  obtain ⟨name, -, rfl⟩ := (hmaps.directories a).mp (List.mem_filter.mp ha).1
  obtain ⟨o, -, -, rfl⟩ := (hmaps.files b).mp (List.mem_filter.mp hb).1
  cases hsame.1

/-- **In order**: every entry is before the next, strictly. -/
theorem sortedEntries_pairwise (h : Below pfx objects) :
    (sortedEntries toLower objects pfx search sortBy sortOrder).Pairwise
      fun a b => compareExplorerEntries toLower sortBy sortOrder a b = .lt := by
  have htrans : ∀ a b d, (compareExplorerEntries toLower sortBy sortOrder a b).isLE = true →
      (compareExplorerEntries toLower sortBy sortOrder b d).isLE = true →
      (compareExplorerEntries toLower sortBy sortOrder a d).isLE = true :=
    fun _ _ _ hab hbd => Std.TransCmp.isLE_trans hab hbd
  have htotal : ∀ a b, ((compareExplorerEntries toLower sortBy sortOrder a b).isLE
      || (compareExplorerEntries toLower sortBy sortOrder b a).isLE) = true := by
    intro a b
    rw [compare_swap a b]
    cases compareExplorerEntries toLower sortBy sortOrder a b <;> rfl
  have hle := List.pairwise_mergeSort htrans htotal
    ((objects.foldl (addObject pfx) {}).directories.filter
        (fun e => matchesExplorerSearch toLower e.name search)
      ++ (objects.foldl (addObject pfx) {}).files.filter
        fun e => matchesExplorerSearch toLower e.name search)
  refine (hle.and (entries_distinct h)).imp fun {a b} hab => ?_
  have hisLE := hab.1
  cases hcmp : compareExplorerEntries toLower sortBy sortOrder a b with
  | lt => rfl
  | eq => exact absurd (same_of_tie hcmp) hab.2
  | gt =>
      rw [hcmp] at hisLE
      cases hisLE

/-- The order in which the objects arrive is of no account. -/
theorem sortedEntries_perm (h : Below pfx objects) {objects' : List Object}
    (hperm : objects'.Perm objects) :
    sortedEntries toLower objects' pfx search sortBy sortOrder
      = sortedEntries toLower objects pfx search sortBy sortOrder := by
  have h' : Below pfx objects' :=
    ⟨(hperm.map _).nodup_iff.mpr h.keys, fun o ho => h.prefixes o (hperm.mem_iff.mp ho)⟩
  have hnodup : ∀ {entries : List ExplorerEntry}, (entries.Pairwise fun a b =>
      compareExplorerEntries toLower sortBy sortOrder a b = .lt) → entries.Nodup := by
    intro entries hlt
    refine hlt.imp fun {a b} hab heq => ?_
    rw [heq] at hab
    exact compare_irrefl b hab
  have hentry : ∀ name, directoryEntry pfx objects' name = directoryEntry pfx objects name := by
    intro name
    rw [directoryEntry, directoryEntry, hperm.all_eq]
  refine List.Perm.eq_of_pairwise (fun a b _ _ hab hba => ?_) (sortedEntries_pairwise h')
    (sortedEntries_pairwise h) ?_
  · rw [compare_asymm hba] at hab
    cases hab
  · refine (List.perm_ext_iff_of_nodup (hnodup (sortedEntries_pairwise h'))
      (hnodup (sortedEntries_pairwise h))).mpr fun e => ?_
    rw [mem_sortedEntries h', mem_sortedEntries h]
    simp only [hperm.mem_iff, hentry]

/-! ## One page -/

variable {input : ListExplorerEntriesInput} {limit : Nat}

/-- The request passes the checks of limit and order. -/
structure PageRequest (input : ListExplorerEntriesInput) (limit : Nat) (sortBy : ExplorerSortBy)
    (sortOrder : ExplorerSortOrder) : Prop where
  limit_eq : (if input.limit = 0 then defaultExplorerLimit else input.limit) = limit
  range : 1 ≤ limit ∧ limit ≤ ExplorerBatchDelete.maxExplorerLimit
  sortBy_eq : normalizeExplorerSortBy input.sortBy = some sortBy
  sortOrder_eq : normalizeExplorerSortOrder input.sortOrder = some sortOrder

/-- What the request lists, over all pages. -/
def listed (toLower : Char → Char) (objects : List Object) (input : ListExplorerEntriesInput)
    (sortBy : ExplorerSortBy) (sortOrder : ExplorerSortOrder) : List ExplorerEntry :=
  sortedEntries toLower objects input.pfx (lower toLower (trimSpace input.search)) sortBy sortOrder

/-- The page that begins with the entries, and the cursor behind it. -/
def pageOf (limit : Nat) (sortBy : ExplorerSortBy) (sortOrder : ExplorerSortOrder)
    (entries : List ExplorerEntry) : ListExplorerEntriesOutput :=
  if limit < entries.length then
    { items := entries.take limit
      nextCursor := match entries[limit - 1]? with
        | some last => encodeExplorerCursor (explorerCursorFromEntry last sortBy sortOrder)
        | none => "" }
  else { items := entries, nextCursor := "" }

/-- The cursor behind the entries. -/
def cursorAfter (sortBy : ExplorerSortBy) (sortOrder : ExplorerSortOrder)
    (entries : List ExplorerEntry) : String :=
  match entries.getLast? with
  | some last => encodeExplorerCursor (explorerCursorFromEntry last sortBy sortOrder)
  | none => ""

/-- For a request that was read, the answer is the page behind the cursor. -/
theorem listEntries_eq (hrequest : PageRequest input limit sortBy sortOrder)
    {cursor : Option ExplorerCursor} (hcursor : decodeExplorerCursor input.cursor = some cursor)
    (hsame : ∀ c ∈ cursor, c.sortBy = sortBy ∧ c.sortOrder = sortOrder) :
    listEntries toLower objects input = .ok (pageOf limit sortBy sortOrder
      ((listed toLower objects input sortBy sortOrder).drop
        (startIndex toLower (listed toLower objects input sortBy sortOrder) sortBy sortOrder
            cursor))) := by
  obtain ⟨hlimit, hrange, hsortBy, hsortOrder⟩ := hrequest
  have hbounds : 1 ≤ (limit : Int) ∧ (limit : Int) ≤ ExplorerBatchDelete.maxExplorerLimit := by
    omega
  rw [listEntries, hlimit]
  refine bind_eq_ok.mpr ⟨(), ensure_eq_ok.mpr hbounds, ?_⟩
  refine bind_eq_ok.mpr ⟨sortBy, orElseThrow_eq_ok.mpr hsortBy, ?_⟩
  refine bind_eq_ok.mpr ⟨sortOrder, orElseThrow_eq_ok.mpr hsortOrder, ?_⟩
  refine bind_eq_ok.mpr ⟨cursor, orElseThrow_eq_ok.mpr hcursor, ?_⟩
  refine bind_eq_ok.mpr ⟨(), ensure_eq_ok.mpr hsame, ?_⟩
  rw [Int.toNat_natCast]
  dsimp only [listed]
  split
  · next hmore => exact congrArg Except.ok (if_pos hmore).symm
  · next hless => exact congrArg Except.ok (if_neg hless).symm

/-- A cursor the decoder refuses. -/
theorem listEntries_refused (hrequest : PageRequest input limit sortBy sortOrder)
    (hcursor : decodeExplorerCursor input.cursor = none) :
    listEntries toLower objects input = .error (.app 400 "invalid_cursor" "cursor is invalid") := by
  obtain ⟨hlimit, hrange, hsortBy, hsortOrder⟩ := hrequest
  have hbounds : 1 ≤ (limit : Int) ∧ (limit : Int) ≤ ExplorerBatchDelete.maxExplorerLimit := by
    omega
  rw [listEntries, hlimit, hsortBy, hsortOrder, hcursor, ensure, if_pos hbounds]
  rfl

/-- In a list in order, what stands behind an entry begins behind its cursor. -/
theorem drop_startIndex {front back : List ExplorerEntry} {e : ExplorerEntry}
    (hsorted : (front ++ e :: back).Pairwise
      fun a b => compareExplorerEntries toLower sortBy sortOrder a b = .lt) (he : Proper e) :
    (front ++ e :: back).drop (startIndex toLower (front ++ e :: back) sortBy sortOrder
      (some (explorerCursorFromEntry e sortBy sortOrder))) = back := by
  obtain ⟨-, htail, hcross⟩ := List.pairwise_append.mp hsorted
  have hbehind := (List.pairwise_cons.mp htail).1
  have hindex : startIndex toLower (front ++ e :: back) sortBy sortOrder
      (some (explorerCursorFromEntry e sortBy sortOrder))
      = (front ++ e :: back).findIdx
        fun a => !(compareExplorerEntries toLower sortBy sortOrder a e != .gt) := by
    rw [startIndex]
    refine congrArg (fun q => List.findIdx q (front ++ e :: back)) (funext fun a => ?_)
    rw [compare_cursor he, bne, Bool.not_not]
  rw [hindex, ← List.dropWhile_eq_drop_findIdx_not, List.dropWhile_append_of_pos,
    List.dropWhile_cons_of_pos]
  · cases back with
    | nil => rfl
    | cons b more =>
        refine List.dropWhile_cons_of_neg ?_
        rw [compare_asymm (hbehind b List.mem_cons_self)]
        decide
  · have hself : compareExplorerEntries toLower sortBy sortOrder e e = .eq :=
      Std.ReflCmp.compare_self
    rw [hself]
    rfl
  · intro a ha
    rw [hcross a ha e List.mem_cons_self]
    rfl

/-- **The page behind a cursor**: the request that goes on behind entries gets the page
    of what is left, unless the last of them has no name. -/
theorem listEntries_after (h : Rows input.pfx objects)
    (hrequest : PageRequest input limit sortBy sortOrder)
    {front rest : List ExplorerEntry}
    (hsplit : listed toLower objects input sortBy sortOrder = front ++ rest) :
    listEntries toLower objects { input with cursor := cursorAfter sortBy sortOrder front }
      = if (front.getLast?.any fun e => e.name == "") = true then
          .error (.app 400 "invalid_cursor" "cursor is invalid")
        else .ok (pageOf limit sortBy sortOrder rest) := by
  have hrequest' : PageRequest { input with cursor := cursorAfter sortBy sortOrder front } limit
      sortBy sortOrder :=
    ⟨hrequest.limit_eq, hrequest.range, hrequest.sortBy_eq, hrequest.sortOrder_eq⟩
  have hlisted : listed toLower objects { input with cursor := cursorAfter sortBy sortOrder front }
      sortBy sortOrder = front ++ rest := hsplit
  rcases List.eq_nil_or_concat front with rfl | ⟨init, e, rfl⟩
  -- the first page has no cursor
  · have hnone : decodeExplorerCursor (cursorAfter sortBy sortOrder []) = some none := by
      have hblank : cursorAfter sortBy sortOrder [] = "" := rfl
      rw [hblank]
      exact if_pos (by decide)
    rw [listEntries_eq hrequest' hnone fun c hc => by cases hc]
    rw [hlisted]
    rfl
  · rw [List.concat_eq_append] at hlisted hsplit hrequest' ⊢
    have hmem : e ∈ listed toLower objects input sortBy sortOrder := by
      rw [hsplit]
      exact List.mem_append_left _ (List.mem_append_right _ List.mem_cons_self)
    have hcursor : cursorAfter sortBy sortOrder (init ++ [e])
        = encodeExplorerCursor (explorerCursorFromEntry e sortBy sortOrder) := by
      rw [cursorAfter, List.getLast?_concat]
    have hdecode := decode_cursor (proper_of_mem h.toBelow hmem) (inRange_of_mem h hmem)
    rw [← hcursor] at hdecode
    rw [List.getLast?_concat]
    -- the cursor of a nameless entry is refused
    by_cases hname : e.name = ""
    · rw [if_pos hname] at hdecode
      rw [listEntries_refused hrequest' hdecode]
      exact (if_pos (beq_iff_eq.mpr hname)).symm
    · rw [if_neg hname] at hdecode
      have hsame : ∀ c ∈ some (explorerCursorFromEntry e sortBy sortOrder),
          c.sortBy = sortBy ∧ c.sortOrder = sortOrder := by
        intro c hc
        cases hc
        exact explorerCursorFromEntry_sort e sortBy sortOrder
      rw [listEntries_eq hrequest' hdecode hsame, hlisted, List.append_assoc, List.singleton_append,
        drop_startIndex ?_ (proper_of_mem h.toBelow hmem)]
      · exact (if_neg (Bool.eq_false_iff.mp (beq_eq_false_iff_ne.mpr hname))).symm
      · rw [← List.singleton_append, ← List.append_assoc, ← hsplit]
        exact sortedEntries_pairwise h.toBelow

/-! ## All pages -/

/-- A page that is not the last ends with an entry without a name. -/
def Breaks (limit : Nat) (entries : List ExplorerEntry) : Prop :=
  ∃ front e back, entries = front ++ e :: back ∧ e.name = "" ∧ back ≠ [] ∧ limit ∣ front.length + 1

/-- A page that is not the last hands out the cursor of its last entry. -/
theorem pageOf_more (hlimit : 1 ≤ limit) {rest : List ExplorerEntry} (hmore : limit < rest.length)
    (front : List ExplorerEntry) : pageOf limit sortBy sortOrder rest
      = { items := rest.take limit
          nextCursor := cursorAfter sortBy sortOrder (front ++ rest.take limit) } := by
  have hlast : (front ++ rest.take limit).getLast? = rest[limit - 1]? := by
    have hsome : rest[limit - 1]? = some rest[limit - 1] := List.getElem?_eq_getElem (by omega)
    rw [List.getLast?_append, List.getLast?_take, if_neg (by omega), hsome]
    rfl
  rw [pageOf, if_pos hmore, cursorAfter, hlast]

/-- That cursor is not the empty text, which asks for the first page. -/
theorem cursorAfter_ne_empty {entries : List ExplorerEntry} (h : entries ≠ []) :
    cursorAfter sortBy sortOrder entries ≠ "" := by
  rw [cursorAfter, List.getLast?_eq_some_getLast h]
  intro hempty
  refine encodeExplorerCursor_visible
    (explorerCursorFromEntry (entries.getLast h) sortBy sortOrder) ?_
  rw [show encodeExplorerCursor _ = "" from hempty]
  decide

/-- **One request** of a traversal that stands behind the entries in front. -/
theorem follow_after (h : Rows input.pfx objects)
    (hrequest : PageRequest input limit sortBy sortOrder)
    {front rest : List ExplorerEntry}
    (hsplit : listed toLower objects input sortBy sortOrder = front ++ rest) (n : Nat) :
    follow toLower objects input (n + 1) (cursorAfter sortBy sortOrder front)
      = if (front.getLast?.any fun e => e.name == "") = true then
          .error (.app 400 "invalid_cursor" "cursor is invalid")
        else if limit < rest.length then
          (follow toLower objects input n
            (cursorAfter sortBy sortOrder (front ++ rest.take limit))).map
            fun traversal => { traversal with pages := rest.take limit :: traversal.pages }
        else .ok { pages := [rest], pending := none } := by
  rw [follow, listEntries_after h hrequest hsplit]
  split
  · rfl
  · by_cases hmore : limit < rest.length
    · have hne : front ++ rest.take limit ≠ [] := by
        refine List.append_ne_nil_of_right_ne_nil _ fun hnil => ?_
        have hlength := congrArg List.length hnil
        rw [List.length_take, List.length_nil] at hlength
        have hpos := hrequest.range.1
        omega
      rw [if_pos hmore, pageOf_more hrequest.range.1 hmore front]
      show (if cursorAfter sortBy sortOrder (front ++ rest.take limit) = "" then _ else _) = _
      rw [if_neg (cursorAfter_ne_empty hne)]
      cases follow toLower objects input n
        (cursorAfter sortBy sortOrder (front ++ rest.take limit)) <;> rfl
    · rw [if_neg hmore, pageOf, if_neg hmore]
      rfl

/-- Without such a page the traversal returns the rest of the entries and ends. -/
theorem follow_ends (h : Rows input.pfx objects)
    (hrequest : PageRequest input limit sortBy sortOrder)
    (hbreaks : ¬ Breaks limit (listed toLower objects input sortBy sortOrder)) :
    ∀ (n : Nat) {front rest : List ExplorerEntry},
      listed toLower objects input sortBy sortOrder = front ++ rest → limit ∣ front.length →
      (front = [] ∨ rest ≠ []) → rest.length < n →
      ∃ traversal,
        follow toLower objects input n (cursorAfter sortBy sortOrder front) = .ok traversal
        ∧ traversal.pending = none ∧ traversal.pages.flatten = rest := by
  intro n
  induction n with
  | zero => exact fun _ _ _ hlength => absurd hlength (Nat.not_lt_zero _)
  | succ n ih =>
      intro front rest hsplit hdvd hopen hlength
      have hnamed : ¬ (front.getLast?.any fun e => e.name == "") = true := by
        intro hunnamed
        rcases List.eq_nil_or_concat front with rfl | ⟨init, e, rfl⟩
        · exact Bool.false_ne_true hunnamed
        · rw [List.concat_eq_append] at hsplit hdvd hopen hunnamed
          rw [List.getLast?_concat] at hunnamed
          rw [List.append_assoc, List.singleton_append] at hsplit
          rw [List.length_append, List.length_singleton] at hdvd
          have hrest := hopen.resolve_left
            (List.append_ne_nil_of_right_ne_nil _ (List.cons_ne_nil _ _))
          exact hbreaks ⟨init, e, rest, hsplit, beq_iff_eq.mp hunnamed, hrest, hdvd⟩
      rw [follow_after h hrequest hsplit, if_neg hnamed]
      by_cases hmore : limit < rest.length
      · have hpos := hrequest.range.1
        have hcut : front ++ rest = (front ++ rest.take limit) ++ rest.drop limit := by
          rw [List.append_assoc, List.take_append_drop]
        have htake : (front ++ rest.take limit).length = front.length + limit := by
          rw [List.length_append, List.length_take]
          omega
        have hdrop : (rest.drop limit).length = rest.length - limit := List.length_drop
        obtain ⟨traversal, hfollow, hends, hpages⟩ := ih (hsplit.trans hcut)
          (htake ▸ Nat.dvd_add hdvd (Nat.dvd_refl _))
          (Or.inr fun hnil => by rw [hnil, List.length_nil] at hdrop; omega) (by omega)
        rw [if_pos hmore, hfollow]
        refine ⟨{ traversal with pages := rest.take limit :: traversal.pages }, rfl, hends, ?_⟩
        rw [List.flatten_cons, hpages, List.take_append_drop]
      · rw [if_neg hmore]
        exact ⟨_, rfl, rfl, List.flatten_singleton⟩

/-- With one the traversal never ends well. -/
theorem follow_breaks (h : Rows input.pfx objects)
    (hrequest : PageRequest input limit sortBy sortOrder)
    {before after : List ExplorerEntry} {e : ExplorerEntry}
    (hlisted : listed toLower objects input sortBy sortOrder = before ++ e :: after)
    (hname : e.name = "") (hafter : after ≠ []) (hends : limit ∣ before.length + 1) :
    ∀ (n : Nat) {front rest : List ExplorerEntry} {traversal : Traversal},
      listed toLower objects input sortBy sortOrder = front ++ rest → limit ∣ front.length →
      front.length ≤ before.length + 1 →
      follow toLower objects input n (cursorAfter sortBy sortOrder front) = .ok traversal →
      traversal.pending ≠ none := by
  intro n
  induction n with
  | zero =>
      intro front rest traversal _ _ _ hfollow hpending
      cases hfollow
      cases hpending
  | succ n ih =>
      intro front rest traversal hsplit hdvd hle hfollow
      rw [follow_after h hrequest hsplit] at hfollow
      split at hfollow
      · cases hfollow
      · next hnamed =>
          have hlt : front.length ≠ before.length + 1 := by
            intro hlength
            refine hnamed ?_
            have heq : front = before ++ [e] := by
              have happend : front ++ rest = (before ++ [e]) ++ after := by
                rw [← hsplit, hlisted, List.append_assoc, List.singleton_append]
              refine (List.append_inj happend ?_).1
              rw [hlength, List.length_append, List.length_singleton]
            rw [heq, List.getLast?_concat]
            exact beq_iff_eq.mpr hname
          -- the next page ends no later than the entry without a name
          have hpage : front.length + limit ≤ before.length + 1 := by
            obtain ⟨a, ha⟩ := hdvd
            obtain ⟨b, hb⟩ := hends
            have hab : a < b := by
              refine Nat.lt_of_mul_lt_mul_left (a := limit) ?_
              omega
            have hmul := Nat.mul_le_mul_left limit (Nat.succ_le_of_lt hab)
            rw [Nat.mul_succ] at hmul
            omega
          have hlengths := congrArg List.length (hsplit.symm.trans hlisted)
          rw [List.length_append, List.length_append, List.length_cons] at hlengths
          have hpos := List.length_pos_iff.mpr hafter
          rw [if_pos (by omega)] at hfollow
          obtain ⟨traversal', hfollow', rfl⟩ := map_eq_ok.mp hfollow
          have htake : (front ++ rest.take limit).length = front.length + limit := by
            rw [List.length_append, List.length_take]
            omega
          have hsplit' : listed toLower objects input sortBy sortOrder
              = (front ++ rest.take limit) ++ rest.drop limit := by
            rw [hsplit, List.append_assoc, List.take_append_drop]
          have hpending :=
            ih hsplit' (htake ▸ Nat.dvd_add hdvd (Nat.dvd_refl _)) (htake ▸ hpage) hfollow'
          exact hpending

/-! ## The directory without a name -/

/-- The names of the directories, once each. -/
def directoryNames (pfx : String) (objects : List Object) : List String :=
  (objects.filterMap (deepSegment pfx)).dedup

/-- Without a search text every entry matches, and the directory without a name can be
    the last of a page only at a place that the number of directories tells. -/
def CursorsReadable (objects : List Object) (input : ListExplorerEntriesInput) (limit : Nat)
    (sortOrder : ExplorerSortOrder) : Prop :=
  "" ∈ directoryNames input.pfx objects → trimSpace input.search = "" →
    match sortOrder with
    | .asc => limit = 1 →
        (directoryNames input.pfx objects).length + objects.countP (isFile input.pfx) = 1
    | .desc => limit ∣ (directoryNames input.pfx objects).length →
      objects.countP (isFile input.pfx) = 0

/-- The names of the directories are the first segments. -/
theorem mem_directoryNames {name : String} :
    name ∈ directoryNames pfx objects ↔ ∃ o ∈ objects, deepSegment pfx o = some name := by
  rw [directoryNames, List.mem_dedup, List.mem_filterMap]

/-- Nothing comes before the empty name, so the nameless directory comes first. -/
theorem not_lt_empty (s : String) : compare s "" ≠ .lt := by
  intro hlt
  have hlt := String.lt_iff_toList_lt.mp (compare_lt_iff_lt.mp hlt)
  exact List.not_lt_nil _ hlt

/-- No name is before the empty one. -/
theorem compareNames_empty (name : String) : compareExplorerEntryNames toLower name "" ≠ .lt := by
  have hlower : lower toLower "" = "" := rfl
  rw [compareExplorerEntryNames, hlower]
  split
  · exact not_lt_empty _
  · exact not_lt_empty _

/-- Exchanging the names turns the answer round. -/
theorem compareNames_swap (a b : String) : compareExplorerEntryNames toLower b a
    = (compareExplorerEntryNames toLower a b).swap := by
  rw [compareExplorerEntryNames_eq]
  exact Std.OrientedCmp.eq_swap

/-- Going up nothing stands before it. -/
theorem unnamed_first {e a : ExplorerEntry} (htype : e.type = .directory) (hname : e.name = "") :
    compareExplorerEntries toLower sortBy .asc a e ≠ .lt := by
  rw [compareExplorerEntries, htype, hname]
  cases hatype : a.type with
  | directory =>
      rw [if_neg (not_not.mpr rfl), if_pos rfl]
      exact compareNames_empty a.name
  | file =>
      rw [if_pos (by decide)]
      decide

/-- Going down only directories stand before it and only files behind it. -/
theorem unnamed_last {e a : ExplorerEntry} (htype : e.type = .directory) (hname : e.name = "") :
    (compareExplorerEntries toLower sortBy .desc a e = .lt → a.type = .directory)
      ∧ (compareExplorerEntries toLower sortBy .desc e a = .lt → a.type = .file) := by
  rw [compareExplorerEntries, compareExplorerEntries, htype, hname]
  cases hatype : a.type with
  | directory =>
      refine ⟨fun _ => rfl, fun hlt => ?_⟩
      rw [if_neg (not_not.mpr rfl), if_pos rfl, applyExplorerSortOrder, compareNames_swap,
        Ordering.swap_swap] at hlt
      exact absurd hlt (compareNames_empty a.name)
  | file =>
      refine ⟨fun hlt => ?_, fun _ => rfl⟩
      rw [if_pos (by decide)] at hlt
      exact absurd hlt (by decide)

/-- The empty name matches only the empty search. -/
theorem contains_empty {sub : String} : contains "" sub = true ↔ sub = "" := by
  rw [contains_iff, ← String.toList_inj]
  exact List.infix_nil

/-- An entry without a name is a directory, and there is no search text. -/
theorem unnamed_of_mem (h : Below input.pfx objects) {e : ExplorerEntry}
    (he : e ∈ listed toLower objects input sortBy sortOrder) (hname : e.name = "") :
    e.type = .directory ∧ "" ∈ directoryNames input.pfx objects ∧ trimSpace input.search = "" := by
  obtain ⟨hmatches, hcases⟩ := (mem_sortedEntries h).mp he
  have hsearch : trimSpace input.search = "" := by
    rw [matchesExplorerSearch, hname] at hmatches
    have hlower : lower toLower (trimSpace input.search) = "" := by
      split at hmatches
      · next hempty => exact hempty
      · exact contains_empty.mp hmatches
    rw [lower, ← String.toList_inj, String.toList_ofList] at hlower
    exact String.toList_inj.mp (List.map_eq_nil_iff.mp hlower)
  rcases hcases with ⟨name, hdeep, rfl⟩ | ⟨o, ho, hfile, rfl⟩
  · have hempty : name = "" := hname
    exact ⟨rfl, mem_directoryNames.mpr (hempty ▸ hdeep), hsearch⟩
  · rw [isFile, Bool.and_eq_true, Bool.and_eq_true, bne_iff_ne] at hfile
    exact absurd hname hfile.1.1

/-- Without a search text all entries are listed: so many directories and files. -/
theorem listed_counts (h : Below input.pfx objects) (hsearch : trimSpace input.search = "") :
    (listed toLower objects input sortBy sortOrder).countP (fun e => e.type == .directory)
        = (directoryNames input.pfx objects).length
      ∧ (listed toLower objects input sortBy sortOrder).length
        = (directoryNames input.pfx objects).length + objects.countP (isFile input.pfx) := by
  have hmaps := aggregated h.keys h.prefixes
  have hlower : lower toLower (trimSpace input.search) = "" := by
    rw [hsearch]
    rfl
  have hall : ∀ entries : List ExplorerEntry,
      (entries.filter fun e => matchesExplorerSearch toLower e.name "") = entries :=
    fun entries => List.filter_eq_self.mpr fun _ _ => rfl
  have hperm : (listed toLower objects input sortBy sortOrder).Perm
      ((objects.foldl (addObject input.pfx) {}).directories
        ++ (objects.foldl (addObject input.pfx) {}).files) := by
    rw [listed, sortedEntries, hlower, hall, hall]
    exact List.mergeSort_perm _ _
  generalize objects.foldl (addObject input.pfx) {} = maps at hmaps hperm
  have hdirectories : maps.directories.length = (directoryNames input.pfx objects).length := by
    have hnames : (maps.directories.map (·.name)).Perm (directoryNames input.pfx objects) := by
      have hnodup : (directoryNames input.pfx objects).Nodup := List.nodup_dedup _
      refine (List.perm_ext_iff_of_nodup hmaps.directoryNames hnodup).mpr fun name => ?_
      rw [mem_directoryNames, List.mem_map]
      constructor
      · rintro ⟨e, he, rfl⟩
        obtain ⟨name, hdeep, rfl⟩ := (hmaps.directories e).mp he
        exact hdeep
      · exact fun hdeep => ⟨_, (hmaps.directories _).mpr ⟨name, hdeep, rfl⟩, rfl⟩
    rw [← hnames.length_eq, List.length_map]
  have hfiles : maps.files.length = objects.countP (isFile input.pfx) := by
    have hentries :
        maps.files.Perm ((objects.filter (isFile input.pfx)).map (fileEntry input.pfx)) := by
      refine (List.perm_ext_iff_of_nodup hmaps.fileNames.of_map ?_).mpr fun e => ?_
      · have hpaths :
            ((objects.filter (isFile input.pfx)).map fun o => (fileEntry input.pfx o).path).Nodup :=
          h.keys.sublist (List.filter_sublist.map _)
        exact List.Nodup.of_map ExplorerEntry.path (by rw [List.map_map]; exact hpaths)
      · rw [hmaps.files, List.mem_map]
        simp only [List.mem_filter, and_assoc, eq_comm]
    rw [hentries.length_eq, List.length_map, List.countP_eq_length_filter]
  have hdirectory : ∀ e ∈ maps.directories, (e.type == ExplorerEntryType.directory) = true := by
    intro e he
    obtain ⟨name, -, rfl⟩ := (hmaps.directories e).mp he
    rfl
  have hfile : ∀ e ∈ maps.files, ¬ (e.type == ExplorerEntryType.directory) = true := by
    intro e he
    obtain ⟨o, -, -, rfl⟩ := (hmaps.files e).mp he
    exact Bool.false_ne_true
  refine ⟨?_, ?_⟩
  · rw [hperm.countP_eq, List.countP_append, List.countP_eq_length.mpr hdirectory,
      List.countP_eq_zero.mpr hfile, Nat.add_zero, hdirectories]
  · rw [hperm.length_eq, List.length_append, hdirectories, hfiles]

/-- Where the directory without a name stands. -/
theorem unnamed_place (h : Below input.pfx objects) {front back : List ExplorerEntry}
    {e : ExplorerEntry}
    (hlisted : listed toLower objects input sortBy sortOrder = front ++ e :: back)
    (hname : e.name = "") :
    (sortOrder = .asc → front = [])
      ∧ (sortOrder = .desc → front.length + 1 = (directoryNames input.pfx objects).length)
      ∧ front.length + 1 + back.length
        = (directoryNames input.pfx objects).length + objects.countP (isFile input.pfx) := by
  have hsorted : (listed toLower objects input sortBy sortOrder).Pairwise
      fun a b => compareExplorerEntries toLower sortBy sortOrder a b = .lt :=
        sortedEntries_pairwise h
  have hmem : e ∈ listed toLower objects input sortBy sortOrder := by
    rw [hlisted]
    exact List.mem_append_right _ List.mem_cons_self
  obtain ⟨htype, -, hsearch⟩ := unnamed_of_mem h hmem hname
  obtain ⟨hdirectories, hlength⟩ : (listed toLower objects input sortBy sortOrder).countP
      (fun e => e.type == .directory) = _ ∧ _ := listed_counts h hsearch
  rw [hlisted] at hsorted hdirectories hlength
  obtain ⟨-, htail, hcross⟩ := List.pairwise_append.mp hsorted
  have hbehind := (List.pairwise_cons.mp htail).1
  have hbefore : ∀ a ∈ front, compareExplorerEntries toLower sortBy sortOrder a e = .lt :=
    fun a ha => hcross a ha e List.mem_cons_self
  refine ⟨?_, ?_, ?_⟩
  · rintro rfl
    refine List.eq_nil_iff_forall_not_mem.mpr fun a ha => ?_
    exact unnamed_first htype hname (hbefore a ha)
  · rintro rfl
    have hfront : ∀ a ∈ front, (a.type == ExplorerEntryType.directory) = true := fun a ha =>
      beq_iff_eq.mpr ((unnamed_last htype hname).1 (hbefore a ha))
    have hback : ∀ b ∈ back, ¬ (b.type == ExplorerEntryType.directory) = true := by
      intro b hb
      rw [(unnamed_last htype hname).2 (hbehind b hb)]
      exact Bool.false_ne_true
    have hself : (e.type == ExplorerEntryType.directory) = true := beq_iff_eq.mpr htype
    rw [List.countP_append, List.countP_cons, if_pos hself, List.countP_eq_length.mpr hfront,
      List.countP_eq_zero.mpr hback] at hdirectories
    exact hdirectories
  · rw [List.length_append, List.length_cons] at hlength
    omega

/-- **When a traversal breaks**, told by the keys. -/
theorem breaks_iff (h : Below input.pfx objects) :
    ¬ Breaks limit (listed toLower objects input sortBy sortOrder)
      ↔ CursorsReadable objects input limit sortOrder := by
  constructor
  · intro hbreaks hmem hsearch
    obtain ⟨o, ho, hdeep⟩ := mem_directoryNames.mp hmem
    have hlisted : directoryEntry input.pfx objects ""
        ∈ listed toLower objects input sortBy sortOrder := by
      refine (mem_sortedEntries h).mpr ⟨?_, Or.inl ⟨"", ⟨o, ho, hdeep⟩, rfl⟩⟩
      rw [hsearch]
      rfl
    obtain ⟨front, back, hsplit⟩ := List.append_of_mem hlisted
    obtain ⟨hasc, hdesc, htotal⟩ := unnamed_place h hsplit rfl
    have hlast : limit ∣ front.length + 1 → back = [] := by
      intro hdvd
      by_contra hback
      exact hbreaks ⟨front, _, back, hsplit, rfl, hback, hdvd⟩
    cases sortOrder with
    | asc =>
        intro hone
        have hfront := hasc rfl
        have hback : back = [] := by
          refine hlast ?_
          rw [hone]
          exact Nat.one_dvd _
        rw [hfront, hback] at htotal
        exact htotal.symm
    | desc =>
        intro hdvd
        have hfront := hdesc rfl
        rw [hlast (hfront ▸ hdvd), List.length_nil] at htotal
        omega
  · rintro hreadable ⟨front, e, back, hsplit, hname, hback, hdvd⟩
    have hmem : e ∈ listed toLower objects input sortBy sortOrder := by
      rw [hsplit]
      exact List.mem_append_right _ List.mem_cons_self
    obtain ⟨-, hunnamed, hsearch⟩ := unnamed_of_mem h hmem hname
    obtain ⟨hasc, hdesc, htotal⟩ := unnamed_place h hsplit hname
    have hpos := List.length_pos_iff.mpr hback
    have hcount := hreadable hunnamed hsearch
    cases sortOrder with
    | asc =>
        rw [hasc rfl] at hdvd htotal
        rw [hcount (Nat.dvd_one.mp hdvd), List.length_nil] at htotal
        omega
    | desc =>
        rw [hdesc rfl] at hdvd htotal
        rw [hcount hdvd] at htotal
        omega

/-! ## What the listing promises -/

/-- The key continues the prefix with the segment and a slash. -/
def Under (pfx name : String) (o : Object) : Prop :=
  ∃ rest, o.objectKey = pfx ++ name ++ "/" ++ rest

/-- The entries, told by the keys. -/
structure Exact (toLower : Char → Char) (objects : List Object) (input : ListExplorerEntriesInput)
    (entries : List ExplorerEntry) : Prop where
  directories : ∀ e, e.type = .directory → (e ∈ entries
    ↔ matchesExplorerSearch toLower e.name (lower toLower (trimSpace input.search)) = true
      ∧ '/' ∉ e.name.toList ∧ (∃ o ∈ objects, Under input.pfx e.name o)
      ∧ (e.isEmpty = true ↔ ∀ o ∈ objects, Under input.pfx e.name o →
          o.objectKey = markerKey input.pfx e.name)
      ∧ e.path = input.pfx ++ e.name ++ "/" ∧ e.object = none)
  files : ∀ e, e.type = .file → (e ∈ entries
    ↔ matchesExplorerSearch toLower e.name (lower toLower (trimSpace input.search)) = true
      ∧ '/' ∉ e.name.toList ∧ e.name ≠ "" ∧ e.isEmpty = false
      ∧ ∃ o ∈ objects, e.object = some o ∧ e.path = o.objectKey
        ∧ o.objectKey = input.pfx ++ e.name ∧ isFolderMarkerKey o.objectKey = false)

/-- An object's first segment is the name exactly when its key lies under it. -/
theorem under_iff (h : Below pfx objects) {o : Object} (ho : o ∈ objects) {name : String}
    (hfree : '/' ∉ name.toList) : deepSegment pfx o = some name ↔ Under pfx name o := by
  rw [deepSegment_iff (h.prefixes o ho), and_iff_right hfree]
  rfl

/-- A directory is shown as empty exactly when only its marker lies under it. -/
theorem isEmpty_iff (h : Below pfx objects) {name : String} (hfree : '/' ∉ name.toList) :
    (directoryEntry pfx objects name).isEmpty = true
      ↔ ∀ o ∈ objects, Under pfx name o → o.objectKey = markerKey pfx name := by
  rw [directoryEntry, List.all_eq_true]
  refine forall₂_congr fun o ho => ?_
  rw [Bool.or_eq_true, bne_iff_ne, beq_iff_eq, ← under_iff h ho hfree, imp_iff_not_or]

/-- The sorted list is the one `Exact` describes. -/
theorem exact_sortedEntries (h : Below input.pfx objects) :
    Exact toLower objects input (listed toLower objects input sortBy sortOrder) := by
  refine ⟨fun e htype => ?_, fun e htype => ?_⟩
  · rw [listed, mem_sortedEntries h]
    refine and_congr_right fun _ => ?_
    constructor
    · rintro (⟨name, ⟨o, ho, hdeep⟩, rfl⟩ | ⟨o, -, -, rfl⟩)
      · have hfree := ((deepSegment_iff (h.prefixes o ho)).mp hdeep).1
        exact ⟨hfree, ⟨o, ho, (under_iff h ho hfree).mp hdeep⟩, isEmpty_iff h hfree, rfl, rfl⟩
      · cases htype
    · rintro ⟨hfree, ⟨o, ho, hunder⟩, hempty, hpath, hobject⟩
      refine Or.inl ⟨e.name, ⟨o, ho, (under_iff h ho hfree).mpr hunder⟩, ?_⟩
      have hisEmpty : e.isEmpty = (directoryEntry input.pfx objects e.name).isEmpty := by
        rw [Bool.eq_iff_iff, hempty, isEmpty_iff h hfree]
      exact ExplorerEntry.ext htype hpath rfl hisEmpty hobject
  · rw [listed, mem_sortedEntries h]
    refine and_congr_right fun _ => ?_
    constructor
    · rintro (⟨name, -, rfl⟩ | ⟨o, ho, hfile, rfl⟩)
      · cases htype
      · obtain ⟨name, hne, hfree, hkey, hmarker⟩ := (isFile_iff (h.prefixes o ho)).mp hfile
        have hname : (fileEntry input.pfx o).name = name := by
          rw [fileEntry, hkey, trimPrefix_append]
        rw [hname]
        exact ⟨hfree, hne, rfl, o, ho, rfl, rfl, hkey, hmarker⟩
    · rintro ⟨hfree, hne, hempty, o, ho, hobject, hpath, hkey, hmarker⟩
      refine Or.inr
        ⟨o, ho, (isFile_iff (h.prefixes o ho)).mpr ⟨e.name, hne, hfree, hkey, hmarker⟩, ?_⟩
      have hname : e.name = trimPrefix o.objectKey input.pfx := by
        rw [hkey, trimPrefix_append]
      exact ExplorerEntry.ext htype hpath hname hempty hobject

/-- **The entries** of a prefix are its first segments and its files, each once and in
    strict order, whatever the search text and the order asked for; the order in which
    the query returns the keys is of no account. -/
theorem explorer_entries (h : Below input.pfx objects) (sortBy : ExplorerSortBy)
    (sortOrder : ExplorerSortOrder) :
    Exact toLower objects input (listed toLower objects input sortBy sortOrder)
      ∧ (listed toLower objects input sortBy sortOrder).Pairwise
          (fun a b => compareExplorerEntries toLower sortBy sortOrder a b = .lt)
      ∧ ∀ objects' : List Object, objects'.Perm objects →
          listEntries toLower objects' input = listEntries toLower objects input := by
  refine ⟨exact_sortedEntries h, sortedEntries_pairwise h, fun objects' hperm => ?_⟩
  have hsame : ∀ search sortBy sortOrder,
      sortedEntries toLower objects' input.pfx search sortBy sortOrder
        = sortedEntries toLower objects input.pfx search sortBy sortOrder :=
    fun _ _ _ => sortedEntries_perm h hperm
  simp only [listEntries, hsame]

/-- A folder with a file, a file, and a file whose key begins with a slash. -/
def shopObjects : List Object :=
  [{ bucketName := "shop", objectKey := "docs/a.txt", storagePath := "a", size := 1 },
    { bucketName := "shop", objectKey := "b.txt", storagePath := "b", size := 2 },
    { bucketName := "shop", objectKey := "/c.txt", storagePath := "c", size := 3 }]

/-- Their keys lie below the empty prefix and their values fit the cursor. -/
theorem shopObjects_rows : Rows "" shopObjects :=
  ⟨⟨by decide, by decide⟩, by decide, by decide⟩

/-- The folder is listed, and not as an empty one. -/
theorem explorer_entries_shop :
    ({ type := .directory, path := "docs/", name := "docs" } : ExplorerEntry)
      ∈ listed id shopObjects { bucketName := "shop", pfx := "" } .name .asc := by
  have hentries : Exact id shopObjects { bucketName := "shop", pfx := "" }
      (listed id shopObjects { bucketName := "shop", pfx := "" } .name .asc) :=
    (explorer_entries shopObjects_rows.toBelow .name .asc).1
  refine (hentries.directories _ rfl).mpr ⟨by decide, by decide,
    ⟨_, List.mem_cons_self, "a.txt", rfl⟩, ?_, rfl, rfl⟩
  refine ⟨fun h => absurd h Bool.false_ne_true, fun h => ?_⟩
  exact absurd (h _ List.mem_cons_self ⟨"a.txt", rfl⟩) (by decide)

/-- **A traversal** returns every entry once, in order, and ends; or it never ends well,
    when a page that is not the last ends with the directory without a name. -/
theorem explorer_traversal (h : Rows input.pfx objects)
    (hrequest : PageRequest input limit sortBy sortOrder) :
    (CursorsReadable objects input limit sortOrder →
      ∀ n, (listed toLower objects input sortBy sortOrder).length < n →
        ∃ traversal, follow toLower objects input n "" = .ok traversal ∧ traversal.pending = none
          ∧ traversal.pages.flatten = listed toLower objects input sortBy sortOrder)
    ∧ (¬ CursorsReadable objects input limit sortOrder →
      ∀ n traversal, follow toLower objects input n "" = .ok traversal →
          traversal.pending ≠ none) := by
  have hiff : ¬ Breaks limit (listed toLower objects input sortBy sortOrder)
      ↔ CursorsReadable objects input limit sortOrder := breaks_iff h.toBelow
  have hsplit : listed toLower objects input sortBy sortOrder
      = [] ++ listed toLower objects input sortBy sortOrder := rfl
  rw [← hiff]
  refine ⟨fun hbreaks n hn => ?_, fun hbreaks n traversal hfollow => ?_⟩
  · exact follow_ends h hrequest hbreaks n hsplit (Nat.dvd_zero limit) (Or.inl rfl) hn
  · obtain ⟨before, e, after, hlisted, hname, hafter, hends⟩ := not_not.mp hbreaks
    exact follow_breaks h hrequest hlisted hname hafter hends n hsplit (Nat.dvd_zero limit)
      (Nat.zero_le _) hfollow

/-- One entry a page: the traversal of the first two objects ends, that of all three
    never does. -/
theorem explorer_traversal_shop :
    (∃ n traversal, follow id (shopObjects.take 2)
        { bucketName := "shop", pfx := "", limit := 1, sortBy := "name", sortOrder := "asc" } n ""
          = .ok traversal ∧ traversal.pending = none)
      ∧ ∀ n traversal, follow id shopObjects
        { bucketName := "shop", pfx := "", limit := 1, sortBy := "name", sortOrder := "asc" } n ""
          = .ok traversal → traversal.pending ≠ none := by
  have htwo : Rows "" (shopObjects.take 2) := ⟨⟨by decide, by decide⟩, by decide, by decide⟩
  have hrequest : PageRequest
      { bucketName := "shop", pfx := "", limit := 1, sortBy := "name", sortOrder := "asc" } 1
          .name .asc :=
    ⟨by decide, by decide, by decide, by decide⟩
  refine ⟨?_, (explorer_traversal shopObjects_rows hrequest).2 fun h => ?_⟩
  · obtain ⟨traversal, hfollow, hends, -⟩ := (explorer_traversal htwo hrequest).1
      (fun h => absurd h (by decide)) _ (Nat.lt_succ_self _)
    exact ⟨_, traversal, hfollow, hends⟩
  · have hcount := h (by decide) (by decide) rfl
    exact absurd hcount (by decide)

end Sorted

end ExplorerListing
