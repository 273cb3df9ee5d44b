import LightOss.PathClean
import LightOss.RecycleListing

/-! # Recycle groups — one logical item for each delete group

    The rows of a recursive folder delete lie below the folder and its marker is one
    of them.  No directory above the folder has a marker in the group, so the folder
    is the first marked directory above every row, and the group becomes one item.

    The directories above a row are split at the folder (`ancestors_split`): those
    before it are shorter, and every marked directory lies in it
    (`FolderDelete.marked_below`), hence `FolderDelete.owner`.  Then the second loop adds
    every row to the item of the first (`foldl_add`, `FolderDelete.logicalItems`). -/

namespace RecycleGroups

open Fallible LedgerRows Catalog Validation ObjectKeys PathClean MetadataServices RecycleListing

/-! ## The directories above a path -/

/-- Fewer segments of a directory make a shorter path. -/
theorem length_take_lt (dir : String) {depth : Nat} (hdepth : depth + 1 < (segments dir).length) :
    (joinSegments ((segments dir).take (depth + 1))).toList.length < dir.toList.length := by
  have htake : (segments dir).take (depth + 1) ≠ [] := by
    rw [ne_eq, List.take_eq_nil_iff]
    exact not_or.mpr ⟨Nat.succ_ne_zero _, segments_ne_nil dir⟩
  have hdrop : (segments dir).drop (depth + 1) ≠ [] := by
    rw [ne_eq, List.drop_eq_nil_iff]
    omega
  have hdir : dir = joinSegments ((segments dir).take (depth + 1)) ++ "/"
      ++ joinSegments ((segments dir).drop (depth + 1)) := by
    rw [← joinSegments_append htake hdrop, List.take_append_drop, joinSegments_segments]
  have hlength := congrArg (fun s : String => s.toList.length) hdir
  rw [String.toList_append, String.toList_append, List.length_append, List.length_append] at hlength
  have hslash : "/".toList.length = 1 := rfl
  omega

/-- A directory whose segments the path begins with is one of the directories above it,
    and those before it are shorter. -/
theorem ancestors_split {itemPath dir : String} {includeSelf : Bool} {more : List String}
    (hne : trimSuffix itemPath "/" ≠ "")
    (hsegs : segments (trimSuffix itemPath "/") = segments dir ++ more)
    (hdeep : includeSelf = true ∨ more ≠ []) :
    ∃ front back,
      recycleBinAncestorDirectoryPaths itemPath includeSelf = front ++ (dir ++ "/") :: back
      ∧ ∀ p ∈ front, p.toList.length < (dir ++ "/").toList.length := by
  obtain ⟨n, hn⟩ := Nat.exists_eq_succ_of_ne_zero
    (fun hzero => segments_ne_nil dir (List.eq_nil_of_length_eq_zero hzero))
  let path (depth : Nat) : String := joinSegments ((segments dir ++ more).take (depth + 1)) ++ "/"
  -- `n + 1` is the depth of the directory, `m` what the path has beyond it
  obtain ⟨m, hm⟩ : ∃ m, (if includeSelf then (segments dir ++ more).length
      else (segments dir ++ more).length - 1) = n + (m + 1) := by
    rw [List.length_append, hn]
    rcases hdeep with rfl | hmore
    · exact ⟨more.length, by rw [if_pos rfl]; omega⟩
    · have hpos : 0 < more.length := List.length_pos_iff.mpr hmore
      split
      · exact ⟨more.length, by omega⟩
      · exact ⟨more.length - 1, by omega⟩
  have hpaths : recycleBinAncestorDirectoryPaths itemPath includeSelf
      = (List.range (n + (m + 1))).map path := by
    rw [recycleBinAncestorDirectoryPaths]
    dsimp only
    rw [if_neg hne, hsegs, hm]
  have hself : path n = dir ++ "/" := by
    show joinSegments ((segments dir ++ more).take (n + 1)) ++ "/" = _
    rw [← Nat.succ_eq_add_one, ← hn, List.take_left, joinSegments_segments]
  refine ⟨(List.range n).map path,
    ((List.range m).map fun depth => path (n + (depth + 1))), ?_, fun p hp => ?_⟩
  · rw [hpaths, List.range_add, List.range_succ_eq_map, List.map_append, List.map_cons,
      List.map_cons,
      Nat.add_zero, hself, List.map_map, List.map_map]
    rfl
  · obtain ⟨depth, hdepth, rfl⟩ := List.mem_map.mp hp
    have hlt : depth + 1 < (segments dir).length := by
      have := List.mem_range.mp hdepth
      omega
    show (joinSegments ((segments dir ++ more).take (depth + 1)) ++ "/").toList.length < _
    rw [List.take_append_of_le_length hlt.le, String.toList_append, String.toList_append,
      List.length_append, List.length_append]
    exact Nat.add_lt_add_right (length_take_lt dir hlt) _

/-! ## The rows of a folder -/

/-- A row below the directory; no key ends with a slash. -/
def Below (dir : String) (item : RecycleBinObject) : Prop :=
  ∃ rest, item.objectKey = dir ++ "/" ++ rest ∧ rest ≠ "" ∧ hasSuffix rest "/" = false

/-- The characters of a key below a folder. -/
theorem toList_below (dir rest : String) :
    (dir ++ "/" ++ rest).toList = dir.toList ++ '/' :: rest.toList := by
  rw [String.toList_append, String.toList_append, List.append_assoc]
  rfl

/-- A text that does not end in a slash has another last character. -/
theorem last_of_no_slash {rest : String} (hne : rest ≠ "") (hslash : hasSuffix rest "/" = false) :
    ∃ front c, rest.toList = front ++ [c] ∧ c ≠ '/' := by
  rcases List.eq_nil_or_concat rest.toList with hnil | ⟨front, c, hrest⟩
  · exact absurd (String.toList_inj.mp hnil) hne
  · rw [List.concat_eq_append] at hrest
    refine ⟨front, c, hrest, ?_⟩
    rintro rfl
    have hsfx : hasSuffix rest "/" = true := hasSuffix_iff.mpr ⟨front, hrest.symm⟩
    exact Bool.false_ne_true (hslash.symm.trans hsfx)

/-- A suffix that is not there is not taken off. -/
theorem trimSuffix_of_not {s sfx : String} (h : hasSuffix s sfx = false) :
    trimSuffix s sfx = s := by
  rw [trimSuffix, h, if_neg Bool.false_ne_true]

theorem below_ne_empty (dir rest : String) : dir ++ "/" ++ rest ≠ "" := by
  intro hempty
  have hchars := congrArg String.toList hempty
  rw [toList_below] at hchars
  exact absurd hchars (List.append_ne_nil_of_right_ne_nil _ (List.cons_ne_nil _ _))

/-- A marker below the directory is the marker of the directory or of one below it. -/
theorem marker_below {dir rest : String} (hne : rest ≠ "") (hslash : hasSuffix rest "/" = false)
    (hmarker : isFolderMarkerKey (dir ++ "/" ++ rest) = true) :
    rest = folderMarkerFilename ∨ ∃ sub, rest = sub ++ "/" ++ folderMarkerFilename := by
  obtain ⟨front, c, hrest, hc⟩ := last_of_no_slash hne hslash
  have hlast : (dir ++ "/" ++ rest).toList = (dir.toList ++ '/' :: front) ++ [c] := by
    rw [toList_below, hrest, List.append_assoc, List.cons_append]
  have hscan : rest.toList.reverse.takeWhile (· != '/') = folderMarkerFilename.toList.reverse := by
    have hbase := beq_iff_eq.mp hmarker
    rw [pathBase_of_last hlast hc, toList_below, List.reverse_append, List.reverse_cons,
      List.append_assoc, List.singleton_append, List.takeWhile_append,
      List.takeWhile_cons_of_neg (by decide), List.append_nil] at hbase
    have hbase := congrArg (fun s : String => s.toList.reverse) hbase
    rw [String.toList_ofList, List.reverse_reverse] at hbase
    split at hbase
    · next hall => rwa [(List.takeWhile_prefix _).eq_of_length hall]
    · exact hbase
  -- what stands behind the last slash is the name of the marker
  have hsplit : rest.toList = (rest.toList.reverse.dropWhile (· != '/')).reverse
      ++ folderMarkerFilename.toList := by
    have happend : rest.toList.reverse.takeWhile (· != '/')
        ++ rest.toList.reverse.dropWhile (· != '/') = rest.toList.reverse :=
      List.takeWhile_append_dropWhile
    rw [hscan] at happend
    have hreverse := congrArg List.reverse happend
    rw [List.reverse_append, List.reverse_reverse, List.reverse_reverse] at hreverse
    exact hreverse.symm
  cases hdrop : rest.toList.reverse.dropWhile (· != '/') with
  | nil =>
      rw [hdrop] at hsplit
      exact Or.inl (String.toList_inj.mp hsplit)
  | cons d before =>
      -- the scan stopped at a slash
      have hd : d = '/' := by
        have hstop := List.head?_dropWhile_not (· != '/') rest.toList.reverse
        rw [hdrop] at hstop
        exact bne_eq_false_iff_eq.mp hstop
      rw [hdrop, hd, List.reverse_cons, List.append_assoc, List.singleton_append] at hsplit
      refine Or.inr ⟨String.ofList before.reverse, ?_⟩
      rw [← String.toList_inj, toList_below, String.toList_ofList]
      exact hsplit

/-- The path of a row, cut at the directory, and what `recycleBinOwningDirectoryKey` goes
    through. -/
theorem Below.path {dir : String} {item : RecycleBinObject} (hdir : dir ≠ "") (h : Below dir item) :
    (∃ sub, recycleBinObjectPath item = dir ++ "/" ++ sub)
      ∧ trimSuffix (recycleBinObjectPath item) "/" ≠ ""
      ∧ ∃ more, segments (trimSuffix (recycleBinObjectPath item) "/") = segments dir ++ more
        ∧ (recycleBinObjectType item = .directory ∨ more ≠ []) := by
  obtain ⟨rest, hkey, hne, hslash⟩ := h
  rw [recycleBinObjectPath, recycleBinObjectType, hkey]
  cases hmarker : isFolderMarkerKey (dir ++ "/" ++ rest) with
  | false =>
      obtain ⟨front, c, hrest, hc⟩ := last_of_no_slash hne hslash
      have htrim : trimSuffix (dir ++ "/" ++ rest) "/" = dir ++ "/" ++ rest := by
        refine trimSuffix_of_not (Bool.eq_false_iff.mpr fun hsfx => hc ?_)
        obtain ⟨init, hinit⟩ := hasSuffix_iff.mp hsfx
        rw [toList_below, hrest, ← List.cons_append, ← List.append_assoc] at hinit
        exact (List.cons.inj (List.append_inj_right' hinit rfl)).1.symm
      rw [if_neg Bool.false_ne_true, htrim, segments_join]
      exact ⟨⟨rest, rfl⟩, below_ne_empty dir rest, segments rest, rfl,
        Or.inr (segments_ne_nil rest)⟩
  | true =>
      rw [if_pos rfl]
      rcases marker_below hne hslash hmarker with rfl | ⟨sub, rfl⟩
      · rw [trimSuffix_append, trimSuffix_append]
        exact ⟨⟨"", String.append_empty.symm⟩, hdir, [], (List.append_nil _).symm,
          Or.inl (if_pos rfl)⟩
      · have hassoc : dir ++ "/" ++ (sub ++ "/" ++ folderMarkerFilename)
            = dir ++ "/" ++ sub ++ "/" ++ folderMarkerFilename := by
          rw [← String.append_assoc, ← String.append_assoc]
        rw [hassoc, trimSuffix_append, trimSuffix_append, segments_join]
        exact ⟨⟨sub ++ "/", String.append_assoc⟩, below_ne_empty dir sub, segments sub, rfl,
          Or.inl (if_pos rfl)⟩

/-! ## Markers -/

/-- The markers of one directory, among the rows of a group. -/
def markersOf (items : List RecycleBinObject) (key : DirectoryKey) : List RecycleBinObject :=
  items.filter fun item => decide (recycleBinObjectType item = .directory
    ∧ DirectoryKey.mk item.bucketName (recycleBinObjectPath item) = key)

/-- One row more is one marker more, if it is one. -/
theorem markersOf_cons (item : RecycleBinObject) (rest : List RecycleBinObject)
    (key : DirectoryKey) :
    markersOf (item :: rest) key
      = if recycleBinObjectType item = .directory
          ∧ DirectoryKey.mk item.bucketName (recycleBinObjectPath item) = key
        then item :: markersOf rest key else markersOf rest key := by
  rw [markersOf, List.filter_cons]
  exact if_congr decide_eq_true_iff rfl rfl

/-- The last marker of a directory stands for it. -/
theorem directoryMarkers_eq (items : List RecycleBinObject) (key : DirectoryKey) :
    directoryMarkers items key = (markersOf items key).getLast? := by
  have hgo : ∀ (items : List RecycleBinObject) (markers : Markers),
      items.foldl (fun (markers : Markers) item =>
        if recycleBinObjectType item ≠ .directory then markers
        else Function.update markers ⟨item.bucketName, recycleBinObjectPath item⟩ (some item))
        markers key = ((markersOf items key).getLast?).or (markers key) := by
    intro items
    induction items with
    | nil => exact fun markers => rfl
    | cons item rest ih =>
        intro markers
        rw [List.foldl_cons, ih, markersOf_cons]
        by_cases htype : recycleBinObjectType item = .directory
        · rw [if_neg (not_not.mpr htype)]
          by_cases hkey : DirectoryKey.mk item.bucketName (recycleBinObjectPath item) = key
          · rw [if_pos ⟨htype, hkey⟩, ← hkey, Function.update_self, List.getLast?_cons]
            cases (markersOf rest _).getLast? <;> rfl
          · rw [if_neg fun h => hkey h.2, Function.update_of_ne (Ne.symm hkey)]
        · rw [if_pos htype, if_neg fun h => htype h.1]
  exact (hgo items fun _ => none).trans Option.or_none

/-- The rows of one recursive folder delete with the marker of the folder. -/
structure FolderDelete (dir : String) (marker : RecycleBinObject) (rows : List RecycleBinObject) :
    Prop where
  dir_ne : dir ≠ ""
  mem : marker ∈ rows
  marker_key : marker.objectKey = dir ++ "/" ++ folderMarkerFilename
  bucket : ∀ r ∈ rows, r.bucketName = marker.bucketName
  below : ∀ r ∈ rows, Below dir r
  once : ∀ r ∈ rows, r.objectKey = marker.objectKey → r = marker

variable {dir : String} {marker : RecycleBinObject} {rows : List RecycleBinObject}

/-- The marker of the folder is shown as a directory under the folder's path. -/
theorem marker_type {r : RecycleBinObject} (h : r.objectKey = dir ++ "/" ++ folderMarkerFilename) :
    recycleBinObjectType r = .directory ∧ recycleBinObjectPath r = dir ++ "/" := by
  have hmarker : isFolderMarkerKey r.objectKey = true := by
    rw [h]
    refine isFolderMarkerKey_marker (hasSuffix_iff.mpr ?_)
    rw [String.toList_append]
    exact List.suffix_append _ _
  refine ⟨if_pos hmarker, ?_⟩
  rw [recycleBinObjectPath, if_pos hmarker, h, trimSuffix_append]

/-- The key of a directory that is marked is the path and the marker's name. -/
theorem key_of_directory {r : RecycleBinObject} (hbelow : Below dir r)
    (htype : recycleBinObjectType r = .directory) :
    r.objectKey = recycleBinObjectPath r ++ folderMarkerFilename := by
  obtain ⟨rest, hkey, hne, hslash⟩ := hbelow
  have hmarker : isFolderMarkerKey r.objectKey = true := by
    by_contra hnot
    rw [recycleBinObjectType, if_neg hnot] at htype
    cases htype
  rw [recycleBinObjectPath, if_pos hmarker]
  rw [hkey] at hmarker ⊢
  rcases marker_below hne hslash hmarker with rfl | ⟨sub, rfl⟩
  · rw [trimSuffix_append]
  · rw [← String.append_assoc, trimSuffix_append]

/-- The marker of the folder is the one the group has. -/
theorem FolderDelete.marked (h : FolderDelete dir marker rows) :
    directoryMarkers rows ⟨marker.bucketName, dir ++ "/"⟩ = some marker := by
  obtain ⟨htype, hpath⟩ := marker_type h.marker_key
  have hmem : marker ∈ markersOf rows ⟨marker.bucketName, dir ++ "/"⟩ :=
    List.mem_filter.mpr ⟨h.mem, decide_eq_true ⟨htype, by rw [hpath]⟩⟩
  rw [directoryMarkers_eq]
  cases hlast : (markersOf rows ⟨marker.bucketName, dir ++ "/"⟩).getLast? with
  | none =>
      rw [List.getLast?_eq_none_iff] at hlast
      rw [hlast] at hmem
      exact absurd hmem List.not_mem_nil
  | some r =>
      obtain ⟨hr, hdec⟩ := List.mem_filter.mp (List.mem_of_getLast? hlast)
      obtain ⟨hdirectory, hkey⟩ := of_decide_eq_true hdec
      have hpath' : recycleBinObjectPath r = dir ++ "/" := (DirectoryKey.mk.inj hkey).2
      have hself := h.once r hr (by
        rw [key_of_directory (h.below r hr) hdirectory, hpath', h.marker_key])
      rw [hself]

/-- Every marked directory of the group lies in the folder. -/
theorem FolderDelete.marked_below (h : FolderDelete dir marker rows) {key : DirectoryKey}
    (hkey : (directoryMarkers rows key).isSome = true) :
    (dir ++ "/").toList.length ≤ key.path.toList.length := by
  rw [directoryMarkers_eq] at hkey
  obtain ⟨r, hr⟩ := Option.isSome_iff_exists.mp hkey
  obtain ⟨hmem, hdec⟩ := List.mem_filter.mp (List.mem_of_getLast? hr)
  obtain ⟨-, rfl⟩ := of_decide_eq_true hdec
  obtain ⟨⟨sub, hsub⟩, -, -⟩ := (h.below r hmem).path h.dir_ne
  show _ ≤ (recycleBinObjectPath r).toList.length
  have hlength :
      (dir ++ "/" ++ sub).toList.length = (dir ++ "/").toList.length + sub.toList.length :=
    (congrArg List.length String.toList_append).trans List.length_append
  rw [hsub, hlength]
  exact Nat.le_add_right _ _

/-- The order of the rows does not matter. -/
theorem FolderDelete.of_mem_iff {rows' : List RecycleBinObject} (h : FolderDelete dir marker rows)
    (hmem : ∀ r, r ∈ rows' ↔ r ∈ rows) : FolderDelete dir marker rows' where
  dir_ne := h.dir_ne
  mem := (hmem marker).mpr h.mem
  marker_key := h.marker_key
  bucket r hr := h.bucket r ((hmem r).mp hr)
  below r hr := h.below r ((hmem r).mp hr)
  once r hr := h.once r ((hmem r).mp hr)

/-- **The owner** of every row is the folder. -/
theorem FolderDelete.owner (h : FolderDelete dir marker rows) {r : RecycleBinObject}
    (hr : r ∈ rows) :
    recycleBinOwningDirectoryKey (directoryMarkers rows) r
      = some ⟨marker.bucketName, dir ++ "/"⟩ := by
  obtain ⟨-, hne, more, hsegs, hdeep⟩ := (h.below r hr).path h.dir_ne
  have hself : (recycleBinObjectType r == .directory) = true ∨ more ≠ [] :=
    hdeep.imp_left beq_iff_eq.mpr
  obtain ⟨front, back, hpaths, hshort⟩ := ancestors_split hne hsegs hself
  rw [recycleBinOwningDirectoryKey, hpaths, List.map_append, List.map_cons, List.find?_append,
    h.bucket r hr]
  have hnone : (front.map fun path => DirectoryKey.mk marker.bucketName path).find?
      (fun key => (directoryMarkers rows key).isSome) = none := by
    refine List.find?_eq_none.mpr fun key hkey hsome => ?_
    obtain ⟨p, hp, rfl⟩ := List.mem_map.mp hkey
    exact absurd (hshort p hp) (Nat.not_lt.mpr (h.marked_below hsome))
  rw [hnone, Option.none_or, List.find?_cons, h.marked]
  rfl

/-! ## One item -/

/-- The sizes of the files of a group. -/
def fileSizes (rows : List RecycleBinObject) : List Int :=
  (rows.filter fun r => decide (recycleBinObjectType r = .file)).map (·.size)

/-- What a deleted folder is shown as: its marker, with the sizes of its files. -/
def folderItem (marker : RecycleBinObject) (rows : List RecycleBinObject) : RecycleBinObjectItem :=
  { recycleBinObjectToItem marker with
    size := (marker.size + (fileSizes rows).sum).bmod (2 ^ 64) }

/-- One row more is one size more, if it is a file. -/
theorem fileSizes_cons (r : RecycleBinObject) (rest : List RecycleBinObject) :
    fileSizes (r :: rest)
      = if recycleBinObjectType r = .file then r.size :: fileSizes rest else fileSizes rest := by
  rw [fileSizes, List.filter_cons]
  by_cases h : recycleBinObjectType r = .file
  · rw [if_pos (decide_eq_true h), if_pos h, List.map_cons]
    rfl
  · rw [if_neg fun hdec => h (of_decide_eq_true hdec), if_neg h]
    rfl

/-- `int64` sums in any grouping. -/
theorem foldl_addInt64 : ∀ (sizes : List Int) (n : Int),
    (sizes.foldl addInt64 n).bmod (2 ^ 64) = (n + sizes.sum).bmod (2 ^ 64) := by
  intro sizes
  induction sizes with
  | nil => exact fun n => by rw [List.sum_nil, Int.add_zero, List.foldl_nil]
  | cons size rest ih =>
      intro n
      rw [List.foldl_cons, ih, addInt64, Int.bmod_add_bmod, List.sum_cons, Int.add_assoc]

/-- A sum that wraps stays within 64 bits. -/
theorem foldl_addInt64_range : ∀ (sizes : List Int) (n : Int), n.bmod (2 ^ 64) = n →
    (sizes.foldl addInt64 n).bmod (2 ^ 64) = sizes.foldl addInt64 n := by
  intro sizes
  induction sizes with
  | nil => exact fun n h => h
  | cons size rest ih => exact fun n _ => ih _ Int.bmod_bmod

/-- The accumulator of the second loop, with the one item of the folder. -/
def oneItem (key : DirectoryKey) (l : LogicalItem) : GroupItems :=
  ⟨[l], Function.update (fun _ => none) key (some 0)⟩

/-- The item after one more row. -/
def LogicalItem.add (l : LogicalItem) (r : RecycleBinObject) : LogicalItem :=
  { item := { l.item with
      size := if recycleBinObjectType r = .file then addInt64 l.item.size r.size else l.item.size }
    lastCursor := recycleBinCursorFromObject r }

/-- A further row of the directory goes into the item that is there. -/
theorem addGroupItem_next {markers : Markers} {key : DirectoryKey} {r : RecycleBinObject}
    (howner : recycleBinOwningDirectoryKey markers r = some key) (l : LogicalItem) :
    addGroupItem markers (oneItem key l) r = oneItem key (LogicalItem.add l r) := by
  rw [addGroupItem, howner]
  dsimp only [oneItem]
  rw [Function.update_self]
  by_cases h : recycleBinObjectType r = .file
  · rw [if_pos h, LogicalItem.add, if_pos h]
    rfl
  · rw [if_neg h, LogicalItem.add, if_neg h]
    rfl

/-- The first row of a directory opens the item with the marker. -/
theorem addGroupItem_first {markers : Markers} {key : DirectoryKey} {r marker : RecycleBinObject}
    (howner : recycleBinOwningDirectoryKey markers r = some key)
    (hmarker : markers key = some marker) :
    addGroupItem markers ⟨[], fun _ => none⟩ r
      = oneItem key
          (LogicalItem.add ⟨recycleBinObjectToItem marker, recycleBinCursorFromObject r⟩ r) := by
  rw [addGroupItem, howner]
  dsimp only
  rw [hmarker]
  by_cases h : recycleBinObjectType r = .file
  · rw [if_pos h, LogicalItem.add, if_pos h]
    rfl
  · rw [if_neg h, LogicalItem.add, if_neg h]
    rfl

/-- What the rows of the folder make of its item. -/
theorem foldl_add (rows : List RecycleBinObject) : ∀ l : LogicalItem,
    rows.foldl LogicalItem.add l
      = { item := { l.item with size := (fileSizes rows).foldl addInt64 l.item.size }
          lastCursor := ((rows.getLast?).map recycleBinCursorFromObject).getD l.lastCursor } := by
  induction rows with
  | nil => exact fun l => rfl
  | cons r rest ih =>
      intro l
      rw [List.foldl_cons, ih, fileSizes_cons, List.getLast?_cons]
      have hlast :
        (rest.getLast?.map recycleBinCursorFromObject).getD (recycleBinCursorFromObject r)
          = recycleBinCursorFromObject (rest.getLast?.getD r) := by
        cases rest.getLast? <;> rfl
      show LogicalItem.mk _ ((rest.getLast?.map recycleBinCursorFromObject).getD
        (recycleBinCursorFromObject r)) = _
      rw [hlast]
      by_cases h : recycleBinObjectType r = .file
      · rw [LogicalItem.add, if_pos h, if_pos h]
        rfl
      · rw [LogicalItem.add, if_neg h, if_neg h]
        rfl

/-- **A deleted folder** is one item, and its cursor is that of its last row. -/
theorem FolderDelete.logicalItems (h : FolderDelete dir marker rows)
    (hsize : marker.size.bmod (2 ^ 64) = marker.size) :
    ∃ last, rows.getLast? = some last
      ∧ recycleBinLogicalItemsFromDeleteGroup rows
        = [⟨folderItem marker rows, recycleBinCursorFromObject last⟩] := by
  obtain ⟨r, rest, rfl⟩ := List.exists_cons_of_ne_nil (List.ne_nil_of_mem h.mem)
  obtain ⟨last, hlast⟩ : ∃ last, (r :: rest).getLast? = some last := ⟨_, List.getLast?_cons⟩
  refine ⟨last, hlast, ?_⟩
  have hgo : ∀ (more : List RecycleBinObject), (∀ r' ∈ more, r' ∈ r :: rest) → ∀ l : LogicalItem,
      more.foldl (addGroupItem (directoryMarkers (r :: rest)))
          (oneItem ⟨marker.bucketName, dir ++ "/"⟩ l)
        = oneItem ⟨marker.bucketName, dir ++ "/"⟩ (more.foldl LogicalItem.add l) := by
    intro more
    induction more with
    | nil => exact fun _ l => rfl
    | cons r' more ih =>
        intro hmore l
        obtain ⟨hr', hmore⟩ := List.forall_mem_cons.mp hmore
        rw [List.foldl_cons, addGroupItem_next (h.owner hr'), ih hmore]
        rfl
  rw [recycleBinLogicalItemsFromDeleteGroup, List.foldl_cons,
    addGroupItem_first (h.owner List.mem_cons_self) h.marked,
    hgo rest fun r' hr' => List.mem_cons_of_mem _ hr']
  have hfold := foldl_add (r :: rest) ⟨recycleBinObjectToItem marker, recycleBinCursorFromObject r⟩
  rw [List.foldl_cons, hlast] at hfold
  rw [hfold]
  have hsum : (fileSizes (r :: rest)).foldl addInt64 marker.size
      = (marker.size + (fileSizes (r :: rest)).sum).bmod (2 ^ 64) := by
    rw [← foldl_addInt64, foldl_addInt64_range _ _ hsize]
  show [LogicalItem.mk _ _] = _
  rw [folderItem, ← hsum]
  rfl

/-- **A single row** is one item, whatever its key is. -/
theorem logicalItems_single (r : RecycleBinObject) :
    recycleBinLogicalItemsFromDeleteGroup [r]
      = [⟨recycleBinObjectToItem r, recycleBinCursorFromObject r⟩] := by
  rw [recycleBinLogicalItemsFromDeleteGroup, List.foldl_cons, List.foldl_nil]
  cases howner : recycleBinOwningDirectoryKey (directoryMarkers [r]) r with
  | none =>
      rw [addGroupItem, howner]
      rfl
  | some key =>
      have hsome : (directoryMarkers [r] key).isSome = true := by
        rw [recycleBinOwningDirectoryKey] at howner
        have hfound := List.find?_some howner
        exact hfound
      have hmarked : directoryMarkers [r] key = some r ∧ recycleBinObjectType r = .directory := by
        rw [directoryMarkers_eq, markersOf_cons] at hsome ⊢
        split at hsome
        · next h =>
            rw [if_pos h]
            exact ⟨rfl, h.1⟩
        · cases hsome
      rw [addGroupItem_first howner hmarked.1, LogicalItem.add, if_neg (by rw [hmarked.2]; decide)]
      rfl

end RecycleGroups
