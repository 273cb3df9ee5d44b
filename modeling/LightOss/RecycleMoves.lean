import LightOss.CatalogSpecs

/-! # Recycle moves — what a delete, a restore and a purge do to the tables

    One specification for each transaction.  A delete takes rows out of the object
    table and appends their images to the recycle bin under consecutive ids
    (`Moved`); a restore goes the other way (`Restored`); a purge only takes rows out of
    the recycle bin (`Purged`).

    The folder delete is the one with an argument: which rows it writes depends on
    where the folder's marker stands in the list (`folderDelete_perm`,
    `deleteFolderRecursive_moves`). -/

namespace RecycleMoves

open KeyedTable Fallible LedgerRows Catalog Validation MetadataServices CatalogSpecs

variable {k : Collation} {c c' : Tables k}

/-! ## Into the recycle bin -/

/-- `objects` left the object table and `items` entered the recycle bin. -/
structure Moved (c c' : Tables k) (objects : List Object) (items : List RecycleBinObject) :
    Prop where
  objects : c'.objects.rows = c.objects.rows.filter fun o => !decide (o.id ∈ objects.map (·.id))
  recycleBin : c'.recycleBin.rows = c.recycleBin.rows ++ withIDs c.nextRecycleID items
  nextRecycleID : c'.nextRecycleID = c.nextRecycleID + items.length
  nextObjectID : c'.nextObjectID = c.nextObjectID
  buckets : c'.buckets = c.buckets
  sites : c'.sites = c.sites
  siteDomains : c'.siteDomains = c.siteDomains

/-- Writing the images and deleting the rows is one move. -/
theorem moved_of_steps {m : Tables k} (objects : List Object) {items : List RecycleBinObject}
    (h : createRecycleBatch c items = .ok m) :
    Moved c (hardDeleteByIDs m (objects.map (·.id))).2 objects items := by
  obtain ⟨honly, hnext, hrows⟩ := createRecycleBatch_ok items h
  refine ⟨?_, hrows, hnext, honly.nextObjectID, honly.buckets, honly.sites, honly.siteDomains⟩
  rw [hardDeleteByIDs_rows, honly.objects]

/-- The rows that stay and the rows that go, when those are rows of the table. -/
theorem Moved.mem_objects {objects : List Object} {items : List RecycleBinObject}
    (h : Moved c c' objects items) (hmem : ∀ o ∈ objects, o ∈ c.objects.rows) (o : Object) :
    o ∈ c'.objects.rows ↔ o ∈ c.objects.rows ∧ o ∉ objects := by
  rw [h.objects, List.mem_filter, Bool.not_eq_true', decide_eq_false_iff_not, List.mem_map]
  refine and_congr_right fun ho => not_congr ?_
  constructor
  · rintro ⟨a, ha, hid⟩
    rwa [← c.objects.eq_of_clash (hmem a ha) ho (by simp [Object.clash, hid])]
  · intro hin
    exact ⟨o, hin, rfl⟩

/-- What is left is what the condition does not pick. -/
theorem Moved.filter_eq {objects : List Object} {items : List RecycleBinObject}
    (h : Moved c c' objects items) {p : Object → Bool}
    (hp : ∀ o, o ∈ objects ↔ o ∈ c.objects.rows ∧ p o = true) :
    c'.objects.rows = c.objects.rows.filter fun o => !p o := by
  rw [h.objects]
  refine List.filter_congr fun o ho => congrArg not (Bool.eq_iff_iff.mpr ?_)
  rw [decide_eq_true_eq, List.mem_map]
  constructor
  · rintro ⟨a, ha, hid⟩
    obtain ⟨hmem, hpa⟩ := (hp a).mp ha
    rwa [← c.objects.eq_of_clash hmem ho (by simp [Object.clash, hid])]
  · intro hpo
    exact ⟨o, (hp o).mpr ⟨ho, hpo⟩, rfl⟩

/-- `Delete` moves the one row under the key. -/
theorem deleteObject_ok {bucketName objectKey group : String} {deletedAt : Time}
    (h : deleteObject c bucketName objectKey deletedAt group = .ok c') :
    ∃ object ∈ c.objects.rows, sameKey k bucketName objectKey object = true
      ∧ Moved c c' [object] [recycleBinObjectFromObject object deletedAt group] := by
  rw [deleteObject, mapError_eq_ok] at h
  obtain ⟨object, hfind, h⟩ := bind_eq_ok.mp h
  obtain ⟨m, hm, h⟩ := bind_eq_ok.mp h
  obtain ⟨_, -, h⟩ := bind_eq_ok.mp h
  cases pure_eq_ok.mp h
  obtain ⟨hmem, hkey⟩ := findActive_ok hfind
  exact ⟨object, hmem, hkey, moved_of_steps [object] (mapError_eq_ok.mp hm)⟩

/-- A recursive delete moves all rows below the path, of which there is one at least. -/
theorem deleteFolderRecursive_ok {bucketName folderPath group : String} {deletedAt : Time}
    (h : deleteFolderRecursive c bucketName folderPath deletedAt group = .ok c') :
    listActiveByPrefixOrdered c bucketName folderPath ≠ []
      ∧ Moved c c' (listActiveByPrefixOrdered c bucketName folderPath)
        (recycleBinObjectsFromFolderDelete (listActiveByPrefixOrdered c bucketName folderPath)
          folderPath deletedAt group) := by
  rw [deleteFolderRecursive] at h
  obtain ⟨_, hne, h⟩ := bind_eq_ok.mp h
  obtain ⟨m, hm, h⟩ := bind_eq_ok.mp h
  obtain ⟨_, -, h⟩ := bind_eq_ok.mp h
  cases pure_eq_ok.mp h
  exact ⟨ensure_eq_ok.mp hne, moved_of_steps _ (mapError_eq_ok.mp hm)⟩

/-- The loop that looks for the marker answers with one of the rows. -/
theorem onlyMarker_mem {markerKey : String} : ∀ (objects : List Object) (start : Option Object)
    {marker : Object}, onlyMarker markerKey start objects = .ok (some marker) →
      marker ∈ objects ∨ start = some marker := by
  intro objects
  induction objects with
  | nil =>
      intro start marker h
      cases h
      exact Or.inr rfl
  | cons o rest ih =>
      intro start marker h
      rw [onlyMarker] at h
      split at h
      · rcases ih (some o) h with hmem | heq
        · exact Or.inl (List.mem_cons_of_mem _ hmem)
        · cases heq
          exact Or.inl List.mem_cons_self
      · exact nomatch h

/-- What the folder queries return: distinct rows of the table. -/
theorem listActiveByPrefixOrdered_rows (c : Tables k) (bucketName pfx : String) :
    (listActiveByPrefixOrdered c bucketName pfx).Nodup
      ∧ ∀ o, o ∈ listActiveByPrefixOrdered c bucketName pfx ↔
        o ∈ c.objects.rows ∧ k.eq o.bucketName bucketName = true ∧ prefixFilter k pfx o = true := by
  rw [listActiveByPrefixOrdered]
  refine ⟨(List.mergeSort_perm _ _).nodup_iff.mpr (c.objects.rows_nodup.filter _), fun o => ?_⟩
  rw [List.mem_mergeSort, Table.mem_select, Bool.and_eq_true]

theorem deleteFolderEmpty_ok {bucketName folderPath group : String} {deletedAt : Time}
    (h : deleteFolderEmpty c bucketName folderPath deletedAt group = .ok c') :
    ∃ marker ∈ c.objects.rows,
      Moved c c' [marker] [recycleBinObjectFromObject marker deletedAt group] := by
  rw [deleteFolderEmpty] at h
  obtain ⟨_, -, h⟩ := bind_eq_ok.mp h
  obtain ⟨found, hfound, h⟩ := bind_eq_ok.mp h
  obtain ⟨marker, hmarker, h⟩ := bind_eq_ok.mp h
  obtain ⟨m, hm, h⟩ := bind_eq_ok.mp h
  obtain ⟨_, -, h⟩ := bind_eq_ok.mp h
  cases pure_eq_ok.mp h
  rw [orElseThrow_eq_ok.mp hmarker] at hfound
  have hmem := (onlyMarker_mem _ none hfound).resolve_right nofun
  exact ⟨marker, (((listActiveByPrefixOrdered_rows c bucketName folderPath).2 marker).mp hmem).1,
    moved_of_steps [marker] (mapError_eq_ok.mp hm)⟩

theorem deleteFolder_ok {bucketName folderPath group : String} {isRecursive : Bool}
    {deletedAt : Time}
    (h : deleteFolder c bucketName folderPath isRecursive deletedAt group = .ok c') :
    (isRecursive = true ∧ deleteFolderRecursive c bucketName folderPath deletedAt group = .ok c')
      ∨ (isRecursive = false
        ∧ deleteFolderEmpty c bucketName folderPath deletedAt group = .ok c') := by
  rw [deleteFolder] at h
  obtain ⟨_, -, h⟩ := bind_eq_ok.mp h
  obtain ⟨_, -, h⟩ := bind_eq_ok.mp h
  cases isRecursive with
  | true => exact Or.inl ⟨rfl, mapError_eq_ok.mp h⟩
  | false => exact Or.inr ⟨rfl, mapError_eq_ok.mp h⟩

theorem deleteFolder_path {bucketName folderPath group : String} {isRecursive : Bool}
    {deletedAt : Time}
    (h : deleteFolder c bucketName folderPath isRecursive deletedAt group = .ok c') :
    validateFolderPath folderPath = .ok () := by
  rw [deleteFolder] at h
  obtain ⟨_, -, h⟩ := bind_eq_ok.mp h
  obtain ⟨_, hpath, -⟩ := bind_eq_ok.mp h
  exact hpath

/-- A synthetic marker is one that a restore skips. -/
theorem skip_synthetic {folderPath : String} (h : hasSuffix folderPath "/" = true)
    (bucketName : String) (deletedAt : Time) (group : String) :
    shouldSkipRecycleBinRestoreItem
      (syntheticRecycleBinDirectoryObject bucketName folderPath deletedAt group) = true := by
  rw [shouldSkipRecycleBinRestoreItem, Bool.and_eq_true, beq_iff_eq, recycleBinObjectType]
  exact ⟨if_pos (isFolderMarkerKey_marker h), rfl⟩

/-! ## The rows of a folder delete -/

/-- The last marker of a list is the only one when rows with one key are one row. -/
theorem filter_marker {objects : List Object} {markerKey : String} (hnd : objects.Nodup)
    (hone : ∀ a ∈ objects, ∀ b ∈ objects, a.objectKey = markerKey → b.objectKey = markerKey →
      a = b) :
    objects.filter (fun o => !(o.objectKey != markerKey))
      = (representative objects markerKey).toList := by
  cases hrep : representative objects markerKey with
  | none =>
      refine List.filter_eq_nil_iff.mpr fun o ho hkey => ?_
      have hnone := List.find?_eq_none.mp hrep o (List.mem_reverse.mpr ho)
      rw [bne, Bool.not_not] at hkey
      exact hnone hkey
  | some a =>
      rw [representative] at hrep
      have ha := List.mem_reverse.mp (List.mem_of_find?_eq_some hrep)
      have hfound := List.find?_some hrep
      have hakey : a.objectKey = markerKey := beq_iff_eq.mp hfound
      refine List.perm_singleton.mp ?_
      refine (List.perm_ext_iff_of_nodup (hnd.filter _) (List.nodup_singleton _)).mpr fun o => ?_
      rw [List.mem_filter, List.mem_singleton, bne, Bool.not_not, beq_iff_eq]
      constructor
      · rintro ⟨ho, hkey⟩
        exact hone o ho a ha hkey hakey
      · rintro rfl
        exact ⟨ha, hakey⟩

/-- What stands in for the marker of a folder that has none. -/
def syntheticMarker (objects : List Object) (bucketName folderPath : String) (deletedAt : Time)
    (group : String) : List RecycleBinObject :=
  if (representative objects (folderPath ++ folderMarkerFilename)).isSome then []
  else [syntheticRecycleBinDirectoryObject bucketName folderPath deletedAt group]

theorem syntheticMarker_cases (objects : List Object) (bucketName folderPath : String)
    (deletedAt : Time) (group : String) :
    syntheticMarker objects bucketName folderPath deletedAt group = []
      ∨ syntheticMarker objects bucketName folderPath deletedAt group
        = [syntheticRecycleBinDirectoryObject bucketName folderPath deletedAt group] := by
  rw [syntheticMarker]
  split
  · exact Or.inl rfl
  · exact Or.inr rfl

/-- A folder delete writes the image of each row once, and a synthetic marker when
    no row is the marker. -/
theorem folderDelete_perm {first : Object} {rest : List Object} (folderPath group : String)
    (deletedAt : Time) (hnd : (first :: rest).Nodup)
    (hone : ∀ a ∈ first :: rest, ∀ b ∈ first :: rest,
      a.objectKey = folderPath ++ folderMarkerFilename →
      b.objectKey = folderPath ++ folderMarkerFilename → a = b) :
    ∃ moved : List Object, moved.Perm (first :: rest)
      ∧ recycleBinObjectsFromFolderDelete (first :: rest) folderPath deletedAt group
        = moved.map (recycleBinObjectFromObject · deletedAt group)
          ++ syntheticMarker (first :: rest) first.bucketName folderPath deletedAt group := by
  have hsplit : ((first :: rest).filter (fun o => o.objectKey != folderPath ++ folderMarkerFilename)
      ++ (representative (first :: rest) (folderPath ++ folderMarkerFilename)).toList).Perm
        (first :: rest) := by
    rw [← filter_marker hnd hone]
    exact List.filter_append_perm _ _
  refine ⟨_, hsplit, ?_⟩
  rw [recycleBinObjectsFromFolderDelete, syntheticMarker, List.map_append]
  cases representative (first :: rest) (folderPath ++ folderMarkerFilename) with
  | some object => exact (List.append_nil _).symm
  | none => exact congrArg (· ++ _) (List.append_nil _).symm

/-- The rows a folder query returns hold the marker at most once. -/
theorem marker_unique {bucketName : String} {objects : List Object}
    (hrows : ∀ o ∈ objects, o ∈ c.objects.rows ∧ k.eq o.bucketName bucketName = true)
    {a b : Object} (ha : a ∈ objects) (hb : b ∈ objects) {markerKey : String}
    (hak : a.objectKey = markerKey) (hbk : b.objectKey = markerKey) : a = b := by
  have hkey : ∀ o ∈ objects, o.objectKey = markerKey →
      sameKey k bucketName markerKey o = true := by
    intro o ho hok
    rw [sameKey, (hrows o ho).2, hok, Collation.eq_refl, Bool.and_self]
  exact eq_of_sameKey (hrows a ha).1 (hrows b hb).1 (hkey a ha hak) (hkey b hb hbk)

/-- **A recursive folder delete**: the rows the query found leave the table, and their
    images enter the recycle bin, with a synthetic marker when none of them is the
    marker. -/
theorem deleteFolderRecursive_moves {bucketName folderPath group : String} {deletedAt : Time}
    (h : deleteFolderRecursive c bucketName folderPath deletedAt group = .ok c') :
    ∃ (moved : List Object) (owner : String),
      (∃ o ∈ listActiveByPrefixOrdered c bucketName folderPath, owner = o.bucketName)
      ∧ moved.Perm (listActiveByPrefixOrdered c bucketName folderPath)
      ∧ Moved c c' (listActiveByPrefixOrdered c bucketName folderPath)
        (moved.map (recycleBinObjectFromObject · deletedAt group)
          ++ syntheticMarker (listActiveByPrefixOrdered c bucketName folderPath) owner folderPath
            deletedAt group) := by
  obtain ⟨hne, hmoved⟩ := deleteFolderRecursive_ok h
  obtain ⟨hnd, hrows⟩ := listActiveByPrefixOrdered_rows c bucketName folderPath
  revert hne hmoved hnd hrows
  cases listActiveByPrefixOrdered c bucketName folderPath with
  | nil => exact fun hne => absurd rfl hne
  | cons first rest =>
      intro _ hmoved hnd hrows
      have hrows := fun o ho => (hrows o).mp ho
      obtain ⟨moved, hperm, hitems⟩ := folderDelete_perm folderPath group deletedAt
        hnd fun a ha b hb hak hbk =>
          marker_unique (fun o ho => ⟨(hrows o ho).1, (hrows o ho).2.1⟩) ha hb hak hbk
      exact ⟨moved, first.bucketName, ⟨first, List.mem_cons_self, rfl⟩, hperm, hitems ▸ hmoved⟩

/-! ## Out of the recycle bin -/

/-- The rows of one multi-row insert get consecutive ids. -/
def objectsWithIDs (next : Nat) : List Object → List Object
  | [] => []
  | object :: rest => { object with id := next } :: objectsWithIDs (next + 1) rest

/-- A row that was numbered has a number of the stretch and all else from before. -/
theorem mem_objectsWithIDs : ∀ (objects : List Object) (next : Nat) {o : Object},
    o ∈ objectsWithIDs next objects →
      next ≤ o.id ∧ o.id < next + objects.length ∧ ∃ a ∈ objects, o = { a with id := o.id } := by
  intro objects
  induction objects with
  | nil => exact fun _ _ h => nomatch h
  | cons object rest ih =>
      intro next o ho
      rw [List.length_cons]
      rcases List.mem_cons.mp ho with rfl | ho
      · exact ⟨Nat.le_refl _, by show next < _; omega, object, List.mem_cons_self, rfl⟩
      · obtain ⟨hlow, hhigh, a, ha, heq⟩ := ih (next + 1) ho
        exact ⟨by omega, by omega, a, List.mem_cons_of_mem _ ha, heq⟩

theorem insertObject_next {object : Object} (h : insertObject c object = .ok c') :
    c'.nextObjectID = c.nextObjectID + 1 := by
  rw [insertObject] at h
  split at h
  · split at h
    · cases h
      rfl
    · cases h
  · cases h

/-- A loop of inserts appends the rows under consecutive numbers. -/
theorem insertObjects_ok : ∀ (objects : List Object) {c c' : Tables k},
    objects.foldlM insertObject c = .ok c' →
      ObjectsOnly c c' ∧ c'.nextObjectID = c.nextObjectID + objects.length
        ∧ c'.objects.rows = c.objects.rows ++ objectsWithIDs c.nextObjectID objects := by
  intro objects
  induction objects with
  | nil =>
      intro c c' h
      obtain rfl := pure_eq_ok.mp h
      exact ⟨ObjectsOnly.refl c, rfl, (List.append_nil _).symm⟩
  | cons object rest ih =>
      intro c c' h
      rw [List.foldlM_cons] at h
      obtain ⟨m, hm, h⟩ := bind_eq_ok.mp h
      obtain ⟨h1, -, hrows⟩ := insertObject_ok hm
      obtain ⟨h2, hnext, hrows'⟩ := ih h
      rw [insertObject_next hm] at hnext hrows'
      refine ⟨h1.trans h2, ?_, ?_⟩
      · rw [hnext, List.length_cons]
        omega
      · rw [hrows', hrows, List.append_assoc]
        rfl

/-- `groupItems` left the recycle bin and the files among them came back. -/
structure Restored (c c' : Tables k) (groupItems : List RecycleBinObject) (updatedAt : Time) :
    Prop where
  objects : c'.objects.rows = c.objects.rows
    ++ objectsWithIDs c.nextObjectID ((restoreTargets groupItems).map (restoredObject updatedAt))
  recycleBin : c'.recycleBin.rows
    = c.recycleBin.rows.filter fun r => !decide (r.id ∈ groupItems.map (·.id))
  all : c.recycleBin.count (fun r => decide (r.id ∈ groupItems.map (·.id))) = groupItems.length
  nextObjectID : c'.nextObjectID = c.nextObjectID + (restoreTargets groupItems).length
  nextRecycleID : c'.nextRecycleID = c.nextRecycleID
  buckets : c'.buckets = c.buckets
  sites : c'.sites = c.sites
  siteDomains : c'.siteDomains = c.siteDomains

theorem restoreItems_ok {groupItems : List RecycleBinObject} {updatedAt : Time}
    (h : restoreItems c groupItems updatedAt = .ok c') : Restored c c' groupItems updatedAt := by
  rw [restoreItems] at h
  obtain ⟨m, hm, h⟩ := bind_eq_ok.mp h
  obtain ⟨_, hcount, h⟩ := bind_eq_ok.mp h
  cases pure_eq_ok.mp h
  obtain ⟨honly, hnext, hrows⟩ := insertObjects_ok _ (mapError_eq_ok.mp hm)
  have hcount := ensure_eq_ok.mp hcount
  rw [List.length_map] at hnext
  refine ⟨hrows, ?_, ?_, hnext, honly.nextRecycleID, honly.buckets, honly.sites, honly.siteDomains⟩
  · rw [← honly.recycleBin]
    rfl
  · rw [← honly.recycleBin]
    exact hcount

/-- The reads of a restore: the item, the bucket, and no key in use. -/
theorem restoreReads_ok {itemID : Nat} {groupItems : List RecycleBinObject}
    (h : restoreReads c itemID = .ok groupItems) :
    ∃ item ∈ c.recycleBin.rows, item.id = itemID
      ∧ groupItems = loadRecycleBinActionItems c item
      ∧ bucketExists c item.bucketName = true
      ∧ listExistingActiveKeys c item.bucketName ((restoreTargets groupItems).map (·.objectKey))
        = [] := by
  rw [restoreReads] at h
  obtain ⟨item, hitem, h⟩ := bind_eq_ok.mp h
  obtain ⟨_, hbucket, h⟩ := bind_eq_ok.mp h
  obtain ⟨_, hfree, h⟩ := bind_eq_ok.mp h
  cases pure_eq_ok.mp h
  obtain ⟨hmem, hid⟩ := findRecycle_ok (mapError_eq_ok.mp hitem)
  exact ⟨item, hmem, hid, rfl, ensure_eq_ok.mp hbucket, ensure_eq_ok.mp hfree⟩

theorem restoreObject_ok {itemID : Nat} {updatedAt : Time}
    (h : restoreObject c itemID updatedAt = .ok c') :
    ∃ groupItems, restoreReads c itemID = .ok groupItems ∧ Restored c c' groupItems updatedAt := by
  rw [restoreObject] at h
  obtain ⟨groupItems, hread, h⟩ := bind_eq_ok.mp h
  exact ⟨groupItems, hread, restoreItems_ok h⟩

/-- `groupItems` left the recycle bin for good. -/
structure Purged (c c' : Tables k) (groupItems : List RecycleBinObject) : Prop where
  tables : c' = { c with
    recycleBin := c.recycleBin.deleteWhere fun r => decide (r.id ∈ groupItems.map (·.id)) }
  all : c.recycleBin.count (fun r => decide (r.id ∈ groupItems.map (·.id))) = groupItems.length

/-- The writes of a purge, and the paths it hands on. -/
theorem purgeItems_ok {groupItems : List RecycleBinObject} {released : List String}
    (h : purgeItems groupItems c = .ok (c', released)) :
    Purged c c' groupItems
      ∧ released = (groupItems.map (·.storagePath)).filter (· != "") := by
  rw [purgeItems] at h
  obtain ⟨_, hcount, h⟩ := bind_eq_ok.mp h
  cases pure_eq_ok.mp h
  exact ⟨⟨rfl, ensure_eq_ok.mp hcount⟩, rfl⟩

theorem purgeReads_ok {itemID : Nat} {groupItems : List RecycleBinObject}
    (h : purgeReads c itemID = .ok groupItems) :
    ∃ item ∈ c.recycleBin.rows, item.id = itemID
      ∧ groupItems = loadRecycleBinActionItems c item := by
  rw [purgeReads] at h
  obtain ⟨item, hitem, h⟩ := bind_eq_ok.mp h
  cases pure_eq_ok.mp h
  obtain ⟨hmem, hid⟩ := findRecycle_ok (mapError_eq_ok.mp hitem)
  exact ⟨item, hmem, hid, rfl⟩

/-! ## Deletes that find something

    With the auto-increment counter above every id and the bucket in place the
    inserts fit, so a delete fails only when it finds nothing. -/

/-- The auto-increment counter of the recycle bin is above every id. -/
def RecycleIDs (c : Tables k) : Prop := ∀ r ∈ c.recycleBin.rows, r.id < c.nextRecycleID

/-- Numbers of the bin stay distinct and below the counter. -/
theorem Moved.recycleIDs {objects : List Object} {items : List RecycleBinObject}
    (h : Moved c c' objects items) (hids : RecycleIDs c) : RecycleIDs c' := by
  intro r hr
  rw [h.nextRecycleID]
  rcases List.mem_append.mp (h.recycleBin ▸ hr) with hr | hr
  · exact Nat.lt_add_right _ (hids r hr)
  · exact (mem_withIDs _ _ hr).2.1

/-- A row of an existing bucket is accepted. -/
theorem insertRecycle_fits {item : RecycleBinObject} (hids : RecycleIDs c)
    (hbucket : bucketExists c item.bucketName = true) : ∃ c', insertRecycle c item = .ok c' := by
  have hfit : ∀ r ∈ c.recycleBin.rows,
      RecycleBinObject.clash r { item with id := c.nextRecycleID } = false := by
    intro r hr
    rw [RecycleBinObject.clash, beq_eq_false_iff_ne]
    exact Nat.ne_of_lt (hids r hr)
  rw [insertRecycle, if_pos hbucket, Table.insert?, dif_pos hfit]
  exact ⟨_, rfl⟩

theorem createRecycleBatch_fits : ∀ (items : List RecycleBinObject) {c : Tables k},
    RecycleIDs c → (∀ i ∈ items, bucketExists c i.bucketName = true) →
      ∃ c', createRecycleBatch c items = .ok c' := by
  intro items
  induction items with
  | nil => exact fun _ _ => ⟨_, rfl⟩
  | cons item rest ih =>
      intro c hids hbuckets
      obtain ⟨m, hm⟩ := insertRecycle_fits hids (hbuckets item List.mem_cons_self)
      obtain ⟨honly, -, hnext, hrows⟩ := insertRecycle_ok hm
      have hids' : RecycleIDs m := by
        intro r hr
        rw [hnext]
        rcases List.mem_append.mp (hrows ▸ hr) with hr | hr
        · exact Nat.lt_succ_of_lt (hids r hr)
        · rw [List.mem_singleton.mp hr]
          exact Nat.lt_succ_self _
      obtain ⟨c', hc'⟩ := ih hids' fun i hi => by
        rw [bucketExists, honly.buckets]
        exact hbuckets i (List.mem_cons_of_mem _ hi)
      refine ⟨c', ?_⟩
      rw [createRecycleBatch, List.foldlM_cons]
      exact bind_eq_ok.mpr ⟨m, hm, hc'⟩

/-- Rows that are there are counted when they are deleted. -/
theorem hardDeleteByIDs_pos {object : Object} (ho : object ∈ c.objects.rows) {ids : List Nat}
    (hid : object.id ∈ ids) : 0 < (hardDeleteByIDs c ids).1 :=
  List.length_pos_of_mem (Table.mem_select.mpr ⟨ho, decide_eq_true hid⟩)

/-- `Delete` of an existing object succeeds. -/
theorem deleteObject_found {bucketName objectKey : String} (deletedAt : Time) (group : String)
    {object : Object} (hids : RecycleIDs c) (ho : object ∈ c.objects.rows)
    (hkey : sameKey k bucketName objectKey object = true)
    (hbucket : bucketExists c object.bucketName = true) :
    ∃ c', deleteObject c bucketName objectKey deletedAt group = .ok c'
      ∧ Moved c c' [object] [recycleBinObjectFromObject object deletedAt group] := by
  have hfind : findActive c bucketName objectKey = .ok object := by
    refine orElseThrow_eq_ok.mpr (c.objects.first?_of_mem ho hkey fun a ha => ?_)
    rw [sameKey, Bool.and_eq_true] at ha hkey
    rw [Object.clash, sameKey, Collation.eq_trans ha.1 (Collation.eq_comm _ _ ▸ hkey.1),
      Collation.eq_trans ha.2 (Collation.eq_comm _ _ ▸ hkey.2)]
    simp
  obtain ⟨m, hm⟩ := createRecycleBatch_fits [recycleBinObjectFromObject object deletedAt group]
    hids fun i hi => by rw [List.mem_singleton.mp hi]; exact hbucket
  have hmem : object ∈ m.objects.rows := by
    rw [(createRecycleBatch_ok _ hm).1.objects]
    exact ho
  refine ⟨_, ?_, moved_of_steps [object] hm⟩
  rw [deleteObject, mapError_eq_ok]
  refine bind_eq_ok.mpr ⟨object, hfind, bind_eq_ok.mpr ⟨m, mapError_eq_ok.mpr hm, ?_⟩⟩
  exact bind_eq_ok.mpr
    ⟨(), ensure_eq_ok.mpr (hardDeleteByIDs_pos hmem List.mem_cons_self), rfl⟩

/-- `Delete` of any other key is refused. -/
theorem deleteObject_missing {bucketName objectKey : String} (deletedAt : Time) (group : String)
    (hnone : ∀ o ∈ c.objects.rows, sameKey k bucketName objectKey o = false) :
    deleteObject c bucketName objectKey deletedAt group
      = .error (.app 404 "object_not_found" "object not found") := by
  rw [deleteObject, findActive, Table.first?_eq_none.mpr hnone]
  rfl

/-- Every row of a folder delete is in the bucket of one of the objects. -/
theorem folderDelete_bucket {objects : List Object} {folderPath group : String} {deletedAt : Time}
    {i : RecycleBinObject}
    (hi : i ∈ recycleBinObjectsFromFolderDelete objects folderPath deletedAt group) :
    ∃ o ∈ objects, i.bucketName = o.bucketName := by
  cases objects with
  | nil => exact nomatch hi
  | cons first rest =>
      rw [recycleBinObjectsFromFolderDelete] at hi
      split at hi
      · next object hrep =>
          rcases List.mem_append.mp hi with hi | hi
          · obtain ⟨o, ho, rfl⟩ := List.mem_map.mp hi
            exact ⟨o, (List.mem_filter.mp ho).1, rfl⟩
          · rw [List.mem_singleton.mp hi]
            exact ⟨object, List.mem_reverse.mp (List.mem_of_find?_eq_some hrep), rfl⟩
      · rcases List.mem_append.mp hi with hi | hi
        · obtain ⟨o, ho, rfl⟩ := List.mem_map.mp hi
          exact ⟨o, (List.mem_filter.mp ho).1, rfl⟩
        · rw [List.mem_singleton.mp hi]
          exact ⟨first, List.mem_cons_self, rfl⟩

/-- A recursive delete of a folder with rows succeeds. -/
theorem deleteFolderRecursive_found {bucketName folderPath : String} (deletedAt : Time)
    (group : String) (hids : RecycleIDs c)
    (hne : listActiveByPrefixOrdered c bucketName folderPath ≠ [])
    (hbucket : ∀ o ∈ listActiveByPrefixOrdered c bucketName folderPath,
      bucketExists c o.bucketName = true) :
    ∃ c', deleteFolderRecursive c bucketName folderPath deletedAt group = .ok c' := by
  obtain ⟨m, hm⟩ := createRecycleBatch_fits (recycleBinObjectsFromFolderDelete
    (listActiveByPrefixOrdered c bucketName folderPath) folderPath deletedAt group) hids
    fun i hi => by
      obtain ⟨o, ho, hbucketName⟩ := folderDelete_bucket hi
      rw [hbucketName]
      exact hbucket o ho
  obtain ⟨object, ho⟩ := List.exists_mem_of_ne_nil _ hne
  have hmem : object ∈ m.objects.rows := by
    rw [(createRecycleBatch_ok _ hm).1.objects]
    exact (((listActiveByPrefixOrdered_rows c bucketName folderPath).2 object).mp ho).1
  refine ⟨(hardDeleteByIDs m ((listActiveByPrefixOrdered c bucketName folderPath).map (·.id))).2,
    ?_⟩
  rw [deleteFolderRecursive]
  refine bind_eq_ok.mpr ⟨(), ensure_eq_ok.mpr hne, ?_⟩
  refine bind_eq_ok.mpr ⟨m, mapError_eq_ok.mpr hm, bind_eq_ok.mpr ⟨(), ensure_eq_ok.mpr ?_, rfl⟩⟩
  exact Nat.ne_of_gt (hardDeleteByIDs_pos hmem (List.mem_map_of_mem ho))

/-- A delete of a path without rows is refused. -/
theorem deleteFolder_missing {bucketName folderPath : String} (deletedAt : Time) (group : String)
    (hbucketName : validateBucketName bucketName = .ok ())
    (hpath : validateFolderPath folderPath = .ok ())
    (hnone : listActiveByPrefixOrdered c bucketName folderPath = []) :
    deleteFolder c bucketName folderPath true deletedAt group
      = .error (.app 404 "folder_not_found" "folder not found") := by
  rw [deleteFolder, hbucketName, hpath, deleteFolderRecursive, hnone]
  rfl

end RecycleMoves
