import LightOss.RecycleRuns

/-! # Recycle round trip — a delete and the restore of what it moved

    A delete moves objects into one new group of the recycle bin.  As long as the rows
    of the group are there, restoring the item that the listing shows brings exactly
    these objects back when the bucket exists and none of their keys is in use, and
    fails otherwise.

    `restore_iff` says when a restore succeeds and `restore_moved` what it does.  Every
    kind of delete moves one group (`movedGroup_of_run`), and what later requests bring
    in is of other groups (`groups_of_run`), so while the rows are there the item stands
    for what the delete moved. -/

namespace RecycleRoundTrip

open KeyedTable Fallible LedgerRows Catalog CatalogSpecs Validation ObjectKeys MetadataServices
open ObjectServices RecycleMoves FolderScope RequestRows RecycleGroups RecycleRuns ListedEntries
open ExplorerBatchDelete Addressable

variable {k : Collation} {c d m m' : Tables Collation.binary}

/-- Ids tell the rows of the bin apart. -/
theorem row_of_id {c : Tables k} {a b : RecycleBinObject} (ha : a ∈ c.recycleBin.rows)
    (hb : b ∈ c.recycleBin.rows)
    (hid : a.id = b.id) : a = b :=
  c.recycleBin.eq_of_clash ha hb (beq_iff_eq.mpr hid)

/-! ## Inserts that fit -/

/-- An insert creates and removes no bucket. -/
theorem insertObject_next_bucket {object : Object} (h : insertObject c object = .ok d)
    (name : String) :
    bucketExists d name = bucketExists c name := by
  rw [bucketExists, bucketExists, (insertObject_ok h).1.buckets]

/-- Objects with distinct free keys go in together. -/
theorem insertObjects_fit : ∀ (objects : List Object) {c : Tables Collation.binary},
    (∀ o ∈ c.objects.rows, o.id < c.nextObjectID) →
    (∀ o ∈ objects, bucketExists c o.bucketName = true) →
    (∀ o ∈ objects, ∀ a ∈ c.objects.rows,
      ¬ (a.bucketName = o.bucketName ∧ a.objectKey = o.objectKey)) →
    (objects.Pairwise fun a b => ¬ (a.bucketName = b.bucketName ∧ a.objectKey = b.objectKey)) →
    ∃ c', objects.foldlM insertObject c = .ok c' := by
  intro objects
  induction objects with
  | nil => exact fun _ _ _ _ => ⟨_, rfl⟩
  | cons object rest ih =>
      intro c hids hbuckets hfree hdistinct
      obtain ⟨hbucket, hbuckets⟩ := List.forall_mem_cons.mp hbuckets
      obtain ⟨hfreeHere, hfree⟩ := List.forall_mem_cons.mp hfree
      obtain ⟨hother, hdistinct⟩ := List.pairwise_cons.mp hdistinct
      have hfit : ∀ a ∈ c.objects.rows,
          sameKey Collation.binary object.bucketName object.objectKey a = false := fun a ha =>
        Bool.eq_false_iff.mpr fun hsame => hfreeHere a ha (sameKey_binary.mp hsame)
      obtain ⟨m, hm⟩ := insertObject_fits hids hbucket hfit
      obtain ⟨-, -, hrows⟩ := insertObject_ok hm
      have hnext := insertObject_next hm
      -- the rows are those from before and the new one, whose key no later object has
      have hmem : ∀ a ∈ m.objects.rows, a ∈ c.objects.rows
          ∨ a = { object with id := c.nextObjectID } := by
        intro a ha
        exact (List.mem_append.mp (hrows ▸ ha)).imp_right List.mem_singleton.mp
      obtain ⟨c', hc'⟩ := @ih m
        (fun a ha => by
          rcases hmem a ha with ha | rfl
          · exact hnext ▸ Nat.lt_succ_of_lt (hids a ha)
          · exact hnext ▸ Nat.lt_succ_self _)
        (fun o ho => by rw [insertObject_next_bucket hm]; exact hbuckets o ho)
        (fun o ho a ha => by
          rcases hmem a ha with ha | rfl
          · exact hfree o ho a ha
          · exact hother o ho)
        hdistinct
      exact ⟨c', by rw [List.foldlM_cons]; exact bind_eq_ok.mpr ⟨m, hm, hc'⟩⟩

/-! ## When a restore succeeds -/

/-- Under byte comparison no key is in use exactly when no row has one of them. -/
theorem existingKeys_nil {bucketName : String} {keys : List String} :
    listExistingActiveKeys c bucketName keys = []
      ↔ ∀ o ∈ c.objects.rows, o.bucketName = bucketName → o.objectKey ∉ keys := by
  have hin : ∀ o : Object, keyIn Collation.binary bucketName keys o = true
      ↔ o.bucketName = bucketName ∧ o.objectKey ∈ keys := by
    intro o
    rw [keyIn, Bool.and_eq_true, Collation.eq_binary, List.any_eq_true]
    refine and_congr_right fun _ => ⟨?_, fun h => ⟨_, h, Collation.eq_refl _⟩⟩
    rintro ⟨key, hkey, heq⟩
    rwa [Collation.eq_binary.mp heq]
  rw [listExistingActiveKeys]
  split
  · next hnil =>
      rw [hnil]
      exact ⟨fun _ _ _ _ => List.not_mem_nil, fun _ => rfl⟩
  · rw [List.map_eq_nil_iff, Table.select, List.filter_eq_nil_iff]
    exact ⟨fun h o ho hbucket hkey => h o ho ((hin o).mpr ⟨hbucket, hkey⟩),
      fun h o ho hkeyIn => h o ho ((hin o).mp hkeyIn).1 ((hin o).mp hkeyIn).2⟩

/-- An item of the bin is found by its id. -/
theorem findRecycle_of_mem {c : Tables k} {item : RecycleBinObject}
    (hitem : item ∈ c.recycleBin.rows) :
    findRecycle c item.id = .ok item := by
  refine orElseThrow_eq_ok.mpr (c.recycleBin.first?_of_mem hitem ?_ fun a ha => ?_)
  · exact beq_self_eq_true _
  · exact ha

/-- The objects a restore would bring back, in one bucket under distinct keys. -/
structure Restorable (c : Tables Collation.binary) (item : RecycleBinObject) : Prop where
  mem : item ∈ c.recycleBin.rows
  bucket : ∀ i ∈ loadRecycleBinActionItems c item, i.bucketName = item.bucketName
  keys : ((restoreTargets (loadRecycleBinActionItems c item)).map (·.objectKey)).Nodup

/-- **A restore succeeds** exactly when the bucket exists and no key is in use. -/
theorem restore_iff (hids : ∀ o ∈ c.objects.rows, o.id < c.nextObjectID) {item : RecycleBinObject}
    (h : Restorable c item) (updatedAt : Time) :
    (∃ c', restoreObject c item.id updatedAt = .ok c')
      ↔ bucketExists c item.bucketName = true
        ∧ ∀ o ∈ c.objects.rows, o.bucketName = item.bucketName →
            o.objectKey
                ∉ (restoreTargets (loadRecycleBinActionItems c item)).map (·.objectKey) := by
  constructor
  · rintro ⟨c', hrestore⟩
    obtain ⟨groupItems, hread, -⟩ := restoreObject_ok hrestore
    obtain ⟨found, hfound, hid, rfl, hbucket, hfree⟩ := restoreReads_ok hread
    have hsame : found = item := row_of_id hfound h.mem hid
    subst hsame
    exact ⟨hbucket, existingKeys_nil.mp hfree⟩
  · rintro ⟨hbucket, hfree⟩
    obtain ⟨hnodup, hrows⟩ := loadRecycleBinActionItems_rows h.mem
    have hread : restoreReads c item.id = .ok (loadRecycleBinActionItems c item) := by
      refine bind_eq_ok.mpr ⟨item, mapError_eq_ok.mpr (findRecycle_of_mem h.mem), ?_⟩
      refine bind_eq_ok.mpr ⟨(), ensure_eq_ok.mpr hbucket, ?_⟩
      exact bind_eq_ok.mpr ⟨(), ensure_eq_ok.mpr (existingKeys_nil.mpr hfree), rfl⟩
    have htarget : ∀ i ∈ restoreTargets (loadRecycleBinActionItems c item),
        i.bucketName = item.bucketName := fun i hi => h.bucket i (List.mem_filter.mp hi).1
    -- the reads pass, every insert finds its key free, and all rows read are still there
    obtain ⟨m, hm⟩ := insertObjects_fit
      ((restoreTargets (loadRecycleBinActionItems c item)).map (restoredObject updatedAt)) hids
      (fun o ho => by
        obtain ⟨i, hi, rfl⟩ := List.mem_map.mp ho
        exact (congrArg (bucketExists c) (htarget i hi)).trans hbucket)
      (fun o ho a ha hsame => by
        obtain ⟨i, hi, rfl⟩ := List.mem_map.mp ho
        refine hfree a ha (hsame.1.trans (htarget i hi)) ?_
        exact List.mem_map.mpr ⟨i, hi, hsame.2.symm⟩)
      (List.pairwise_map.mpr ((List.pairwise_map.mp h.keys).imp fun hne hsame => hne hsame.2))
    have hcount : (hardDeleteRecycleByIDs m ((loadRecycleBinActionItems c item).map (·.id))).1
        = (loadRecycleBinActionItems c item).length := by
      have hrowsM : ∀ i ∈ loadRecycleBinActionItems c item, i ∈ m.recycleBin.rows := by
        rw [(insertObjects_ok _ hm).1.recycleBin]
        exact hrows
      exact (select_recycle_ids_perm hrowsM hnodup).length_eq
    refine ⟨(hardDeleteRecycleByIDs m ((loadRecycleBinActionItems c item).map (·.id))).2,
      bind_eq_ok.mpr ⟨_, hread, ?_⟩⟩
    refine bind_eq_ok.mpr ⟨m, mapError_eq_ok.mpr hm, ?_⟩
    exact bind_eq_ok.mpr ⟨(), ensure_eq_ok.mpr hcount, rfl⟩

/-! ## What a delete moves -/

/-- The key of the item that the listing shows for a delete. -/
def shownKey : Request → String
  | .delete _ objectKey _ _ => objectKey
  | .deleteFolder _ folderPath _ _ _ => folderPath ++ folderMarkerFilename
  | _ => ""

/-- A delete moved objects of one bucket into a group, with a synthetic marker at most. -/
structure MovedGroup (c d : Tables Collation.binary) (request : Request) (g : RecycleGroup) :
    Prop where
  moved : ∃ found, Moved c d found g.rows ∧ g.objects.Perm found
  rows : ∀ o ∈ g.objects, o ∈ c.objects.rows
  nodup : g.objects.Nodup
  bucket : ∃ bucketName, ∀ i ∈ g.rows, i.bucketName = bucketName
  skipped : ∀ i ∈ g.synthetic, shouldSkipRecycleBinRestoreItem i = true
    ∧ i.deleteGroupID = g.stamp.deleteGroupID
  shown : ∃ i ∈ g.rows, i.objectKey = shownKey request
    ∧ (recycleBinObjectType i = .directory ∨ g.rows = [i])

/-- A delete of one object moves a group of one. -/
theorem movedGroup_single {request : Request} {group : String} {deletedAt : Time} {object : Object}
    (hmem : object ∈ c.objects.rows) (hkey : object.objectKey = shownKey request)
    (hmoved : Moved c d [object] [recycleBinObjectFromObject object deletedAt group]) :
    MovedGroup c d request ⟨⟨deletedAt, group⟩, [object], []⟩ where
  moved := ⟨[object], hmoved, .refl _⟩
  rows := List.forall_mem_singleton.mpr hmem
  nodup := List.nodup_singleton _
  bucket := ⟨object.bucketName, List.forall_mem_singleton.mpr rfl⟩
  skipped := List.forall_mem_nil _
  shown := ⟨_, List.mem_cons_self, hkey, Or.inr rfl⟩

/-- The only marker has the marker's key. -/
theorem onlyMarker_key {markerKey : String} : ∀ (objects : List Object) (start : Option Object)
    {marker : Object}, (∀ o ∈ start, o.objectKey = markerKey) →
      onlyMarker markerKey start objects = .ok (some marker) → marker.objectKey = markerKey := by
  intro objects
  induction objects with
  | nil =>
      intro start marker hstart h
      cases h
      exact hstart marker rfl
  | cons o rest ih =>
      intro start marker _ h
      rw [onlyMarker] at h
      split at h
      · next hkey => exact ih (some o) (fun a ha => Option.mem_some_iff.mp ha ▸ hkey) h
      · cases h

/-- A plain delete of a folder moves the marker under the folder's path. -/
theorem deleteFolderEmpty_key {bucketName folderPath group : String} {deletedAt : Time}
    (h : deleteFolderEmpty c bucketName folderPath deletedAt group = .ok d) :
    ∃ marker ∈ c.objects.rows, marker.objectKey = folderPath ++ folderMarkerFilename
      ∧ Moved c d [marker] [recycleBinObjectFromObject marker deletedAt group] := by
  rw [deleteFolderEmpty] at h
  obtain ⟨_, -, h⟩ := bind_eq_ok.mp h
  obtain ⟨found, hfound, h⟩ := bind_eq_ok.mp h
  obtain ⟨marker, hmarker, h⟩ := bind_eq_ok.mp h
  obtain ⟨n, hn, h⟩ := bind_eq_ok.mp h
  obtain ⟨_, -, h⟩ := bind_eq_ok.mp h
  cases pure_eq_ok.mp h
  rw [orElseThrow_eq_ok.mp hmarker] at hfound
  have hkey := onlyMarker_key _ none (fun o ho => absurd ho (Option.not_mem_none o)) hfound
  have hmem : marker ∈ listActiveByPrefixOrdered c bucketName folderPath := by
    rcases onlyMarker_mem _ none hfound with hmem | hnone
    · exact hmem
    · cases hnone
  exact ⟨marker, (mem_query.mp hmem).1, hkey, moved_of_steps [marker] (mapError_eq_ok.mp hn)⟩

/-- A delete of a folder moves a group, in either mode. -/
theorem movedGroup_folder {bucketName folderPath group : String} {isRecursive : Bool}
    {deletedAt : Time}
    (h : Request.run c (.deleteFolder bucketName folderPath isRecursive deletedAt group) = .ok d) :
    ∃ g, MovedGroup c d (.deleteFolder bucketName folderPath isRecursive deletedAt group) g
      ∧ g.stamp.deleteGroupID = group := by
  have hsfx := hasSuffix_of_folderPath (deleteFolder_path h)
  -- a recursive delete, or that of an empty folder with its marker
  rcases deleteFolder_ok h with ⟨-, hrec⟩ | ⟨-, hempty⟩
  · obtain ⟨moved, owner, howner, hperm, hmoved⟩ := deleteFolderRecursive_moves hrec
    have hrow : ∀ o ∈ moved, o ∈ c.objects.rows ∧ o.bucketName = bucketName := fun o ho =>
      ⟨(mem_query.mp (hperm.mem_iff.mp ho)).1, (mem_query.mp (hperm.mem_iff.mp ho)).2.1⟩
    have howner : owner = bucketName := by
      obtain ⟨o, ho, rfl⟩ := howner
      exact (mem_query.mp ho).2.1
    have hmarker : ∀ i ∈ syntheticMarker (listActiveByPrefixOrdered c bucketName folderPath) owner
        folderPath deletedAt group,
        i = syntheticRecycleBinDirectoryObject bucketName folderPath deletedAt group := by
      intro i hi
      rw [syntheticMarker] at hi
      split at hi
      · exact absurd hi List.not_mem_nil
      · rw [List.mem_singleton.mp hi, howner]
    refine ⟨⟨⟨deletedAt, group⟩, moved, syntheticMarker
      (listActiveByPrefixOrdered c bucketName folderPath) owner folderPath deletedAt group⟩,
      ⟨⟨_, hmoved, hperm⟩, fun o ho => (hrow o ho).1,
      hperm.nodup_iff.mpr (listActiveByPrefixOrdered_rows c bucketName folderPath).1,
      ⟨bucketName, fun i hi => ?_⟩, fun i hi => ?_, ?_⟩, rfl⟩
    · rcases List.mem_append.mp hi with hi | hi
      · obtain ⟨o, ho, rfl⟩ := List.mem_map.mp hi
        exact (hrow o ho).2
      · rw [hmarker i hi]
        rfl
    · rw [hmarker i hi]
      exact ⟨skip_synthetic hsfx _ _ _, rfl⟩
    · have htype : ∀ i : RecycleBinObject, i.objectKey = folderPath ++ folderMarkerFilename →
          recycleBinObjectType i = .directory := by
        intro i hkey
        rw [recycleBinObjectType, hkey, if_pos (isFolderMarkerKey_marker hsfx)]
      -- the folder's marker is one of its objects, or the synthetic row stands for it
      cases hrep : representative (listActiveByPrefixOrdered c bucketName folderPath)
          (folderPath ++ folderMarkerFilename) with
      | some a =>
          rw [representative] at hrep
          have hfound := List.find?_some hrep
          have hkey : a.objectKey = folderPath ++ folderMarkerFilename := beq_iff_eq.mp hfound
          have ha := hperm.mem_iff.mpr (List.mem_reverse.mp (List.mem_of_find?_eq_some hrep))
          exact ⟨_, List.mem_append_left _ (List.mem_map_of_mem ha), hkey, Or.inl (htype _ hkey)⟩
      | none =>
          have hsynthetic : syntheticRecycleBinDirectoryObject owner folderPath deletedAt group
              ∈ syntheticMarker (listActiveByPrefixOrdered c bucketName folderPath) owner folderPath
                deletedAt group := by
            rw [syntheticMarker, hrep, Option.isSome_none, if_neg Bool.false_ne_true]
            exact List.mem_cons_self
          exact ⟨syntheticRecycleBinDirectoryObject owner folderPath deletedAt group,
            List.mem_append_right _ hsynthetic, rfl, Or.inl (htype _ rfl)⟩
  · obtain ⟨marker, hmem, hkey, hmoved⟩ := deleteFolderEmpty_key hempty
    exact ⟨_, movedGroup_single hmem hkey hmoved, rfl⟩

/-- **A delete** moved one group. -/
theorem movedGroup_of_run {request : Request} {group : String}
    (hgroup : groupOf request = some group)
    (h : request.run c = .ok d) :
    ∃ g, MovedGroup c d request g ∧ g.stamp.deleteGroupID = group := by
  cases request with
  | delete bucketName objectKey deletedAt group =>
      cases hgroup
      obtain ⟨object, hmem, hkey, hmoved⟩ := deleteObject_ok (delete_ok h)
      exact ⟨_, movedGroup_single hmem (sameKey_binary.mp hkey).2 hmoved, rfl⟩
  | deleteFolder bucketName folderPath isRecursive deletedAt group =>
      cases hgroup
      exact movedGroup_folder h
  | _ => cases hgroup

/-! ## The group as it is stored -/

/-- The part of an object that a restore brings back. -/
def content (o : Object) : Object := { o with id := 0, updatedAt := 0 }

/-- The rows of the group in the recycle bin. -/
def storedRows (c : Tables Collation.binary) (g : RecycleGroup) : List RecycleBinObject :=
  withIDs c.nextRecycleID g.rows

variable {request : Request} {g : RecycleGroup}

theorem group_of_rows (h : MovedGroup c d request g) {i : RecycleBinObject} (hi : i ∈ g.rows) :
    i.deleteGroupID = g.stamp.deleteGroupID := by
  rcases List.mem_append.mp hi with hi | hi
  · obtain ⟨o, -, rfl⟩ := List.mem_map.mp hi
    rfl
  · exact (h.skipped i hi).2

/-- With a new group id the group is what the delete wrote. -/
theorem mem_storedRows (h : MovedGroup c d request g)
    (hnew : ∀ r ∈ c.recycleBin.rows, r.deleteGroupID ≠ g.stamp.deleteGroupID)
    {r : RecycleBinObject} :
    r ∈ storedRows c g ↔ r ∈ d.recycleBin.rows ∧ r.deleteGroupID = g.stamp.deleteGroupID := by
  obtain ⟨found, hmoved, -⟩ := h.moved
  rw [hmoved.recycleBin, List.mem_append]
  constructor
  · intro hr
    obtain ⟨-, -, i, hi, heq⟩ := mem_withIDs _ _ hr
    have hgroup := group_of_rows h hi
    refine ⟨Or.inr hr, ?_⟩
    rw [heq]
    exact hgroup
  · rintro ⟨hr | hr, hgroup⟩
    · exact absurd hgroup (hnew r hr)
    · exact hr

/-- Its rows are distinct, since their numbers are. -/
theorem storedRows_nodup (h : MovedGroup c d request g) : (storedRows c g).Nodup := by
  obtain ⟨found, hmoved, -⟩ := h.moved
  have hnodup := d.recycleBin.rows_nodup
  rw [hmoved.recycleBin] at hnodup
  exact (List.nodup_append.mp hnodup).2.1

/-- The stored image of an object, and what it is restored to. -/
theorem restored_images (updatedAt deletedAt : Time) (group : String) : ∀ (objects : List Object)
    (next : Nat), (∀ o ∈ objects, o.storagePath ≠ "") →
      ((restoreTargets
        (withIDs next (objects.map (recycleBinObjectFromObject · deletedAt group)))).map
          (restoredObject updatedAt)).map content = objects.map content := by
  intro objects
  induction objects with
  | nil => exact fun _ _ => rfl
  | cons o rest ih =>
      intro next hfiles
      obtain ⟨hfile, hfiles⟩ := List.forall_mem_cons.mp hfiles
      have hkept : shouldSkipRecycleBinRestoreItem
          { recycleBinObjectFromObject o deletedAt group with id := next } = false := by
        rw [shouldSkipRecycleBinRestoreItem, Bool.and_eq_false_iff]
        exact Or.inr (beq_eq_false_iff_ne.mpr hfile)
      have hih := ih (next + 1) hfiles
      rw [restoreTargets] at hih ⊢
      rw [List.map_cons, withIDs, List.filter_cons_of_pos (by rw [hkept]; rfl), List.map_cons,
        List.map_cons, hih]
      rfl

/-- The objects that come back have the contents of those that went. -/
theorem restored_contents (h : MovedGroup c d request g)
    (hfiles : ∀ o ∈ c.objects.rows, o.storagePath ≠ "")
    (updatedAt : Time) :
    ((restoreTargets (storedRows c g)).map (restoredObject updatedAt)).map content
      = g.objects.map content := by
  have hskipped : restoreTargets (withIDs
      (c.nextRecycleID + (g.objects.map (recycleBinObjectFromObject · g.stamp.deletedAt
        g.stamp.deleteGroupID)).length) g.synthetic) = [] := by
    refine List.filter_eq_nil_iff.mpr fun r hr hkeep => ?_
    obtain ⟨-, -, i, hi, heq⟩ := mem_withIDs _ _ hr
    have hskip := (h.skipped i hi).1
    rw [heq] at hkeep
    rw [Bool.not_eq_true'] at hkeep
    exact Bool.false_ne_true (hkeep.symm.trans hskip)
  have hfront := restored_images updatedAt g.stamp.deletedAt g.stamp.deleteGroupID g.objects
    c.nextRecycleID fun o ho => hfiles o (h.rows o ho)
  rw [storedRows, RecycleGroup.rows, withIDs_append]
  rw [restoreTargets] at hskipped hfront ⊢
  rw [List.filter_append, hskipped, List.append_nil]
  exact hfront

/-- Numbering the rows changes no content. -/
theorem content_objectsWithIDs : ∀ (objects : List Object) (next : Nat),
    (objectsWithIDs next objects).map content = objects.map content := by
  intro objects
  induction objects with
  | nil => exact fun _ => rfl
  | cons o rest ih =>
      intro next
      rw [objectsWithIDs, List.map_cons, List.map_cons, ih]
      rfl

/-! ## The restore -/

/-- The rows of the group are still those that the delete wrote. -/
def GroupKept (d m : Tables Collation.binary) (group : String) : Prop :=
  ∀ r : RecycleBinObject, r.deleteGroupID = group → (r ∈ m.recycleBin.rows ↔ r ∈ d.recycleBin.rows)

/-- The shown item stands for the whole group. -/
theorem shown_item (h : MovedGroup c d request g)
    (hnew : ∀ r ∈ c.recycleBin.rows, r.deleteGroupID ≠ g.stamp.deleteGroupID)
    (hkept : GroupKept d m g.stamp.deleteGroupID) :
    ∃ item ∈ storedRows c g, item ∈ m.recycleBin.rows ∧ item.objectKey = shownKey request
      ∧ (loadRecycleBinActionItems m item).Perm (storedRows c g) := by
  have hmem : ∀ {r}, r ∈ storedRows c g ↔ r ∈ m.recycleBin.rows
      ∧ r.deleteGroupID = g.stamp.deleteGroupID := by
    intro r
    rw [mem_storedRows h hnew]
    exact and_congr_left fun hgroup => (hkept r hgroup).symm
  obtain ⟨i, hi, hkey, hwhole⟩ := h.shown
  obtain ⟨id, hitem⟩ := exists_withIDs g.rows c.nextRecycleID hi
  obtain ⟨hrow, hgroup⟩ := hmem.mp hitem
  refine ⟨{ i with id := id }, hitem, hrow, hkey, ?_⟩
  rw [loadRecycleBinActionItems]
  by_cases htype : recycleBinObjectType { i with id := id } = .directory
  · rw [if_neg (not_not.mpr htype), listByDeleteGroupID]
    refine (List.mergeSort_perm _ _).trans ?_
    refine (List.perm_ext_iff_of_nodup (m.recycleBin.rows_nodup.filter _) (storedRows_nodup h)).mpr
      fun r => ?_
    rw [hmem, List.mem_filter, beq_iff_eq, hgroup]
  · rw [if_pos htype]
    have hone : g.rows = [i] := hwhole.resolve_left htype
    have hstored : storedRows c g = [{ i with id := c.nextRecycleID }] := by
      unfold storedRows
      rw [hone]
      rfl
    have hitem : { i with id := id } ∈ storedRows c g := hitem
    rw [hstored] at hitem ⊢
    rw [List.mem_singleton.mp hitem]

/-- What a restore of the item did to the tables. -/
structure BroughtBack (c d m m' : Tables Collation.binary) (group : String) : Prop where
  objects : ∃ back, m'.objects.rows = m.objects.rows ++ back
    ∧ (back.map content).Perm
        ((c.objects.rows.filter fun o => decide (o ∉ d.objects.rows)).map content)
  recycleBin :
    m'.recycleBin.rows = m.recycleBin.rows.filter fun r => decide (r.deleteGroupID ≠ group)
  buckets : m'.buckets = m.buckets
  sites : m'.sites = m.sites
  siteDomains : m'.siteDomains = m.siteDomains

/-- The objects that left are those of the group. -/
theorem gone_perm (h : MovedGroup c d request g) :
    g.objects.Perm (c.objects.rows.filter fun o => decide (o ∉ d.objects.rows)) := by
  obtain ⟨found, hmoved, hperm⟩ := h.moved
  have hfound : ∀ o ∈ found, o ∈ c.objects.rows := fun o ho => h.rows o (hperm.mem_iff.mpr ho)
  refine (List.perm_ext_iff_of_nodup h.nodup (c.objects.rows_nodup.filter _)).mpr fun o => ?_
  rw [List.mem_filter, decide_eq_true_iff, hmoved.mem_objects hfound, hperm.mem_iff]
  exact ⟨fun ho => ⟨hfound o ho, fun hstays => hstays.2 ho⟩,
    fun ho => by_contra fun hnot => ho.2 ⟨ho.1, hnot⟩⟩

/-- The bucket of the rows of a group. -/
theorem storedRows_bucket (h : MovedGroup c d request g) :
    ∃ bucketName, (∀ r ∈ storedRows c g, r.bucketName = bucketName)
      ∧ ∀ o ∈ g.objects, o.bucketName = bucketName := by
  obtain ⟨bucketName, hbucket⟩ := h.bucket
  refine ⟨bucketName, fun r hr => ?_, fun o ho =>
    hbucket _ (List.mem_append_left _ (List.mem_map_of_mem ho))⟩
  obtain ⟨-, -, i, hi, heq⟩ := mem_withIDs _ _ hr
  have hsame := hbucket i hi
  rw [heq]
  exact hsame

/-- The keys a restore of the group needs. -/
theorem restoreTargets_keys (h : MovedGroup c d request g)
    (hfiles : ∀ o ∈ c.objects.rows, o.storagePath ≠ "") {items : List RecycleBinObject}
    (hload : items.Perm (storedRows c g)) :
    ((restoreTargets items).map (·.objectKey)).Perm (g.objects.map (·.objectKey)) := by
  have hcontents := congrArg (List.map Object.objectKey) (restored_contents h hfiles 0)
  rw [List.map_map, List.map_map, List.map_map] at hcontents
  have hperm : (restoreTargets items).Perm (restoreTargets (storedRows c g)) := hload.filter _
  exact (hperm.map _).trans (.of_eq hcontents)

/-- An item of the group stands for the whole group. -/
theorem restorable (h : MovedGroup c d request g)
    (hfiles : ∀ o ∈ c.objects.rows, o.storagePath ≠ "")
    {item : RecycleBinObject} (hitem : item ∈ storedRows c g) (hrow : item ∈ m.recycleBin.rows)
    (hload : (loadRecycleBinActionItems m item).Perm (storedRows c g)) : Restorable m item := by
  obtain ⟨bucketName, hstored, hobjects⟩ := storedRows_bucket h
  refine ⟨hrow, fun i hi => ?_, ?_⟩
  · rw [hstored i (hload.mem_iff.mp hi), hstored item hitem]
  · rw [(restoreTargets_keys h hfiles hload).nodup_iff]
    refine List.Nodup.map_on (fun a ha b hb hkey => ?_) h.nodup
    exact eq_of_sameKey (h.rows a ha) (h.rows b hb) (sameKey_binary.mpr ⟨hobjects a ha, rfl⟩)
      (sameKey_binary.mpr ⟨hobjects b hb, hkey.symm⟩)

/-- A row is in the way of the restore when it has the key of an object that left. -/
theorem free_iff (h : MovedGroup c d request g) (hfiles : ∀ o ∈ c.objects.rows, o.storagePath ≠ "")
    {item : RecycleBinObject} (hitem : item ∈ storedRows c g)
    (hload : (loadRecycleBinActionItems m item).Perm (storedRows c g)) {o : Object} :
    (o.bucketName = item.bucketName →
        o.objectKey ∉ (restoreTargets (loadRecycleBinActionItems m item)).map (·.objectKey))
      ↔ ∀ a ∈ c.objects.rows, a ∉ d.objects.rows →
          ¬ (o.bucketName = a.bucketName ∧ o.objectKey = a.objectKey) := by
  obtain ⟨bucketName, hstored, hobjects⟩ := storedRows_bucket h
  have hgone : ∀ {a}, a ∈ g.objects ↔ a ∈ c.objects.rows ∧ a ∉ d.objects.rows := by
    intro a
    rw [(gone_perm h).mem_iff, List.mem_filter, decide_eq_true_iff]
  rw [hstored item hitem, (restoreTargets_keys h hfiles hload).mem_iff]
  constructor
  · rintro hfree a ha hleft ⟨hbucket, hkey⟩
    have hmem := hgone.mpr ⟨ha, hleft⟩
    exact hfree (hbucket.trans (hobjects a hmem)) (List.mem_map.mpr ⟨a, hmem, hkey.symm⟩)
  · intro hfree hbucket hkey
    obtain ⟨a, hmem, hsame⟩ := List.mem_map.mp hkey
    obtain ⟨ha, hleft⟩ := hgone.mp hmem
    exact hfree a ha hleft ⟨hbucket.trans (hobjects a hmem).symm, hsame.symm⟩

/-- The rows of a group are those with its items' ids. -/
theorem group_iff (h : MovedGroup c d request g)
    (hnew : ∀ r ∈ c.recycleBin.rows, r.deleteGroupID ≠ g.stamp.deleteGroupID)
    (hkept : GroupKept d m g.stamp.deleteGroupID) {items : List RecycleBinObject}
    (hload : items.Perm (storedRows c g)) {r : RecycleBinObject} (hr : r ∈ m.recycleBin.rows) :
    r.id ∈ items.map (·.id) ↔ r.deleteGroupID = g.stamp.deleteGroupID := by
  constructor
  · intro hid
    obtain ⟨i, hi, hsame⟩ := List.mem_map.mp hid
    obtain ⟨hrow, hgroup⟩ := (mem_storedRows h hnew).mp (hload.mem_iff.mp hi)
    have hin := (hkept i hgroup).mpr hrow
    rwa [row_of_id hr hin hsame.symm]
  · intro hgroup
    have hstored := (mem_storedRows h hnew).mpr ⟨(hkept r hgroup).mp hr, hgroup⟩
    exact List.mem_map_of_mem (hload.mem_iff.mpr hstored)

/-- A restore that succeeds brings all objects of the group back and takes its rows out. -/
theorem broughtBack (h : MovedGroup c d request g)
    (hfiles : ∀ o ∈ c.objects.rows, o.storagePath ≠ "")
    (hnew : ∀ r ∈ c.recycleBin.rows, r.deleteGroupID ≠ g.stamp.deleteGroupID)
    (hkept : GroupKept d m g.stamp.deleteGroupID) {items : List RecycleBinObject} {updatedAt : Time}
    (hload : items.Perm (storedRows c g)) (hrestored : Restored m m' items updatedAt) :
    BroughtBack c d m m' g.stamp.deleteGroupID where
  objects := by
    refine ⟨_, hrestored.objects, ?_⟩
    have hperm : (restoreTargets items).Perm (restoreTargets (storedRows c g)) := hload.filter _
    rw [content_objectsWithIDs]
    refine ((hperm.map (restoredObject updatedAt)).map content).trans ?_
    rw [restored_contents h hfiles]
    exact (gone_perm h).map content
  recycleBin := by
    rw [hrestored.recycleBin]
    refine List.filter_congr fun r hr => ?_
    rw [decide_eq_decide.mpr (group_iff h hnew hkept hload hr), decide_not]
  buckets := hrestored.buckets
  sites := hrestored.sites
  siteDomains := hrestored.siteDomains

/-- **Delete, then restore**: the item the listing shows brings back exactly what the delete
    moved, exactly when the bucket is there and no key of it is in use. -/
theorem restore_moved (h : MovedGroup c d request g)
    (hfiles : ∀ o ∈ c.objects.rows, o.storagePath ≠ "")
    (hnew : ∀ r ∈ c.recycleBin.rows, r.deleteGroupID ≠ g.stamp.deleteGroupID)
    (hids : ∀ o ∈ m.objects.rows, o.id < m.nextObjectID)
    (hkept : GroupKept d m g.stamp.deleteGroupID) (updatedAt : Time) :
    ∃ item ∈ m.recycleBin.rows, item.deleteGroupID = g.stamp.deleteGroupID
      ∧ item.objectKey = shownKey request
      ∧ ((∃ m', restoreObject m item.id updatedAt = .ok m') ↔ bucketExists m item.bucketName = true
        ∧ ∀ o ∈ m.objects.rows, ∀ a ∈ c.objects.rows, a ∉ d.objects.rows →
            ¬ (o.bucketName = a.bucketName ∧ o.objectKey = a.objectKey))
      ∧ ∀ m', restoreObject m item.id updatedAt = .ok m' →
          BroughtBack c d m m' g.stamp.deleteGroupID := by
  obtain ⟨item, hitem, hrow, hkey, hload⟩ := shown_item h hnew hkept
  have hgroup := ((mem_storedRows h hnew).mp hitem).2
  have hwhole := restorable h hfiles hitem hrow hload
  refine ⟨item, hrow, hgroup, hkey, ?_, fun m' hrestore => ?_⟩
  · rw [restore_iff hids hwhole updatedAt]
    refine and_congr_right fun _ => forall₂_congr fun o _ => ?_
    exact free_iff h hfiles hitem hload
  · obtain ⟨groupItems, hread, hrestored⟩ := restoreObject_ok hrestore
    obtain ⟨found, hfound, hid, rfl, -, -⟩ := restoreReads_ok hread
    obtain rfl : found = item := row_of_id hfound hrow hid
    exact broughtBack h hfiles hnew hkept hload hrestored

/-! ## Where the rows of the recycle bin come from -/

/-- The rows a request brought in have new ids and its group. -/
structure Arrives (c c' : Tables k) (request : Request) : Prop where
  next : c.nextRecycleID ≤ c'.nextRecycleID
  rows : ∀ r ∈ c'.recycleBin.rows, r ∈ c.recycleBin.rows
    ∨ (c.nextRecycleID ≤ r.id ∧ r.id < c'.nextRecycleID ∧ groupOf request = some r.deleteGroupID)

/-- What a request does to the bin brings in at most its own group. -/
theorem arrives_of_binStep {c d : Tables k} (h : BinStep c d request) : Arrives c d request := by
  cases h with
  | kept hkept =>
      refine ⟨hkept.nextRecycleID.ge, fun r hr => Or.inl ?_⟩
      rwa [hkept.recycleBin] at hr
  | removed stays hremoved =>
      refine ⟨hremoved.nextRecycleID.ge, fun r hr => Or.inl ?_⟩
      rw [hremoved.rows] at hr
      exact (List.mem_filter.mp hr).1
  | entered group items hgroup hentered =>
      refine ⟨(Nat.le_add_right _ _).trans_eq hentered.nextRecycleID.symm, fun r hr => ?_⟩
      rcases hentered.mem_rows hr with hr | ⟨hmem, hsame, hlow⟩
      · exact Or.inl hr
      · refine Or.inr ⟨hlow, ?_, by rw [hgroup, hsame]⟩
        rw [hentered.nextRecycleID]
        exact (mem_withIDs items _ hmem).2.1

/-- Rows that move under a request's group. -/
theorem arrives_of_moved {c d : Tables k} {objects : List Object} {items : List RecycleBinObject}
    {group : String} (hgroup : groupOf request = some group) (h : Moved c d objects items)
    (hitems : ∀ i ∈ items, i.deleteGroupID = group) : Arrives c d request := by
  refine ⟨(Nat.le_add_right _ _).trans_eq h.nextRecycleID.symm, fun r hr => ?_⟩
  rw [h.recycleBin] at hr
  refine (List.mem_append.mp hr).imp_right fun hr => ?_
  obtain ⟨hlow, hhigh, i, hi, heq⟩ := mem_withIDs _ _ hr
  have hsame : r.deleteGroupID = group := by
    rw [heq]
    exact hitems i hi
  exact ⟨hlow, h.nextRecycleID ▸ hhigh, by rw [hsame, hgroup]⟩

theorem arrives_deleteFolder {c d : Tables k} {bucketName folderPath group : String}
    {isRecursive : Bool} {deletedAt : Time}
    (h : Request.run c (.deleteFolder bucketName folderPath isRecursive deletedAt group) = .ok d) :
    Arrives c d (.deleteFolder bucketName folderPath isRecursive deletedAt group) := by
  rcases deleteFolder_ok h with ⟨-, hrec⟩ | ⟨-, hempty⟩
  · obtain ⟨moved, owner, -, -, hmoved⟩ := deleteFolderRecursive_moves hrec
    refine arrives_of_moved rfl hmoved fun i hi => ?_
    rcases List.mem_append.mp hi with hi | hi
    · obtain ⟨o, -, rfl⟩ := List.mem_map.mp hi
      rfl
    · rw [syntheticMarker] at hi
      split at hi
      · exact absurd hi List.not_mem_nil
      · rw [List.mem_singleton.mp hi]
        rfl
  · obtain ⟨marker, -, hmoved⟩ := deleteFolderEmpty_ok hempty
    exact arrives_of_moved rfl hmoved (List.forall_mem_singleton.mpr rfl)

/-- The rows that any request brings in. -/
theorem arrives_of_run {c d : Tables k} (h : request.run c = .ok d) : Arrives c d request := by
  by_cases hacts : ActsOnBin request
  · cases request with
    | delete bucketName objectKey deletedAt group => exact arrives_of_binStep (binStep_delete h)
    | deleteFolder bucketName folderPath isRecursive deletedAt group => exact arrives_deleteFolder h
    | restore itemID updatedAt => exact arrives_of_binStep (binStep_restore h)
    | purge itemID => exact arrives_of_binStep (binStep_purge h)
    | deleteBucket name => exact arrives_of_binStep (binStep_deleteBucket h)
    | _ => exact hacts.elim
  · exact arrives_of_binStep (.kept (binKept_of_run hacts h))

/-- After a run every row is one from before, or of a group of its requests. -/
theorem groups_of_run {c d : Tables k} {requests : List Request}
    (h : StepSystem.Run (requestSystem k) c requests d) :
    ∀ r ∈ d.recycleBin.rows, r ∈ c.recycleBin.rows ∨ r.deleteGroupID ∈ groupsOf requests := by
  induction h with
  | nil c => exact fun r hr => Or.inl hr
  | @cons s t u request rest hstep _ ih =>
      intro r hr
      have hsub : ∀ {group},
          group ∈ groupsOf rest → group ∈ groupsOf (request :: rest) := fun hmem =>
        ((List.sublist_cons_self request rest).filterMap groupOf).subset hmem
      rcases ih r hr with hr | hgroup
      · obtain ⟨-, hran | rfl⟩ := hstep
        · rcases (arrives_of_run hran).rows r hr with hr | ⟨-, -, hgroup⟩
          · exact Or.inl hr
          · exact Or.inr (List.mem_filterMap.mpr ⟨request, List.mem_cons_self, hgroup⟩)
        · exact Or.inl hr
      · exact Or.inr (hsub hgroup)

/-- The item shown for a delete from `c` to `d`, at a later state `m`. -/
structure RoundTrip (c d m : Tables Collation.binary) (request : Request) (group : String)
    (updatedAt : Time) (item : RecycleBinObject) : Prop where
  mem : item ∈ m.recycleBin.rows
  group_eq : item.deleteGroupID = group
  key : item.objectKey = shownKey request
  succeeds : (∃ m', restoreObject m item.id updatedAt = .ok m')
    ↔ bucketExists m item.bucketName = true
      ∧ ∀ o ∈ m.objects.rows, ∀ a ∈ c.objects.rows, a ∉ d.objects.rows →
          ¬ (o.bucketName = a.bucketName ∧ o.objectKey = a.objectKey)
  result : ∀ m', restoreObject m item.id updatedAt = .ok m' → BroughtBack c d m m' group

/-- **Delete, then restore, in every run**: as long as the rows of a delete are all in the bin, the
    item it shows brings back exactly what the delete moved, exactly when the bucket is there and
    no key of it is in use. -/
theorem delete_then_restore {before later : List Request} {group : String}
    (hbefore : StepSystem.Run (requestSystem Collation.binary) {} before c)
    (hgroup : groupOf request = some group) (hdelete : request.run c = .ok d)
    (hlater : StepSystem.Run (requestSystem Collation.binary) d later m)
    (hnew : group ∉ groupsOf (before ++ later))
    (hthere : ∀ r ∈ d.recycleBin.rows, r.deleteGroupID = group → r ∈ m.recycleBin.rows)
    (updatedAt : Time) : ∃ item, RoundTrip c d m request group updatedAt item := by
  have hstart : StepSystem.Reachable (requestSystem Collation.binary) c :=
    hbefore.reachable (.start rfl)
  have hnone : ∀ staged ∈ request.stagedBlobs, staged.storagePath ≠ "" := by
    cases request with
    | delete bucketName objectKey deletedAt group => exact List.forall_mem_nil _
    | deleteFolder bucketName folderPath isRecursive deletedAt group => exact List.forall_mem_nil _
    | _ => cases hgroup
  have hend : StepSystem.Reachable (requestSystem Collation.binary) m :=
    hlater.reachable (hstart.step ⟨hnone, Or.inl hdelete⟩)
  have hgroups : groupsOf (before ++ later) = groupsOf before ++ groupsOf later :=
    List.filterMap_append
  rw [hgroups, List.mem_append, not_or] at hnew
  obtain ⟨g, hmoved, rfl⟩ := movedGroup_of_run hgroup hdelete
  -- the group is new before the delete and no later request adds to it
  have hfresh : ∀ r ∈ c.recycleBin.rows, r.deleteGroupID ≠ g.stamp.deleteGroupID := by
    intro r hr hsame
    rcases groups_of_run hbefore r hr with hr | hmem
    · exact absurd hr List.not_mem_nil
    · exact hnew.1 (hsame ▸ hmem)
  have hkept : GroupKept d m g.stamp.deleteGroupID := by
    intro r hsame
    refine ⟨fun hr => (groups_of_run hlater r hr).resolve_right fun hmem => hnew.2 (hsame ▸ hmem),
      fun hr => hthere r hr hsame⟩
  obtain ⟨item, hmem, hitem, hkey, hiff, hback⟩ := restore_moved hmoved
    (catalogOk_of_reachable hstart).files hfresh (catalogOk_of_reachable hend).ids hkept updatedAt
  exact ⟨item, hmem, hitem, hkey, hiff, hback⟩

/-! ## A folder that comes back, and one that does not -/

/-- A later upload of one file. -/
def uploadLater (key name : String) : Request :=
  .uploadBatch { docsUpload with items := [⟨key, name, "text/plain"⟩] } [uploadedBlob name] 0

/-- The bin after a file was uploaded beside it. -/
def docsLater (key name : String)
    (hfree : [otherRow, uploadedRow 5 key name].Pairwise fun a b =>
      Object.clash .binary a b = false) :
    Tables Collation.binary :=
  { docsDeleted with
    objects := ⟨[otherRow, uploadedRow 5 key name], hfree⟩
    nextObjectID := 6 }

theorem run_uploadLater (key name : String) {m : Tables Collation.binary}
    (h : (uploadLater key name).run docsDeleted = .ok m) (hpath : "objects/" ++ name ≠ "") :
    StepSystem.Run (requestSystem Collation.binary) docsDeleted [uploadLater key name] m :=
  .cons ⟨List.forall_mem_singleton.mpr hpath, Or.inl h⟩ (.nil _)

/-- The folder `docs` goes with its files.  A later upload beside them leaves it
    restorable, and one that takes a key of it does not. -/
theorem delete_then_restore_docs :
    (∃ item, RoundTrip docsTree docsDeleted (docsLater "docs/z.txt" "z.txt" (by decide)) deleteDocs
        "g" 7 item
      ∧ ∃ m', restoreObject (docsLater "docs/z.txt" "z.txt" (by decide)) item.id 7 = .ok m')
    ∧ ∃ item, RoundTrip docsTree docsDeleted (docsLater "docs/a.txt" "a.txt" (by decide)) deleteDocs
        "g" 7 item
      ∧ ¬ ∃ m', restoreObject (docsLater "docs/a.txt" "a.txt" (by decide)) item.id 7 = .ok m' := by
  constructor
  · obtain ⟨item, htrip⟩ := delete_then_restore run_docsTree rfl deleteDocs_docsTree
      (run_uploadLater "docs/z.txt" "z.txt" (m := docsLater "docs/z.txt" "z.txt" (by decide)) rfl
        (by decide)) (by decide)
      (fun r hr _ => hr) 7
    have hbucket : ∀ r ∈ docsDeleted.recycleBin.rows,
        bucketExists (docsLater "docs/z.txt" "z.txt" (by decide)) r.bucketName = true := by decide
    exact ⟨item, htrip, htrip.succeeds.mpr ⟨hbucket item htrip.mem, by decide⟩⟩
  · obtain ⟨item, htrip⟩ := delete_then_restore run_docsTree rfl deleteDocs_docsTree
      (run_uploadLater "docs/a.txt" "a.txt" (m := docsLater "docs/a.txt" "a.txt" (by decide)) rfl
        (by decide)) (by decide)
      (fun r hr _ => hr) 7
    refine ⟨item, htrip, fun hrestored => ?_⟩
    have htaken := (htrip.succeeds.mp hrestored).2 (uploadedRow 5 "docs/a.txt" "a.txt") (by decide)
      (uploadedRow 2 "docs/a.txt" "a.txt") (by decide) (by decide)
    exact htaken ⟨rfl, rfl⟩

end RecycleRoundTrip
