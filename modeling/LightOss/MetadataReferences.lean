import Mathlib.Algebra.Order.Group.Multiset
import LightOss.RecycleMoves
import LightOss.LedgerInvariant

/-! # Metadata references — which files the catalog names

    Every row of the object table and of the recycle bin with a storage path is one
    reference.  A publication adds a reference for each staged file and gives up
    those whose paths it reports as released (`Disciplined`); a move between the two
    tables keeps the bag as it is.  This is the contract the ledger relies on.

    One row at a time the books balance without more (`references_upsertRow`).  For a
    manifest they do because its keys are distinct to the collation (`DistinctKeys`):
    no row of the loop touches the rows that a later one replaces
    (`references_upsertRows`). -/

namespace MetadataReferences

open KeyedTable Fallible LedgerRows Catalog MetadataServices CatalogSpecs RecycleMoves
  LedgerInvariant

variable {k : Collation} {c c' : Tables k}

/-- A row without a storage path refers to nothing. -/
def fileRef (path : String) (size : Int) : Multiset Reference :=
  if path = "" then 0 else {(path, size)}

/-- The reference of an object. -/
def objectRef (o : Object) : Multiset Reference := fileRef o.storagePath o.size

/-- The reference of a recycle row. -/
def recycleRef (r : RecycleBinObject) : Multiset Reference := fileRef r.storagePath r.size

/-- The references of the whole catalog. -/
def references (c : Tables k) : Multiset Reference :=
  c.objects.sum objectRef + c.recycleBin.sum recycleRef

/-- The references of some objects. -/
def objectRefs (objects : List Object) : Multiset Reference := (objects.map objectRef).sum

/-- The references of some recycle rows. -/
def recycleRefs (items : List RecycleBinObject) : Multiset Reference := (items.map recycleRef).sum

/-- A publication adds `staged` and gives up exactly the references it releases. -/
def Disciplined (f : Callback k) (staged : Multiset Reference) : Prop :=
  ∀ c c' released, f c = .ok (c', released) →
    ∃ D, references c' + D = references c + staged
      ∧ D.map Prod.fst = ↑(released.filter (· ≠ ""))

/-! ## Bags of references -/

/-- A row names its path, unless the path is empty. -/
theorem map_fst_fileRef (path : String) (size : Int) :
    (fileRef path size).map Prod.fst = ↑([path].filter (· ≠ "")) := by
  by_cases hp : path = "" <;> simp [fileRef, hp]

/-- What rows name, as a list of paths. -/
theorem map_fst_sum {α : Type} (path : α → String) (size : α → Int) (rows : List α) :
    (rows.map fun r => fileRef (path r) (size r)).sum.map Prod.fst
      = ↑((rows.map path).filter (· ≠ "")) := by
  induction rows with
  | nil => rfl
  | cons r rest ih =>
      have hsplit : (path r :: rest.map path) = [path r] ++ rest.map path := rfl
      rw [List.map_cons, List.sum_cons, Multiset.map_add, ih, map_fst_fileRef, List.map_cons,
        hsplit, List.filter_append, Multiset.coe_add]

/-- What objects name is what `storagePathsFromObjects` lists. -/
theorem map_fst_objectRefs (objects : List Object) :
    (objectRefs objects).map Prod.fst = ↑((storagePathsFromObjects objects).filter (· ≠ "")) := by
  rw [objectRefs, storagePathsFromObjects]
  refine (map_fst_sum Object.storagePath Object.size objects).trans ?_
  rw [List.filter_filter]
  refine congrArg _ (List.filter_congr fun path _ => ?_)
  by_cases hp : path = "" <;> simp [hp]

theorem map_fst_recycleRefs (items : List RecycleBinObject) :
    (recycleRefs items).map Prod.fst = ↑((items.map (·.storagePath)).filter (· ≠ "")) :=
  map_fst_sum RecycleBinObject.storagePath RecycleBinObject.size items

/-- The order of the rows does not matter. -/
theorem objectRefs_perm {xs ys : List Object} (h : xs.Perm ys) : objectRefs xs = objectRefs ys :=
  (h.map objectRef).sum_eq

/-- The order of the rows does not matter. -/
theorem recycleRefs_perm {xs ys : List RecycleBinObject} (h : xs.Perm ys) :
    recycleRefs xs = recycleRefs ys :=
  (h.map recycleRef).sum_eq

theorem objectRefs_append (xs ys : List Object) :
    objectRefs (xs ++ ys) = objectRefs xs + objectRefs ys := by
  rw [objectRefs, List.map_append, List.sum_append, objectRefs, objectRefs]

theorem recycleRefs_append (xs ys : List RecycleBinObject) :
    recycleRefs (xs ++ ys) = recycleRefs xs + recycleRefs ys := by
  rw [recycleRefs, List.map_append, List.sum_append, recycleRefs, recycleRefs]

theorem objectRefs_singleton (o : Object) : objectRefs [o] = objectRef o := List.sum_singleton

/-- The ids that the database gives are no references. -/
theorem recycleRefs_withIDs (items : List RecycleBinObject) :
    ∀ next, recycleRefs (withIDs next items) = recycleRefs items := by
  induction items with
  | nil => intro next; rfl
  | cons item rest ih =>
      intro next
      have hrest := ih (next + 1)
      rw [recycleRefs, recycleRefs] at hrest
      rw [recycleRefs, withIDs, List.map_cons, List.sum_cons, hrest, recycleRefs, List.map_cons,
        List.sum_cons]
      rfl

/-- Object rows moved to the recycle bin name the same files. -/
theorem recycleRefs_fromObjects (objects : List Object) (deletedAt : Time) (group : String) :
    recycleRefs (objects.map (recycleBinObjectFromObject · deletedAt group))
      = objectRefs objects := by
  rw [recycleRefs, List.map_map, objectRefs]
  rfl

/-- The files of the tables that name any. -/
theorem references_of_kept (h : FilesKept c c') : references c' = references c := by
  rw [references, references, h.objects, h.recycleBin]

/-- A statement on the objects leaves the share of the bin. -/
theorem references_of_objectsOnly (h : ObjectsOnly c c') :
    references c' = c'.objects.sum objectRef + c.recycleBin.sum recycleRef := by
  rw [references, h.recycleBin]

/-! ## Statements on the object table -/

theorem references_insertObject {object : Object} (h : insertObject c object = .ok c') :
    references c' = references c + objectRef object := by
  obtain ⟨honly, -, hrows⟩ := insertObject_ok h
  rw [references_of_objectsOnly honly, Table.sum_insert hrows, references, add_right_comm]
  rfl

theorem references_create {object : Object} {now : Time} (h : create c object now = .ok c') :
    references c' = references c + objectRef object := by
  have hnew := references_insertObject h
  exact hnew

/-- A loop of inserts adds the references of its rows. -/
theorem references_insertObjects {f : Tables k → Object → Except Err (Tables k)}
    (hf : ∀ m o m', f m o = .ok m' → references m' = references m + objectRef o) :
    ∀ (objects : List Object) {c c' : Tables k}, objects.foldlM f c = .ok c' →
      references c' = references c + objectRefs objects := by
  intro objects
  induction objects with
  | nil =>
      intro c c' h
      obtain rfl := pure_eq_ok.mp h
      exact (add_zero _).symm
  | cons o rest ih =>
      intro c c' h
      rw [List.foldlM_cons] at h
      obtain ⟨m, hm, h⟩ := bind_eq_ok.mp h
      rw [ih h, hf _ _ _ hm, add_assoc, objectRefs, objectRefs, List.map_cons, List.sum_cons]

/-- An upsert adds the file of the new row and gives up that of the row it replaces. -/
theorem references_upsertRow {object : Object} {now : Time} (h : upsertRow now c object = .ok c') :
    references c' + objectRefs (c.objects.select (sameKey k object.bucketName object.objectKey))
      = references c + objectRef object := by
  obtain ⟨honly, ⟨hne, hrows⟩ | ⟨hnil, -, hrows⟩⟩ := upsertRow_ok h
  · obtain ⟨r, hr⟩ := List.exists_mem_of_ne_nil _ hne
    obtain ⟨hmem, hkey⟩ := Table.mem_select.mp hr
    have hsel := select_sameKey_of_mem hmem hkey
    have hsum := Table.sum_update hrows objectRef
    rw [hsel] at hsum ⊢
    have hnew : (List.map (fun r => objectRef (assignObject object now r)) [r]).sum
        = objectRef object := List.sum_singleton
    rw [hnew] at hsum
    rw [references_of_objectsOnly honly, references, objectRefs, add_right_comm, hsum,
      add_right_comm]
  · have hnone : objectRefs [] = 0 := rfl
    rw [hnil, hnone, add_zero, references_of_objectsOnly honly, Table.sum_insert hrows, references,
      add_right_comm]
    rfl

/-- Rows of other keys do not notice an upsert. -/
theorem select_upsertRow {object : Object} {now : Time} (h : upsertRow now c object = .ok c')
    {bucketName key : String} (hkey : k.eq object.objectKey key = false) :
    c'.objects.select (sameKey k bucketName key) = c.objects.select (sameKey k bucketName key) := by
  have hother : ∀ r : Object, sameKey k object.bucketName object.objectKey r = true →
      sameKey k bucketName key r = false := by
    intro r hr
    rw [sameKey, Bool.and_eq_true] at hr
    rw [sameKey, Collation.eq_congr hr.2, hkey, Bool.and_false]
  rw [Table.select, Table.select]
  obtain ⟨-, ⟨-, hrows⟩ | ⟨-, -, hrows⟩⟩ := upsertRow_ok h
  · rw [hrows]
    induction c.objects.rows with
    | nil => rfl
    | cons r rest ih =>
        by_cases hr : sameKey k object.bucketName object.objectKey r = true
        · have hnew : sameKey k bucketName key (upserted k now object r) = false := by
            rw [upserted, if_pos hr]
            exact hother r hr
          rw [List.map_cons, List.filter_cons_of_neg (by simp [hnew]),
            List.filter_cons_of_neg (by simp [hother r hr])]
          exact ih
        · rw [List.map_cons, upserted, if_neg hr, List.filter_cons, List.filter_cons, ih]
  · rw [hrows, List.filter_append, List.filter_cons_of_neg, List.filter_nil, List.append_nil]
    simp only [sameKey, hkey, Bool.and_false, Bool.false_eq_true, not_false_eq_true]

/-! ## Publications of one object -/

/-- The path that an overwrite reports is that of the row it replaces. -/
theorem map_fst_replacedPath {bucketName objectKey : String} {released : List String}
    (h : replacedPath c bucketName objectKey = .ok released) :
    (objectRefs (c.objects.select (sameKey k bucketName objectKey))).map Prod.fst
      = ↑(released.filter (· ≠ "")) := by
  rw [replacedPath] at h
  split at h
  · next existing hfind =>
      cases h
      obtain ⟨hmem, hkey⟩ := findActive_ok hfind
      rw [select_sameKey_of_mem hmem hkey, objectRefs_singleton, objectRef, map_fst_fileRef]
  · next hfind =>
      cases h
      have hnone : c.objects.select (sameKey k bucketName objectKey) = [] := by
        refine List.filter_eq_nil_iff.mpr fun o ho hkey => ?_
        have hsome := c.objects.first?_of_mem ho hkey fun a ha => by
          rw [sameKey, Bool.and_eq_true] at ha hkey
          rw [Object.clash, sameKey, Collation.eq_trans ha.1 (Collation.eq_comm _ _ ▸ hkey.1),
            Collation.eq_trans ha.2 (Collation.eq_comm _ _ ▸ hkey.2)]
          simp
        rw [findActive, hsome] at hfind
        cases hfind
      rw [hnone]
      rfl
  · cases h

/-- Overwriting: the released path is that of the row the upsert replaces. -/
theorem references_overwrite {object : Object} {now : Time} {released : List String} {m : Tables k}
    (hrel : replacedPath c object.bucketName object.objectKey = .ok released)
    (hup : upsert c object now = .ok m) :
    ∃ D, references m + D = references c + objectRef object
      ∧ D.map Prod.fst = ↑(released.filter (· ≠ "")) :=
  ⟨_, references_upsertRow (upsert_ok hup), map_fst_replacedPath hrel⟩

theorem upload_disciplined (object : Object) (allowOverwrite : Bool) (now : Time) :
    Disciplined (uploadMetadata (k := k) object allowOverwrite now) (objectRef object) := by
  intro c c' released h
  rw [uploadMetadata] at h
  split at h
  · obtain ⟨paths, hpaths, h⟩ := bind_eq_ok.mp h
    obtain ⟨m, hm, h⟩ := bind_eq_ok.mp h
    cases pure_eq_ok.mp h
    exact references_overwrite hpaths (mapError_eq_ok.mp hm)
  · obtain ⟨m, hm, h⟩ := bind_eq_ok.mp h
    cases pure_eq_ok.mp h
    refine ⟨0, ?_, rfl⟩
    rw [add_zero]
    exact references_create (mapError_eq_ok.mp hm)

theorem createInternal_disciplined (object : Object) (now : Time) :
    Disciplined (createInternalMetadata (k := k) object now) (objectRef object) := by
  intro c c' released h
  rw [createInternalMetadata] at h
  obtain ⟨m, hm, h⟩ := bind_eq_ok.mp h
  cases pure_eq_ok.mp h
  refine ⟨0, ?_, rfl⟩
  rw [add_zero]
  exact references_create (mapError_eq_ok.mp hm)

/-- `PublishFile` reports what it replaces. -/
theorem publishSiteFile_disciplined (object : Object) (site : Site) (domains : List String)
    (now : Time) :
    Disciplined (publishSiteFileMetadata (k := k) object site domains now) (objectRef object) := by
  intro c c' released h
  rw [publishSiteFileMetadata] at h
  obtain ⟨paths, hpaths, h⟩ := bind_eq_ok.mp h
  obtain ⟨m, hm, h⟩ := bind_eq_ok.mp h
  obtain ⟨n, hn, h⟩ := bind_eq_ok.mp h
  cases pure_eq_ok.mp h
  obtain ⟨D, hD, hpath⟩ := references_overwrite hpaths (mapError_eq_ok.mp hm)
  exact ⟨D, by rw [references_of_kept (createSite_ok hn), hD], hpath⟩

/-! ## Publications of many objects -/

/-- The rows of one manifest: one bucket, and no two keys the collation identifies. -/
structure DistinctKeys (k : Collation) (bucketName : String) (objects : List Object) : Prop where
  bucket : ∀ o ∈ objects, o.bucketName = bucketName
  keys : (objects.map (·.objectKey)).Pairwise fun a b => k.eq a b = false

/-- Asking for keys in one statement is asking for each. -/
theorem findActiveByKeys_eq (c : Tables k) (bucketName : String) (keys : List String) :
    findActiveByKeys c bucketName keys = c.objects.select (keyIn k bucketName keys) := by
  rw [findActiveByKeys]
  split
  · next hnil =>
      refine (List.filter_eq_nil_iff.mpr fun o _ => ?_).symm
      simp [keyIn, hnil]
  · rfl

/-- Keys that the collation tells apart select different rows. -/
theorem objectRefs_select_append {bucketName : String} {xs ys : List String}
    (hdist : ∀ x ∈ xs, ∀ y ∈ ys, k.eq x y = false) :
    objectRefs (c.objects.select (keyIn k bucketName (xs ++ ys)))
      = objectRefs (c.objects.select (keyIn k bucketName xs))
        + objectRefs (c.objects.select (keyIn k bucketName ys)) := by
  have hor : keyIn k bucketName (xs ++ ys)
      = fun o => keyIn k bucketName xs o || keyIn k bucketName ys o := by
    funext o
    simp only [keyIn, List.any_append]
    cases k.eq o.bucketName bucketName <;> simp
  rw [hor]
  refine c.objects.sum_select_or ?_ objectRef
  intro o _ hx
  rw [keyIn, Bool.and_eq_true] at hx
  obtain ⟨x, hmem, hox⟩ := List.any_eq_true.mp hx.2
  have hnone : (ys.any fun key => k.eq o.objectKey key) = false := by
    refine List.any_eq_false.mpr fun y hy => ?_
    rw [Collation.eq_congr hox, hdist x hmem y hy]
    exact Bool.false_ne_true
  rw [keyIn, hnone, Bool.and_false]

/-- Reading a manifest's rows batch by batch reads each of them once. -/
theorem objectRefs_findActiveInBatches {bucketName : String} {keys : List String}
    (hkeys : keys.Pairwise fun a b => k.eq a b = false) :
    objectRefs (findActiveObjectsInBatches c bucketName keys)
      = objectRefs (c.objects.select (keyIn k bucketName keys)) := by
  have hflat : ∀ bs : List (List String), bs.flatten.Pairwise (fun a b => k.eq a b = false) →
      objectRefs (bs.flatMap (findActiveByKeys c bucketName))
        = objectRefs (c.objects.select (keyIn k bucketName bs.flatten)) := by
    intro bs
    induction bs with
    | nil =>
        intro _
        rw [List.flatten_nil, ← findActiveByKeys_eq, findActiveByKeys, if_pos rfl]
        rfl
    | cons batch rest ih =>
        intro hpair
        rw [List.flatten_cons] at hpair
        obtain ⟨-, hrest, hdist⟩ := List.pairwise_append.mp hpair
        rw [List.flatMap_cons, objectRefs_append, ih hrest, List.flatten_cons,
          objectRefs_select_append hdist, findActiveByKeys_eq]
  have hn : 0 < metadataWriteBatchSize := by decide
  rw [findActiveObjectsInBatches, hflat _ (by rwa [flatten_batches hn]), flatten_batches hn]

/-- Upserting a manifest adds all its files and gives up those of the rows it replaces. -/
theorem references_upsertRows {bucketName : String} {objects : List Object} {now : Time}
    (hdist : DistinctKeys k bucketName objects) (h : objects.foldlM (upsertRow now) c = .ok c') :
    references c' + objectRefs (c.objects.select (keyIn k bucketName (objects.map (·.objectKey))))
      = references c + objectRefs objects := by
  -- invariant: the files of the rows so far have come in, those they replaced are gone, and
  -- the rows of other keys are as they were
  refine (foldlM_along (P := fun xs m =>
    references m + objectRefs (c.objects.select (keyIn k bucketName (xs.map (·.objectKey))))
        = references c + objectRefs xs
      ∧ ∀ key, (∀ x ∈ xs, k.eq x.objectKey key = false) →
        m.objects.select (sameKey k bucketName key) = c.objects.select (sameKey k bucketName key))
    ?_ ?_ h).1
  · refine ⟨?_, fun _ _ => rfl⟩
    rw [List.map_nil, ← findActiveByKeys_eq, findActiveByKeys, if_pos rfl]
  · rintro xs o m m' hpre ⟨hrefs, hsame⟩ hm
    have hbucket : o.bucketName = bucketName :=
      hdist.bucket o (hpre.subset (List.mem_append_right _ List.mem_cons_self))
    have hpair := hdist.keys.sublist (hpre.sublist.map (·.objectKey))
    rw [List.map_append] at hpair
    have hnew : ∀ x ∈ xs, k.eq x.objectKey o.objectKey = false := fun x hx =>
      (List.pairwise_append.mp hpair).2.2 _ (List.mem_map_of_mem hx) _ List.mem_cons_self
    have hone : keyIn k bucketName [o.objectKey] = sameKey k bucketName o.objectKey := by
      funext r
      simp [keyIn, sameKey]
    constructor
    -- the row of this key is still the one from before the loop
    · have hup := references_upsertRow hm
      rw [hbucket, hsame _ hnew] at hup
      rw [List.map_append, objectRefs_select_append, List.map_singleton, hone,
        objectRefs_append, objectRefs_singleton]
      · rw [add_comm (objectRefs (c.objects.select (keyIn k bucketName _))), ← add_assoc, hup,
          add_right_comm, hrefs, add_assoc]
      · intro x hx y hy
        obtain ⟨a, ha, rfl⟩ := List.mem_map.mp hx
        rw [List.map_singleton, List.mem_singleton] at hy
        rw [hy]
        exact hnew a ha
    · intro key hkey
      rw [select_upsertRow hm (hkey o (List.mem_append_right _ List.mem_cons_self))]
      exact hsame key fun x hx => hkey x (List.mem_append_left _ hx)

/-- A batch adds its references and takes those of the rows under its keys, as long as no
    two keys clash. -/
theorem references_upsertBatch {bucketName : String} {objects : List Object} {n : Nat} {now : Time}
    (hn : 0 < n) (hdist : DistinctKeys k bucketName objects)
    (h : upsertBatch c objects n now = .ok c') :
    references c' + objectRefs (c.objects.select (keyIn k bucketName (objects.map (·.objectKey))))
      = references c + objectRefs objects := by
  rw [upsertBatch, foldlM_batches hn] at h
  exact references_upsertRows hdist h

/-- A batch of creates adds its references. -/
theorem references_createBatch {objects : List Object} {n : Nat} {now : Time} (hn : 0 < n)
    (h : createBatch c objects n now = .ok c') :
    references c' = references c + objectRefs objects := by
  rw [createBatch, foldlM_batches hn] at h
  exact references_insertObjects (fun _ _ _ => references_create) objects h

/-- `UploadBatch` reports what it replaces. -/
theorem uploadBatch_disciplined {bucketName : String} {objects : List Object}
    (hdist : DistinctKeys k bucketName objects) (allowOverwrite : Bool) (now : Time) :
    Disciplined (uploadBatchMetadata (k := k) bucketName objects allowOverwrite now)
      (objectRefs objects) := by
  intro c c' released h
  have hn : 0 < metadataWriteBatchSize := by decide
  rw [uploadBatchMetadata] at h
  obtain ⟨_, hfree, h⟩ := bind_eq_ok.mp h
  obtain ⟨m, hm, h⟩ := bind_eq_ok.mp h
  obtain ⟨_, -, h⟩ := bind_eq_ok.mp h
  cases pure_eq_ok.mp h
  cases allowOverwrite with
  | true =>
      refine ⟨_, references_upsertBatch hn hdist (mapError_eq_ok.mp hm), ?_⟩
      rw [← objectRefs_findActiveInBatches hdist.keys]
      exact map_fst_objectRefs _
  | false =>
      have hnil := (ensure_eq_ok.mp hfree).resolve_left Bool.false_ne_true
      refine ⟨0, ?_, by rw [hnil]; rfl⟩
      rw [add_zero]
      exact references_createBatch hn (mapError_eq_ok.mp hm)

/-- `Publish` does too, as long as no two keys clash. -/
theorem publishSite_disciplined {bucketName : String} {objects : List Object}
    (hdist : DistinctKeys k bucketName objects) (site : Site) (domains : List String)
    (now : Time) :
    Disciplined (publishSiteMetadata (k := k) bucketName objects site domains now)
      (objectRefs objects) := by
  intro c c' released h
  have hn : 0 < metadataWriteBatchSize := by decide
  rw [publishSiteMetadata] at h
  obtain ⟨m, hm, h⟩ := bind_eq_ok.mp h
  obtain ⟨m', hm', h⟩ := bind_eq_ok.mp h
  cases pure_eq_ok.mp h
  refine ⟨objectRefs (c.objects.select (keyIn k bucketName (objects.map (·.objectKey)))), ?_, ?_⟩
  · rw [references_of_kept (createSite_ok hm')]
    exact references_upsertBatch hn hdist (mapError_eq_ok.mp hm)
  · rw [← objectRefs_findActiveInBatches hdist.keys]
    exact map_fst_objectRefs _

/-! ## Purging and deleting a bucket -/

/-- Deleting objects takes their references. -/
theorem references_deleteObjects (c : Tables k) (p : Object → Bool) :
    references { c with objects := c.objects.deleteWhere p } + objectRefs (c.objects.select p)
      = references c := by
  have hsum := c.objects.sum_delete (c.objects.rows_deleteWhere p) objectRef
  rw [references, references, objectRefs, ← hsum, add_right_comm]

/-- Deleting recycle rows takes theirs. -/
theorem references_deleteRecycle (c : Tables k) (p : RecycleBinObject → Bool) :
    references { c with recycleBin := c.recycleBin.deleteWhere p }
      + recycleRefs (c.recycleBin.select p) = references c := by
  have hsum := c.recycleBin.sum_delete (c.recycleBin.rows_deleteWhere p) recycleRef
  rw [references, references, recycleRefs, ← hsum, add_assoc]

theorem references_hardDeleteRecycle {items : List RecycleBinObject}
    (hmem : ∀ i ∈ items, i ∈ c.recycleBin.rows) (hnd : items.Nodup) :
    references (hardDeleteRecycleByIDs c (items.map (·.id))).2 + recycleRefs items
      = references c := by
  rw [← recycleRefs_perm (select_recycle_ids_perm hmem hnd)]
  exact references_deleteRecycle c _

/-- A purge reports the paths of the rows it takes. -/
theorem purge_disciplined (itemID : Nat) : Disciplined (purgeMetadata (k := k) itemID) 0 := by
  intro c c' released h
  rw [purgeMetadata] at h
  obtain ⟨groupItems, hread, h⟩ := bind_eq_ok.mp h
  obtain ⟨item, hitem, -, rfl⟩ := purgeReads_ok hread
  obtain ⟨hpurged, rfl⟩ := purgeItems_ok h
  obtain ⟨hnd, hmem⟩ := loadRecycleBinActionItems_rows hitem
  refine ⟨recycleRefs (loadRecycleBinActionItems c item), ?_, ?_⟩
  · rw [hpurged.tables, add_zero]
    exact references_hardDeleteRecycle hmem hnd
  · rw [map_fst_recycleRefs, List.filter_filter]
    refine congrArg _ (List.filter_congr fun path _ => ?_)
    by_cases hp : path = "" <;> simp [hp]

/-- The cascades find nothing that the explicit deletes left behind. -/
theorem references_deleteByName (c : Tables k) (name : String)
    (hobjects : ∀ o ∈ c.objects.rows, k.eq o.bucketName name = false)
    (hrecycled : ∀ r ∈ c.recycleBin.rows, k.eq r.bucketName name = false) :
    references (deleteByName c name).2 = references c := by
  have hkeep : ∀ bucketName, k.eq bucketName name = false →
      ((c.buckets.select fun b => k.eq b.name name).any fun b => k.eq b.name bucketName)
        = false := by
    intro bucketName hne
    refine List.any_eq_false.mpr fun b hb => ?_
    have hbn := (Table.mem_select.mp hb).2
    rw [Collation.eq_congr hbn, Collation.eq_comm, hne]
    exact Bool.false_ne_true
  have ho : (deleteByName c name).2.objects = c.objects := by
    refine Table.ext_rows (List.filter_eq_self.mpr fun o hmem => ?_)
    exact congrArg (!·) (hkeep _ (hobjects o hmem))
  have hr : (deleteByName c name).2.recycleBin = c.recycleBin := by
    refine Table.ext_rows (List.filter_eq_self.mpr fun r hmem => ?_)
    exact congrArg (!·) (hkeep _ (hrecycled r hmem))
  exact references_of_kept ⟨ho, hr⟩

/-- Deleting a bucket reports the paths of all its rows. -/
theorem deleteBucket_disciplined (name : String) :
    Disciplined (deleteBucketMetadata (k := k) name) 0 := by
  intro c c' released h
  rw [deleteBucketMetadata] at h
  obtain ⟨_, -, h⟩ := bind_eq_ok.mp h
  obtain ⟨_, -, h⟩ := bind_eq_ok.mp h
  cases pure_eq_ok.mp h
  have hsites : references (deleteSitesByBucket c name) = references c :=
    references_of_kept ⟨rfl, rfl⟩
  have hrecycle := references_deleteRecycle (deleteSitesByBucket c name)
    fun r => k.eq r.bucketName name
  have hobjects := references_deleteObjects
    (hardDeleteRecycleByBucket (deleteSitesByBucket c name) name) fun o => k.eq o.bucketName name
  have hbuckets := references_deleteByName
    (hardDeleteByBucket (hardDeleteRecycleByBucket (deleteSitesByBucket c name) name) name) name
    (fun o ho => (Table.mem_deleteWhere.mp ho).2) fun r hr => (Table.mem_deleteWhere.mp hr).2
  refine ⟨objectRefs (listAllByBucket c name) + recycleRefs (listAllRecycleByBucket c name), ?_, ?_⟩
  · refine (congrArg (· + _) hbuckets).trans ?_
    rw [listAllByBucket, objectRefs_perm (List.mergeSort_perm _ _), listAllRecycleByBucket,
      recycleRefs_perm (List.mergeSort_perm _ _), add_zero, ← add_assoc]
    exact (congrArg (· + _) hobjects).trans (hrecycle.trans hsites)
  · rw [Multiset.map_add, map_fst_objectRefs, map_fst_recycleRefs, storagePathsFromObjects,
      List.filter_append, ← Multiset.coe_add]
    refine congrArg _ (congrArg _ ?_)
    rw [List.filter_filter]
    refine List.filter_congr fun path _ => ?_
    by_cases hp : path = "" <;> simp [hp]

/-! ## Moves between the object table and the recycle bin -/

/-- Rows are moved: new recycle rows for the same files, and the object rows are gone. -/
theorem references_moved {objects : List Object} {items : List RecycleBinObject}
    (h : Moved c c' objects items) (hmem : ∀ o ∈ objects, o ∈ c.objects.rows)
    (hnd : objects.Nodup) (hitems : recycleRefs items = objectRefs objects) :
    references c' = references c := by
  have hobjects : c'.objects.sum objectRef + objectRefs objects = c.objects.sum objectRef := by
    rw [← objectRefs_perm (select_ids_perm hmem hnd)]
    exact Table.sum_delete h.objects objectRef
  have hrecycled : c'.recycleBin.sum recycleRef
      = c.recycleBin.sum recycleRef + objectRefs objects := by
    rw [Table.sum, h.recycleBin, List.map_append, List.sum_append, ← hitems]
    exact congrArg _ (recycleRefs_withIDs items c.nextRecycleID)
  rw [references, references, hrecycled, ← hobjects, add_comm (c.recycleBin.sum recycleRef),
    add_assoc]

/-- An object in the bin is named from there. -/
theorem references_movedOne {object : Object} {deletedAt : Time} {group : String}
    (h : Moved c c' [object] [recycleBinObjectFromObject object deletedAt group])
    (hmem : object ∈ c.objects.rows) : references c' = references c := by
  refine references_moved h (fun o ho => ?_) (List.nodup_singleton _)
    (recycleRefs_fromObjects [object] deletedAt group)
  rwa [List.mem_singleton.mp ho]

/-- Deleting an object moves its reference. -/
theorem references_deleteObject {bucketName objectKey group : String} {deletedAt : Time}
    (h : deleteObject c bucketName objectKey deletedAt group = .ok c') :
    references c' = references c := by
  obtain ⟨object, hmem, -, hmoved⟩ := deleteObject_ok h
  exact references_movedOne hmoved hmem

/-- A synthetic marker names no file. -/
theorem recycleRefs_syntheticMarker (objects : List Object) (bucketName folderPath : String)
    (deletedAt : Time) (group : String) :
    recycleRefs (syntheticMarker objects bucketName folderPath deletedAt group) = 0 := by
  rw [syntheticMarker]
  split
  · rfl
  · rfl

/-- Deleting a folder moves all of them; the synthetic marker names no file. -/
theorem references_deleteFolderRecursive {bucketName folderPath group : String} {deletedAt : Time}
    (h : deleteFolderRecursive c bucketName folderPath deletedAt group = .ok c') :
    references c' = references c := by
  obtain ⟨moved, owner, -, hperm, hmoved⟩ := deleteFolderRecursive_moves h
  obtain ⟨hnd, hrows⟩ := listActiveByPrefixOrdered_rows c bucketName folderPath
  refine references_moved hmoved (fun o ho => ((hrows o).mp ho).1) hnd ?_
  rw [recycleRefs_append, recycleRefs_fromObjects, recycleRefs_syntheticMarker, add_zero,
    objectRefs_perm hperm]

theorem references_deleteFolder {bucketName folderPath group : String} {isRecursive : Bool}
    {deletedAt : Time}
    (h : deleteFolder c bucketName folderPath isRecursive deletedAt group = .ok c') :
    references c' = references c := by
  rcases deleteFolder_ok h with ⟨-, hrec⟩ | ⟨-, hempty⟩
  · exact references_deleteFolderRecursive hrec
  · obtain ⟨marker, hmem, hmoved⟩ := deleteFolderEmpty_ok hempty
    exact references_movedOne hmoved hmem

/-- The skipped items of a restore name no file. -/
theorem objectRefs_restoreTargets (items : List RecycleBinObject) (updatedAt : Time) :
    objectRefs ((items.filter fun i => !shouldSkipRecycleBinRestoreItem i).map
      (restoredObject updatedAt)) = recycleRefs items := by
  induction items with
  | nil => rfl
  | cons item rest ih =>
      cases hskip : shouldSkipRecycleBinRestoreItem item with
      | true =>
          rw [shouldSkipRecycleBinRestoreItem, Bool.and_eq_true, beq_iff_eq, beq_iff_eq] at hskip
          have hnone : recycleRef item = 0 := by rw [recycleRef, fileRef, if_pos hskip.2]
          rw [List.filter_cons_of_neg (by simp [shouldSkipRecycleBinRestoreItem, hskip]), ih,
            recycleRefs, recycleRefs, List.map_cons, List.sum_cons, hnone, zero_add]
      | false =>
          rw [objectRefs, recycleRefs] at ih
          rw [List.filter_cons_of_pos (by simp [hskip]), objectRefs, List.map_cons, List.map_cons,
            List.sum_cons, ih, recycleRefs, List.map_cons, List.sum_cons]
          rfl

/-- The ids that the database gives are no references. -/
theorem objectRefs_objectsWithIDs : ∀ (objects : List Object) (next : Nat),
    objectRefs (objectsWithIDs next objects) = objectRefs objects := by
  intro objects
  induction objects with
  | nil => intro next; rfl
  | cons object rest ih =>
      intro next
      have ih := ih (next + 1)
      rw [objectRefs, objectRefs] at ih
      rw [objectsWithIDs, objectRefs, objectRefs, List.map_cons, List.map_cons, List.sum_cons,
        List.sum_cons, ih]
      rfl

theorem references_restoreObject {itemID : Nat} {updatedAt : Time}
    (h : restoreObject c itemID updatedAt = .ok c') : references c' = references c := by
  obtain ⟨groupItems, hread, hrestored⟩ := restoreObject_ok h
  obtain ⟨item, hitem, -, rfl, -, -⟩ := restoreReads_ok hread
  obtain ⟨hnd, hmem⟩ := loadRecycleBinActionItems_rows hitem
  have hobjects : c'.objects.sum objectRef
      = c.objects.sum objectRef + recycleRefs (loadRecycleBinActionItems c item) := by
    rw [Table.sum, hrestored.objects, List.map_append, List.sum_append,
      ← objectRefs_restoreTargets _ updatedAt, ← objectRefs_objectsWithIDs _ c.nextObjectID]
    rfl
  have hrecycled : c'.recycleBin.sum recycleRef + recycleRefs (loadRecycleBinActionItems c item)
      = c.recycleBin.sum recycleRef := by
    rw [← recycleRefs_perm (select_recycle_ids_perm hmem hnd)]
    exact Table.sum_delete hrestored.recycleBin recycleRef
  rw [references, references, hobjects, ← hrecycled, add_right_comm, add_assoc]

/-! ## Other writes -/

theorem references_createBucket {bucket : Bucket} (h : createBucket c bucket = .ok c') :
    references c' = references c := by
  rw [createBucket] at h
  split at h
  · cases h
    rfl
  · exact nomatch h

theorem references_updateVisibility {bucketName objectKey : String} {visibility : Visibility}
    {now : Time} (h : updateVisibility c bucketName objectKey visibility now = .ok c') :
    references c' = references c := by
  rw [updateVisibility] at h
  obtain ⟨_, -, h⟩ := bind_eq_ok.mp h
  cases pure_eq_ok.mp h
  rw [references, references]
  refine congrArg (· + c.recycleBin.sum recycleRef) ?_
  refine Table.sum_map_eq rfl fun o _ => ?_
  split <;> rfl

end MetadataReferences
