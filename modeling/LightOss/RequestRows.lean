import LightOss.ObjectServices

/-! # Request rows — where every row after a request comes from

    Said once for all requests (`Derives`): an object row is one from before, perhaps
    with the file of a staged handle; or it is new, with a key the request writes; or it
    came back from the recycle bin.  A recycle row is one from before, the image of an
    object, or a synthetic marker.

    Each statement of a request derives its tables from those before it, so does each
    request (`request_derives`, one case for each), and the invariants of the catalog
    follow from this without another look at a request (`CatalogOk.derives`). -/

namespace RequestRows

open KeyedTable Fallible LedgerRows Catalog Validation MetadataServices CatalogSpecs RecycleMoves
open BatchPublication ObjectServices

variable {k : Collation} {c c' m : Tables k} {K P : String → Prop}

/-- A row that was in the object table. -/
def Kept (c : Tables k) (P : String → Prop) (o' : Object) : Prop :=
  ∃ o ∈ c.objects.rows, o'.id = o.id ∧ o'.bucketName = o.bucketName ∧ o'.objectKey = o.objectKey
    ∧ (o'.storagePath = o.storagePath ∨ P o'.storagePath)

/-- A row that came back from the recycle bin. -/
def CameBack (c : Tables k) (P : String → Prop) (o' : Object) : Prop :=
  ∃ r ∈ c.recycleBin.rows, shouldSkipRecycleBinRestoreItem r = false
    ∧ o'.objectKey = r.objectKey ∧ (o'.storagePath = r.storagePath ∨ P o'.storagePath)

/-- The tables `c'` after a request on `c` that writes keys in `K` for files in `P`. -/
structure Derives (c c' : Tables k) (K P : String → Prop) : Prop where
  objects : ∀ o' ∈ c'.objects.rows, Kept c P o'
    ∨ (c.nextObjectID ≤ o'.id ∧ o'.id < c'.nextObjectID
      ∧ ((K o'.objectKey ∧ P o'.storagePath) ∨ CameBack c P o'))
  recycled : ∀ r' ∈ c'.recycleBin.rows, r' ∈ c.recycleBin.rows
    ∨ (∃ o ∈ c.objects.rows, r'.objectKey = o.objectKey ∧ r'.storagePath = o.storagePath)
    ∨ shouldSkipRecycleBinRestoreItem r' = true
  nextObjectID : c.nextObjectID ≤ c'.nextObjectID

theorem kept_self {o : Object} (ho : o ∈ c.objects.rows) : Kept c P o :=
  ⟨o, ho, rfl, rfl, rfl, Or.inl rfl⟩

/-- Nothing new: rows stay or go. -/
theorem Derives.of_subset (hobjects : ∀ o ∈ c'.objects.rows, o ∈ c.objects.rows)
    (hrecycled : ∀ r ∈ c'.recycleBin.rows, r ∈ c.recycleBin.rows)
    (hnext : c'.nextObjectID = c.nextObjectID) : Derives c c' K P where
  objects := fun o ho => Or.inl (kept_self (hobjects o ho))
  recycled := fun r hr => Or.inl (hrecycled r hr)
  nextObjectID := hnext.ge

theorem Derives.refl (c : Tables k) : Derives c c K P :=
  .of_subset (fun _ ho => ho) (fun _ hr => hr) rfl

/-- Statements that touch neither table. -/
theorem Derives.of_kept (h : Derives c m K P) (hobjects : c'.objects = m.objects)
    (hrecycled : c'.recycleBin = m.recycleBin) (hnext : c'.nextObjectID = m.nextObjectID) :
    Derives c c' K P where
  objects := fun o ho => hnext ▸ h.objects o (hobjects ▸ ho)
  recycled := fun r hr => h.recycled r (hrecycled ▸ hr)
  nextObjectID := hnext ▸ h.nextObjectID

/-! ## Statements on the object table -/

/-- What holds of every key before and of every key that is written holds of every
    key after: of the object rows, and of the rows a restore would bring back. -/
theorem Derives.keys {Q : String → Prop} (h : Derives c c' K P)
    (hobjects : ∀ o ∈ c.objects.rows, Q o.objectKey)
    (hrecycled : ∀ r ∈ c.recycleBin.rows, shouldSkipRecycleBinRestoreItem r = false → Q r.objectKey)
    (hK : ∀ key, K key → Q key) :
    (∀ o ∈ c'.objects.rows, Q o.objectKey)
      ∧ ∀ r ∈ c'.recycleBin.rows, shouldSkipRecycleBinRestoreItem r = false → Q r.objectKey := by
  refine ⟨fun o ho => ?_, fun r hr hskip => ?_⟩
  · rcases h.objects o ho with ⟨a, ha, -, -, hkey, -⟩ | ⟨-, -, hnew⟩
    · exact hkey ▸ hobjects a ha
    · rcases hnew with ⟨hkey, -⟩ | ⟨r, hr, hskip, hkey, -⟩
      · exact hK _ hkey
      · exact hkey ▸ hrecycled r hr hskip
  · rcases h.recycled r hr with hr | ⟨o, ho, hkey, -⟩ | hskip'
    · exact hrecycled r hr hskip
    · exact hkey ▸ hobjects o ho
    · exact absurd (hskip.symm.trans hskip') Bool.false_ne_true

/-- A new row under a key of the request. -/
theorem Derives.insert {object : Object} (h : Derives c m K P) (hkey : K object.objectKey)
    (hpath : P object.storagePath) (hm : insertObject m object = .ok c') : Derives c c' K P := by
  obtain ⟨honly, -, hrows⟩ := insertObject_ok hm
  have hnext := insertObject_next hm
  have hle := h.nextObjectID
  refine ⟨fun o ho => ?_, fun r hr => h.recycled r (honly.recycleBin ▸ hr), by omega⟩
  rcases List.mem_append.mp (hrows ▸ ho) with ho | ho
  · rcases h.objects o ho with hkept | ⟨hlow, hhigh, hnew⟩
    · exact Or.inl hkept
    · exact Or.inr ⟨hlow, by omega, hnew⟩
  · rw [List.mem_singleton.mp ho]
    exact Or.inr ⟨hle, by rw [hnext]; exact Nat.lt_succ_self _, Or.inl ⟨hkey, hpath⟩⟩

/-- A new row, or a row with a new file. -/
theorem Derives.upsert {object : Object} {now : Time} (h : Derives c m K P)
    (hkey : K object.objectKey) (hpath : P object.storagePath)
    (hm : upsertRow now m object = .ok c') : Derives c c' K P := by
  rw [upsertRow] at hm
  split at hm
  · cases hm
    refine ⟨fun o' ho' => ?_, h.recycled, h.nextObjectID⟩
    obtain ⟨o, ho, rfl⟩ := List.mem_map.mp ho'
    split
    · -- the row keeps its id and key and gets the file of the new one
      rcases h.objects o ho with ⟨a, ha, hid, hbucket, hakey, -⟩ | ⟨hlow, hhigh, hnew⟩
      · exact Or.inl ⟨a, ha, hid, hbucket, hakey, Or.inr hpath⟩
      · rcases hnew with ⟨hokey, -⟩ | ⟨r, hr, hskip, hrkey, -⟩
        · exact Or.inr ⟨hlow, hhigh, Or.inl ⟨hokey, hpath⟩⟩
        · exact Or.inr ⟨hlow, hhigh, Or.inr ⟨r, hr, hskip, hrkey, Or.inr hpath⟩⟩
    · exact h.objects o ho
  · refine h.insert ?_ ?_ hm
    · exact hkey
    · exact hpath

theorem Derives.inserts {f : Tables k → Object → Except Err (Tables k)} {objects : List Object}
    (hf : ∀ m o m', Derives c m K P → o ∈ objects → f m o = .ok m' → Derives c m' K P) :
    ∀ (rest : List Object), (∀ o ∈ rest, o ∈ objects) → ∀ {m c' : Tables k}, Derives c m K P →
      rest.foldlM f m = .ok c' → Derives c c' K P := by
  intro rest
  induction rest with
  | nil =>
      intro _ m c' hm h
      exact pure_eq_ok.mp h ▸ hm
  | cons o rest ih =>
      intro hsub m c' hm h
      rw [List.foldlM_cons] at h
      obtain ⟨n, hn, h⟩ := bind_eq_ok.mp h
      exact ih (fun a ha => hsub a (List.mem_cons_of_mem _ ha))
        (hf m o n hm (hsub o List.mem_cons_self) hn) h

theorem Derives.create {object : Object} {now : Time} (h : Derives c m K P)
    (hkey : K object.objectKey) (hpath : P object.storagePath)
    (hm : create m object now = .ok c') : Derives c c' K P :=
  h.upsert hkey hpath (upsertRow_of_create hm)

theorem derives_upsertBatch {objects : List Object} {now : Time}
    (hkeys : ∀ o ∈ objects, K o.objectKey) (hpaths : ∀ o ∈ objects, P o.storagePath)
    (h : upsertBatch c objects metadataWriteBatchSize now = .ok c') : Derives c c' K P := by
  rw [upsertBatch, foldlM_batches (by decide)] at h
  exact Derives.inserts (fun m o m' hm ho => hm.upsert (hkeys o ho) (hpaths o ho)) objects
    (fun _ ho => ho) (.refl c) h

theorem derives_createBatch {objects : List Object} {now : Time}
    (hkeys : ∀ o ∈ objects, K o.objectKey) (hpaths : ∀ o ∈ objects, P o.storagePath)
    (h : createBatch c objects metadataWriteBatchSize now = .ok c') : Derives c c' K P := by
  rw [createBatch, foldlM_batches (by decide)] at h
  exact Derives.inserts (fun m o m' hm ho => hm.create (hkeys o ho) (hpaths o ho)) objects
    (fun _ ho => ho) (.refl c) h

theorem createSite_next {site : Site} {domains : List String} {now : Time}
    (h : createSite c site domains now = .ok c') : c'.nextObjectID = c.nextObjectID := by
  have hstep : ∀ (m : Tables k) (domain : String) (m' : Tables k),
      m.nextObjectID = c.nextObjectID → insertSiteDomain c.nextSiteID now m domain = .ok m' →
      m'.nextObjectID = c.nextObjectID := by
    intro m domain m' hm hf
    rw [insertSiteDomain] at hf
    split at hf
    · cases hf
      exact hm
    · cases hf
  rw [createSite] at h
  split at h
  · split at h
    · rw [replaceDomains] at h
      refine foldlM_invariant (I := fun m : Tables k => m.nextObjectID = c.nextObjectID) hstep
        domains ?_ h
      rfl
    · cases h
  · cases h

/-- A site and its domains touch no file. -/
theorem Derives.site {site : Site} {domains : List String} {now : Time} (h : Derives c m K P)
    (hm : createSite m site domains now = .ok c') : Derives c c' K P :=
  have hkept := createSite_ok hm
  h.of_kept hkept.objects hkept.recycleBin (createSite_next hm)

theorem Derives.visibility {bucketName objectKey : String} {visibility : Visibility} {now : Time}
    (h : Derives c m K P)
    (hm : Catalog.updateVisibility m bucketName objectKey visibility now = .ok c') :
    Derives c c' K P := by
  rw [Catalog.updateVisibility] at hm
  obtain ⟨_, -, hm⟩ := bind_eq_ok.mp hm
  cases pure_eq_ok.mp hm
  refine ⟨fun o' ho' => ?_, h.recycled, h.nextObjectID⟩
  obtain ⟨o, ho, rfl⟩ := List.mem_map.mp ho'
  split
  · exact h.objects o ho
  · exact h.objects o ho

/-! ## Moves -/

/-- A move into the bin: each new row is the image of an object or a marker. -/
theorem derives_moved {objects : List Object} {items : List RecycleBinObject}
    (h : Moved c c' objects items)
    (hitems : ∀ i ∈ items, (∃ o ∈ c.objects.rows, i.objectKey = o.objectKey
      ∧ i.storagePath = o.storagePath) ∨ shouldSkipRecycleBinRestoreItem i = true) :
    Derives c c' K P := by
  refine ⟨fun o ho => Or.inl (kept_self ?_), fun r hr => ?_, h.nextObjectID.ge⟩
  · exact (List.mem_filter.mp (h.objects ▸ ho)).1
  · rcases List.mem_append.mp (h.recycleBin ▸ hr) with hr | hr
    · exact Or.inl hr
    · obtain ⟨-, -, i, hi, heq⟩ := mem_withIDs _ _ hr
      rcases hitems i hi with ⟨o, ho, hkey, hpath⟩ | hskip
      · refine Or.inr (Or.inl ⟨o, ho, ?_, ?_⟩)
        · rw [heq]
          exact hkey
        · rw [heq]
          exact hpath
      · refine Or.inr (Or.inr ?_)
        rw [heq]
        exact hskip

theorem derives_movedOne {object : Object} {deletedAt : Time} {group : String}
    (h : Moved c c' [object] [recycleBinObjectFromObject object deletedAt group])
    (hmem : object ∈ c.objects.rows) : Derives c c' K P := by
  refine derives_moved h fun i hi => Or.inl ⟨object, hmem, ?_⟩
  rw [List.mem_singleton.mp hi]
  exact ⟨rfl, rfl⟩

theorem derives_deleteFolder {bucketName folderPath group : String} {isRecursive : Bool}
    {deletedAt : Time}
    (h : deleteFolder c bucketName folderPath isRecursive deletedAt group = .ok c') :
    Derives c c' K P := by
  have hsfx := hasSuffix_of_folderPath (deleteFolder_path h)
  rcases deleteFolder_ok h with ⟨-, hrec⟩ | ⟨-, hempty⟩
  · obtain ⟨moved, owner, -, hperm, hmoved⟩ := deleteFolderRecursive_moves hrec
    obtain ⟨-, hrows⟩ := listActiveByPrefixOrdered_rows c bucketName folderPath
    refine derives_moved hmoved fun i hi => ?_
    rcases List.mem_append.mp hi with hi | hi
    · obtain ⟨o, ho, rfl⟩ := List.mem_map.mp hi
      exact Or.inl ⟨o, ((hrows o).mp (hperm.mem_iff.mp ho)).1, rfl, rfl⟩
    · rw [syntheticMarker] at hi
      split at hi
      · cases hi
      · rw [List.mem_singleton.mp hi]
        exact Or.inr (skip_synthetic hsfx _ _ _)
  · obtain ⟨marker, hmem, hmoved⟩ := deleteFolderEmpty_ok hempty
    exact derives_movedOne hmoved hmem

/-- A restore: the rows come back as they were. -/
theorem derives_restoreObject {itemID : Nat} {updatedAt : Time}
    (h : restoreObject c itemID updatedAt = .ok c') : Derives c c' K P := by
  obtain ⟨groupItems, hread, hrestored⟩ := restoreObject_ok h
  obtain ⟨item, hitem, -, rfl, -, -⟩ := restoreReads_ok hread
  have hmem := (loadRecycleBinActionItems_rows hitem).2
  refine ⟨fun o ho => ?_, fun r hr => Or.inl ?_, ?_⟩
  · rcases List.mem_append.mp (hrestored.objects ▸ ho) with ho | ho
    · exact Or.inl (kept_self ho)
    · obtain ⟨hlow, hhigh, a, ha, heq⟩ := mem_objectsWithIDs _ _ ho
      obtain ⟨r, hr, rfl⟩ := List.mem_map.mp ha
      obtain ⟨hr, hskip⟩ := List.mem_filter.mp hr
      rw [List.length_map] at hhigh
      refine Or.inr ⟨hlow, hrestored.nextObjectID ▸ hhigh, Or.inr ⟨r, hmem r hr, ?_, ?_⟩⟩
      · simpa using hskip
      · rw [heq]
        exact ⟨rfl, Or.inl rfl⟩
  · exact (List.mem_filter.mp (hrestored.recycleBin ▸ hr)).1
  · rw [hrestored.nextObjectID]
    exact Nat.le_add_right _ _

theorem derives_purge {itemID : Nat} {released : List String}
    (h : purgeMetadata itemID c = .ok (c', released)) : Derives c c' K P := by
  rw [purgeMetadata] at h
  obtain ⟨groupItems, -, h⟩ := bind_eq_ok.mp h
  rw [(purgeItems_ok h).1.tables]
  exact .of_subset (fun _ ho => ho) (fun _ hr => (List.mem_filter.mp hr).1) rfl

theorem derives_deleteBucket {name : String} {released : List String}
    (h : deleteBucketMetadata name c = .ok (c', released)) : Derives c c' K P := by
  rw [deleteBucketMetadata] at h
  obtain ⟨_, -, h⟩ := bind_eq_ok.mp h
  obtain ⟨_, -, h⟩ := bind_eq_ok.mp h
  cases pure_eq_ok.mp h
  refine .of_subset (fun o ho => ?_) (fun r hr => ?_) rfl
  · exact (List.mem_filter.mp (List.mem_filter.mp ho).1).1
  · exact (List.mem_filter.mp (List.mem_filter.mp hr).1).1

/-! ## The requests -/

/-- The keys a request writes, and what it checked them for. -/
def Writes : Request → String → Prop
  | .upload input _ _, key => key = input.objectKey ∧ validateUserObjectKey key = .ok ()
  | .uploadBatch _ _ _, key => validateUserObjectKey key = .ok ()
  | .createFolder input _ _, key => key = createFolderKey input
      ∧ validateFolderPrefix input.pfx = .ok () ∧ validateFolderName input.name = .ok ()
  | .publishSite _ _ _ _, key => validateUserObjectKey key = .ok ()
  | .publishFile input filename _ _ _, key => ∃ parentPrefix fileName,
      normalizePublishParentPrefix input.parentPrefix = .ok parentPrefix
        ∧ normalizePublishFileName filename = .ok fileName ∧ key = parentPrefix ++ fileName
  | _, _ => False

/-- The files a request publishes. -/
def Publishes (request : Request) (path : String) : Prop :=
  ∃ staged ∈ request.stagedBlobs, path = staged.storagePath

/-- Every key of a manifest passes the check on keys. -/
theorem prepareItems_valid {pfx : String} : ∀ (items : List UploadObjectBatchItemInput)
    (seen : List String) {prepared : List PreparedBatchUploadItem},
    prepareItems pfx seen items = .ok prepared →
      ∀ p ∈ prepared, validateUserObjectKey p.objectKey = .ok () := by
  intro items
  induction items with
  | nil =>
      intro seen prepared h
      cases h
      exact nofun
  | cons item rest ih =>
      intro seen prepared h
      rw [prepareItems] at h
      obtain ⟨_, -, h⟩ := bind_eq_ok.mp h
      obtain ⟨_, hvalid, h⟩ := bind_eq_ok.mp h
      obtain ⟨_, -, h⟩ := bind_eq_ok.mp h
      obtain ⟨tail, htail, h⟩ := bind_eq_ok.mp h
      cases pure_eq_ok.mp h
      intro p hp
      rcases List.mem_cons.mp hp with rfl | hp
      · exact mapError_eq_ok.mp hvalid
      · exact ih _ htail p hp

/-- The rows of a manifest carry accepted keys and staged files. -/
theorem objectsToSave_rows {pfx : String} {items : List UploadObjectBatchItemInput}
    {preparedItems : List PreparedBatchUploadItem}
    (h : prepareItems pfx [] items = .ok preparedItems)
    (bucketName : String) (visibility : Visibility) (stagedBlobs : List StagedBlob) :
    ∀ o ∈ objectsToSave bucketName visibility preparedItems stagedBlobs,
      validateUserObjectKey o.objectKey = .ok () ∧ ∃ s ∈ stagedBlobs,
      o.storagePath = s.storagePath := by
  intro o ho
  obtain ⟨⟨prepared, staged⟩, hmem, rfl⟩ := List.mem_map.mp ho
  obtain ⟨hprepared, hstaged⟩ := List.of_mem_zip hmem
  exact ⟨prepareItems_valid items [] h prepared hprepared, staged, hstaged, rfl⟩

theorem derives_upload {object : Object} {allowOverwrite : Bool} {now : Time}
    {released : List String} (hkey : K object.objectKey) (hpath : P object.storagePath)
    (h : uploadMetadata object allowOverwrite now c = .ok (c', released)) : Derives c c' K P := by
  rw [uploadMetadata] at h
  split at h
  · obtain ⟨_, -, h⟩ := bind_eq_ok.mp h
    obtain ⟨m, hm, h⟩ := bind_eq_ok.mp h
    cases pure_eq_ok.mp h
    exact (Derives.refl c).upsert hkey hpath (upsert_ok (mapError_eq_ok.mp hm))
  · obtain ⟨m, hm, h⟩ := bind_eq_ok.mp h
    cases pure_eq_ok.mp h
    exact (Derives.refl c).create hkey hpath (mapError_eq_ok.mp hm)

theorem derives_uploadBatch {bucketName : String} {objects : List Object} {allowOverwrite : Bool}
    {now : Time} {released : List String} (hkeys : ∀ o ∈ objects, K o.objectKey)
    (hpaths : ∀ o ∈ objects, P o.storagePath)
    (h : uploadBatchMetadata bucketName objects allowOverwrite now c = .ok (c', released)) :
    Derives c c' K P := by
  rw [uploadBatchMetadata] at h
  obtain ⟨_, -, h⟩ := bind_eq_ok.mp h
  obtain ⟨m, hm, h⟩ := bind_eq_ok.mp h
  obtain ⟨_, -, h⟩ := bind_eq_ok.mp h
  cases pure_eq_ok.mp h
  cases allowOverwrite with
  | true => exact derives_upsertBatch hkeys hpaths (mapError_eq_ok.mp hm)
  | false => exact derives_createBatch hkeys hpaths (mapError_eq_ok.mp hm)

theorem derives_createInternal {object : Object} {now : Time} {released : List String}
    (hkey : K object.objectKey) (hpath : P object.storagePath)
    (h : createInternalMetadata object now c = .ok (c', released)) : Derives c c' K P := by
  rw [createInternalMetadata] at h
  obtain ⟨m, hm, h⟩ := bind_eq_ok.mp h
  cases pure_eq_ok.mp h
  exact (Derives.refl c).create hkey hpath (mapError_eq_ok.mp hm)

theorem derives_publishSite {bucketName : String} {objects : List Object} {site : Site}
    {domains released : List String} {now : Time} (hkeys : ∀ o ∈ objects, K o.objectKey)
    (hpaths : ∀ o ∈ objects, P o.storagePath)
    (h : publishSiteMetadata bucketName objects site domains now c = .ok (c', released)) :
    Derives c c' K P := by
  rw [publishSiteMetadata] at h
  obtain ⟨m, hm, h⟩ := bind_eq_ok.mp h
  obtain ⟨m', hm', h⟩ := bind_eq_ok.mp h
  cases pure_eq_ok.mp h
  exact (derives_upsertBatch hkeys hpaths (mapError_eq_ok.mp hm)).site hm'

theorem derives_publishSiteFile {object : Object} {site : Site} {domains released : List String}
    {now : Time} (hkey : K object.objectKey) (hpath : P object.storagePath)
    (h : publishSiteFileMetadata object site domains now c = .ok (c', released)) :
    Derives c c' K P := by
  rw [publishSiteFileMetadata] at h
  obtain ⟨_, -, h⟩ := bind_eq_ok.mp h
  obtain ⟨m, hm, h⟩ := bind_eq_ok.mp h
  obtain ⟨m', hm', h⟩ := bind_eq_ok.mp h
  cases pure_eq_ok.mp h
  exact ((Derives.refl c).upsert hkey hpath (upsert_ok (mapError_eq_ok.mp hm))).site hm'

/-! ## What a request that succeeds has checked and done -/

/-- A bucket is inserted under its name. -/
theorem createBucket_ok {name : String} (h : ObjectServices.createBucket c name = .ok c') :
    Catalog.createBucket c { name := name } = .ok c' := by
  rw [ObjectServices.createBucket] at h
  obtain ⟨_, -, h⟩ := bind_eq_ok.mp h
  exact mapError_eq_ok.mp h

/-- An upload has checked its key before its callback writes the row. -/
theorem upload_ok {input : UploadObjectInput} {staged : StagedBlob} {now : Time}
    (h : upload c input staged now = .ok c') :
    validateUserObjectKey input.objectKey = .ok () ∧ ∃ visibility released,
      uploadMetadata (stagedObject input.bucketName input.objectKey input.originalFilename
        input.contentType visibility staged) input.allowOverwrite now c = .ok (c', released) := by
  rw [upload] at h
  obtain ⟨_, -, h⟩ := bind_eq_ok.mp h
  obtain ⟨_, hvalid, h⟩ := bind_eq_ok.mp h
  obtain ⟨visibility, -, h⟩ := bind_eq_ok.mp h
  obtain ⟨_, -, h⟩ := bind_eq_ok.mp h
  obtain ⟨_, -, h⟩ := bind_eq_ok.mp h
  obtain ⟨⟨m, released⟩, hm, h⟩ := bind_eq_ok.mp h
  cases pure_eq_ok.mp h
  exact ⟨hvalid, visibility, released, hm⟩

/-- A batch upload has prepared its items before its callback writes the rows. -/
theorem uploadBatch_ok {input : UploadObjectBatchInput} {stagedBlobs : List StagedBlob} {now : Time}
    (h : uploadBatch c input stagedBlobs now = .ok c') :
    ∃ visibility preparedItems released, prepareItems input.pfx [] input.items = .ok preparedItems
      ∧ uploadBatchMetadata input.bucketName
        (objectsToSave input.bucketName visibility preparedItems stagedBlobs) input.allowOverwrite
        now c = .ok (c', released) := by
  rw [uploadBatch] at h
  obtain ⟨_, -, h⟩ := bind_eq_ok.mp h
  obtain ⟨_, -, h⟩ := bind_eq_ok.mp h
  obtain ⟨_, -, h⟩ := bind_eq_ok.mp h
  obtain ⟨_, -, h⟩ := bind_eq_ok.mp h
  obtain ⟨visibility, -, h⟩ := bind_eq_ok.mp h
  obtain ⟨_, -, h⟩ := bind_eq_ok.mp h
  obtain ⟨preparedItems, hprepared, h⟩ := bind_eq_ok.mp h
  obtain ⟨_, -, h⟩ := bind_eq_ok.mp h
  obtain ⟨⟨m, released⟩, hm, h⟩ := bind_eq_ok.mp h
  cases pure_eq_ok.mp h
  exact ⟨visibility, preparedItems, released, hprepared, hm⟩

/-- A new folder has its two parts checked before the marker is written. -/
theorem createFolder_ok {input : CreateFolderInput} {staged : StagedBlob} {now : Time}
    (h : createFolder c input staged now = .ok c') :
    validateFolderPrefix input.pfx = .ok () ∧ validateFolderName input.name = .ok ()
      ∧ ∃ released, createInternalMetadata (stagedObject input.bucketName (createFolderKey input)
        folderMarkerFilename "application/x-directory" .visibilityPrivate staged) now c
        = .ok (c', released) := by
  rw [createFolder] at h
  obtain ⟨_, -, h⟩ := bind_eq_ok.mp h
  obtain ⟨_, hpfx, h⟩ := bind_eq_ok.mp h
  obtain ⟨_, hname, h⟩ := bind_eq_ok.mp h
  obtain ⟨_, -, h⟩ := bind_eq_ok.mp h
  obtain ⟨_, -, h⟩ := bind_eq_ok.mp h
  obtain ⟨_, -, h⟩ := bind_eq_ok.mp h
  obtain ⟨⟨m, released⟩, hm, h⟩ := bind_eq_ok.mp h
  cases pure_eq_ok.mp h
  exact ⟨hpfx, hname, released, hm⟩

/-- A site is published with the items of its manifest. -/
theorem publishSite_ok {input : PublishSiteInput} {items : List UploadObjectBatchItemInput}
    {stagedBlobs : List StagedBlob} {now : Time}
    (h : publishSite c input items stagedBlobs now = .ok c') :
    ∃ parentPrefix preparedItems released, prepareItems parentPrefix [] items = .ok preparedItems
      ∧ publishSiteMetadata input.bucketName
        (objectsToSave input.bucketName .visibilityPublic preparedItems stagedBlobs) input.site
        input.domains now c = .ok (c', released) := by
  rw [publishSite] at h
  obtain ⟨_, -, h⟩ := bind_eq_ok.mp h
  obtain ⟨_, -, h⟩ := bind_eq_ok.mp h
  obtain ⟨_, -, h⟩ := bind_eq_ok.mp h
  obtain ⟨parentPrefix, -, h⟩ := bind_eq_ok.mp h
  obtain ⟨_, -, h⟩ := bind_eq_ok.mp h
  obtain ⟨_, -, h⟩ := bind_eq_ok.mp h
  obtain ⟨_, -, h⟩ := bind_eq_ok.mp h
  obtain ⟨preparedItems, hprepared, h⟩ := bind_eq_ok.mp h
  obtain ⟨⟨m, released⟩, hm, h⟩ := bind_eq_ok.mp h
  cases pure_eq_ok.mp h
  exact ⟨parentPrefix, preparedItems, released, hprepared, mapError_eq_ok.mp hm⟩

/-- A file is published under its normalized prefix and name. -/
theorem publishFile_ok {input : PublishSiteInput} {filename contentType : String}
    {staged : StagedBlob} {now : Time}
    (h : publishFile c input filename contentType staged now = .ok c') :
    ∃ parentPrefix fileName released,
      normalizePublishParentPrefix input.parentPrefix = .ok parentPrefix
      ∧ normalizePublishFileName filename = .ok fileName
      ∧ publishSiteFileMetadata (stagedObject input.bucketName (parentPrefix ++ fileName) filename
        contentType .visibilityPublic staged) input.site input.domains now c
        = .ok (c', released) := by
  rw [publishFile] at h
  obtain ⟨_, -, h⟩ := bind_eq_ok.mp h
  obtain ⟨parentPrefix, hprefix, h⟩ := bind_eq_ok.mp h
  obtain ⟨fileName, hname, h⟩ := bind_eq_ok.mp h
  obtain ⟨_, -, h⟩ := bind_eq_ok.mp h
  obtain ⟨_, -, h⟩ := bind_eq_ok.mp h
  obtain ⟨⟨m, released⟩, hm, h⟩ := bind_eq_ok.mp h
  cases pure_eq_ok.mp h
  exact ⟨parentPrefix, fileName, released, hprefix, hname, mapError_eq_ok.mp hm⟩

/-- An object is published by showing it and adding the site. -/
theorem publishObject_ok {input : PublishSiteInput} {objectKey : String} {now : Time}
    (h : publishObject c input objectKey now = .ok c') :
    ∃ m, Catalog.updateVisibility c input.bucketName objectKey .visibilityPublic now = .ok m
      ∧ createSite m input.site input.domains now = .ok c' := by
  rw [publishObject] at h
  obtain ⟨_, -, h⟩ := bind_eq_ok.mp h
  obtain ⟨_, -, h⟩ := bind_eq_ok.mp h
  obtain ⟨_, -, h⟩ := bind_eq_ok.mp h
  obtain ⟨_, -, h⟩ := bind_eq_ok.mp h
  obtain ⟨m, hm, h⟩ := bind_eq_ok.mp (mapError_eq_ok.mp h)
  exact ⟨m, mapError_eq_ok.mp hm, h⟩

/-- A change of visibility is one update. -/
theorem updateVisibility_ok {bucketName objectKey visibilityValue : String} {now : Time}
    (h : ObjectServices.updateVisibility c bucketName objectKey visibilityValue now = .ok c') :
    ∃ visibility, Catalog.updateVisibility c bucketName objectKey visibility now = .ok c' := by
  rw [ObjectServices.updateVisibility] at h
  obtain ⟨_, -, h⟩ := bind_eq_ok.mp h
  obtain ⟨_, -, h⟩ := bind_eq_ok.mp h
  obtain ⟨visibility, -, h⟩ := bind_eq_ok.mp h
  exact ⟨visibility, mapError_eq_ok.mp h⟩

/-- The object that is deleted moves to the recycle bin. -/
theorem delete_ok {bucketName objectKey group : String} {deletedAt : Time}
    (h : delete c bucketName objectKey deletedAt group = .ok c') :
    deleteObject c bucketName objectKey deletedAt group = .ok c' := by
  rw [delete] at h
  obtain ⟨_, -, h⟩ := bind_eq_ok.mp h
  obtain ⟨_, -, h⟩ := bind_eq_ok.mp h
  exact h

/-- A bucket is deleted with everything in it. -/
theorem deleteBucket_ok {name : String} (h : deleteBucket c name = .ok c') :
    ∃ released, deleteBucketMetadata name c = .ok (c', released) := by
  rw [deleteBucket] at h
  obtain ⟨_, -, h⟩ := bind_eq_ok.mp h
  obtain ⟨⟨m, released⟩, hm, h⟩ := bind_eq_ok.mp h
  cases pure_eq_ok.mp h
  exact ⟨released, mapError_eq_ok.mp hm⟩

/-- **What a request writes.** -/
theorem request_derives {request : Request} (h : request.run c = .ok c') :
    Derives c c' (Writes request) (Publishes request) := by
  cases request with
  | createBucket name =>
      have h := createBucket_ok h
      rw [Catalog.createBucket] at h
      split at h
      · cases h
        exact .of_subset (fun _ ho => ho) (fun _ hr => hr) rfl
      · cases h
  -- the uploads: what was checked of the key is what `Writes` asks for
  | upload input staged now =>
      obtain ⟨hvalid, visibility, released, hm⟩ := upload_ok h
      have hkey : Writes (.upload input staged now) input.objectKey := ⟨rfl, hvalid⟩
      have hpath : Publishes (.upload input staged now) staged.storagePath :=
        ⟨staged, List.mem_cons_self, rfl⟩
      exact derives_upload hkey hpath hm
  | uploadBatch input stagedBlobs now =>
      obtain ⟨visibility, preparedItems, released, hprepared, hm⟩ := uploadBatch_ok h
      have hrows := objectsToSave_rows hprepared input.bucketName visibility stagedBlobs
      exact derives_uploadBatch (fun o ho => (hrows o ho).1) (fun o ho => (hrows o ho).2) hm
  | createFolder input staged now =>
      obtain ⟨hpfx, hname, released, hm⟩ := createFolder_ok h
      have hkey : Writes (.createFolder input staged now) (createFolderKey input) :=
        ⟨rfl, hpfx, hname⟩
      have hpath : Publishes (.createFolder input staged now) staged.storagePath :=
        ⟨staged, List.mem_cons_self, rfl⟩
      exact derives_createInternal hkey hpath hm
  -- the site publications: the rows of the objects, then those of the site
  | publishSite input items stagedBlobs now =>
      obtain ⟨parentPrefix, preparedItems, released, hprepared, hm⟩ := publishSite_ok h
      have hrows := objectsToSave_rows hprepared input.bucketName .visibilityPublic stagedBlobs
      exact derives_publishSite (fun o ho => (hrows o ho).1) (fun o ho => (hrows o ho).2) hm
  | publishFile input filename contentType staged now =>
      obtain ⟨parentPrefix, fileName, released, hprefix, hname, hm⟩ := publishFile_ok h
      have hkey : Writes (.publishFile input filename contentType staged now)
          (parentPrefix ++ fileName) := ⟨parentPrefix, fileName, hprefix, hname, rfl⟩
      have hpath : Publishes (.publishFile input filename contentType staged now)
          staged.storagePath := ⟨staged, List.mem_cons_self, rfl⟩
      exact derives_publishSiteFile hkey hpath hm
  | publishObject input objectKey now =>
      obtain ⟨m, hm, hsite⟩ := publishObject_ok h
      exact ((Derives.refl c).visibility hm).site hsite
  -- no request below writes a key or a file
  | updateVisibility bucketName objectKey visibilityValue now =>
      obtain ⟨visibility, h⟩ := updateVisibility_ok h
      exact (Derives.refl c).visibility h
  | delete bucketName objectKey deletedAt group =>
      obtain ⟨object, hmem, -, hmoved⟩ := deleteObject_ok (delete_ok h)
      exact derives_movedOne hmoved hmem
  | deleteFolder bucketName folderPath isRecursive deletedAt group => exact derives_deleteFolder h
  | restore itemID updatedAt => exact derives_restoreObject h
  | purge itemID =>
      obtain ⟨⟨m, released⟩, hm, rfl⟩ := map_eq_ok.mp h
      exact derives_purge hm
  | deleteBucket name =>
      obtain ⟨released, hm⟩ := deleteBucket_ok h
      exact derives_deleteBucket hm

/-! ## Two invariants of the catalog -/

/-- Row ids are below the counter, every object row names a file, and so does every
    recycle row that is not a synthetic marker. -/
structure CatalogOk (c : Tables k) : Prop where
  ids : ∀ o ∈ c.objects.rows, o.id < c.nextObjectID
  files : ∀ o ∈ c.objects.rows, o.storagePath ≠ ""
  recycled : ∀ r ∈ c.recycleBin.rows,
    shouldSkipRecycleBinRestoreItem r = false → r.storagePath ≠ ""

/-- Ids stay below their counter and files keep their paths. -/
theorem CatalogOk.derives (h : CatalogOk c) (hd : Derives c c' K P) (hP : ∀ p, P p → p ≠ "") :
    CatalogOk c' := by
  refine ⟨fun o ho => ?_, fun o ho => ?_, fun r hr hskip => ?_⟩
  · rcases hd.objects o ho with ⟨a, ha, hid, -⟩ | ⟨-, hhigh, -⟩
    · rw [hid]
      exact Nat.lt_of_lt_of_le (h.ids a ha) hd.nextObjectID
    · exact hhigh
  · rcases hd.objects o ho with ⟨a, ha, -, -, -, hpath⟩ | ⟨-, -, hnew⟩
    · rcases hpath with hpath | hpath
      · exact hpath ▸ h.files a ha
      · exact hP _ hpath
    · rcases hnew with ⟨-, hpath⟩ | ⟨r, hr, hskip, -, hpath⟩
      · exact hP _ hpath
      · rcases hpath with hpath | hpath
        · exact hpath ▸ h.recycled r hr hskip
        · exact hP _ hpath
  · rcases hd.recycled r hr with hr | ⟨o, ho, -, hpath⟩ | hskip'
    · exact h.recycled r hr hskip
    · exact hpath ▸ h.files o ho
    · exact absurd (hskip.symm.trans hskip') Bool.false_ne_true

theorem catalogOk_of_reachable (h : StepSystem.Reachable (requestSystem k) c) : CatalogOk c := by
  refine StepSystem.Reachable.invariant (I := CatalogOk) ?_ ?_ h
  · rintro c rfl
    exact ⟨nofun, nofun, nofun⟩
  · rintro c request c' - hok ⟨hstaged, hrun | rfl⟩
    · refine hok.derives (request_derives hrun) ?_
      rintro path ⟨staged, hmem, rfl⟩
      exact hstaged staged hmem
    · exact hok

end RequestRows
