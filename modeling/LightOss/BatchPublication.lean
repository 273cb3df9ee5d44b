import LightOss.PublishLifecycle

/-! # Batch publication — every activated blob has its row

    A manifest is checked for duplicate keys byte by byte, then its rows are written
    one after another under the unique key of the object table, which compares by
    the collation.  Two keys the collation identifies leave one row, and the file of
    the earlier one is active without a row that names it.  The object batch upload
    reads its rows back and counts them; the site publication does not.

    `Upserted` says what writing the entries one after another leaves, and
    `Upserted.snoc` adds one more.  With distinct keys every file has one row
    (`Upserted.one_row`), so its blob stays active (`published_row`); otherwise only the
    file of the last entry for a key has one (`Upserted.last_of_row`).
    `eachReferenced_iff` puts the two together. -/

namespace BatchPublication

open KeyedTable Fallible LedgerRows BlobRepository LedgerSpecs LedgerMoves LedgerInvariant
open Catalog Validation MetadataServices CatalogSpecs MetadataReferences StorageAudit
open PublishLifecycle

/-! ## The manifest -/

/-- One entry of a manifest. -/
structure UploadObjectBatchItemInput where
  relativePath : String
  originalFilename : String
  contentType : String
  deriving DecidableEq

/-- An entry with the key it is stored under. -/
structure PreparedBatchUploadItem where
  item : UploadObjectBatchItemInput
  objectKey : String
  deriving DecidableEq

/-- The error of the manifest checks. -/
def invalidBatchManifest (message : String) : Err := .app 400 "invalid_batch_manifest" message

/-- Other errors get the same code and keep their message. -/
def invalidBatchManifestError (err : Err) : Err :=
  match err with
  | .app _ _ message | .wrapped _ _ message _ =>
      if trimSpace message = "" then invalidBatchManifest "manifest entry is invalid"
      else invalidBatchManifest (trimSpace message)
  | _ => invalidBatchManifest "internal server error"

/-- The loop of `UploadBatch` and of `SitePublishService.Publish` over the manifest. -/
def prepareItems (pfx : String) (seenObjectKeys : List String) :
    List UploadObjectBatchItemInput → Except Err (List PreparedBatchUploadItem)
  | [] => .ok []
  | item :: rest => do
      (validateUploadRelativePath item.relativePath).mapError invalidBatchManifestError
      let objectKey := pfx ++ item.relativePath
      (validateUserObjectKey objectKey).mapError invalidBatchManifestError
      ensure (objectKey ∉ seenObjectKeys)
        (invalidBatchManifest "manifest contains duplicate object keys")
      let prepared ← prepareItems pfx (objectKey :: seenObjectKeys) rest
      return { item := item, objectKey := objectKey } :: prepared

/-- `objectsToSave`, for the sanitized names and normalized types of the items. -/
def objectsToSave (bucketName : String) (visibility : Visibility)
    (preparedItems : List PreparedBatchUploadItem) (stagedBlobs : List StagedBlob) : List Object :=
  (preparedItems.zip stagedBlobs).map fun (prepared, staged) =>
    { bucketName := bucketName
      objectKey := prepared.objectKey
      originalFilename := prepared.item.originalFilename
      storagePath := staged.storagePath
      size := int64 staged.size
      contentType := prepared.item.contentType
      etag := staged.etag
      visibility := visibility }

/-- An accepted manifest has no two equal keys. -/
theorem prepareItems_ok {pfx : String} : ∀ (items : List UploadObjectBatchItemInput)
    (seen : List String) {prepared : List PreparedBatchUploadItem},
    prepareItems pfx seen items = .ok prepared →
      (prepared.map (·.objectKey)).Nodup ∧ ∀ p ∈ prepared, p.objectKey ∉ seen := by
  intro items
  induction items with
  | nil =>
      intro seen prepared h
      cases h
      exact ⟨List.nodup_nil, nofun⟩
  | cons item rest ih =>
      intro seen prepared h
      rw [prepareItems] at h
      obtain ⟨_, -, h⟩ := bind_eq_ok.mp h
      obtain ⟨_, -, h⟩ := bind_eq_ok.mp h
      obtain ⟨_, hnew, h⟩ := bind_eq_ok.mp h
      obtain ⟨tail, htail, h⟩ := bind_eq_ok.mp h
      cases pure_eq_ok.mp h
      obtain ⟨hnd, hunseen⟩ := ih _ htail
      refine ⟨List.nodup_cons.mpr ⟨fun hmem => ?_, hnd⟩, fun p hp => ?_⟩
      · obtain ⟨p, hp, hkey⟩ := List.mem_map.mp hmem
        exact hunseen p hp (hkey ▸ List.mem_cons_self)
      · rcases List.mem_cons.mp hp with rfl | hp
        · exact ensure_eq_ok.mp hnew
        · exact fun hmem => hunseen p hp (List.mem_cons_of_mem _ hmem)

/-! ## The rows a manifest leaves -/

variable {k : Collation} {c m m' : Tables k} {bucketName : String}

/-- The row `r` shows the content of `o`. -/
structure SameContent (o r : Object) : Prop where
  storagePath : r.storagePath = o.storagePath
  size : r.size = o.size
  contentType : r.contentType = o.contentType
  etag : r.etag = o.etag

/-- The last of `xs` whose key the collation takes for `key`. -/
def lastFor (k : Collation) (xs : List Object) (key : String) : Option Object :=
  xs.reverse.find? fun x => k.eq x.objectKey key

theorem lastFor_append (xs : List Object) (o : Object) (key : String) :
    lastFor k (xs ++ [o]) key = if k.eq o.objectKey key then some o else lastFor k xs key := by
  rw [lastFor, List.reverse_append, List.reverse_singleton, List.singleton_append,
    List.find?_cons, lastFor]
  cases k.eq o.objectKey key <;> rfl

/-- The first row counts when no later one has the key. -/
theorem lastFor_cons (x : Object) (xs : List Object) (key : String) :
    lastFor k (x :: xs) key
      = (lastFor k xs key).or (if k.eq x.objectKey key then some x else none) := by
  rw [lastFor, List.reverse_cons, List.find?_append, lastFor, List.find?_singleton]

/-- What is found is in the list and has the key. -/
theorem lastFor_some {xs : List Object} {key : String} {x : Object}
    (h : lastFor k xs key = some x) : x ∈ xs ∧ k.eq x.objectKey key = true := by
  have hkey := List.find?_some h
  exact ⟨List.mem_reverse.mp (List.mem_of_find?_eq_some h), hkey⟩

theorem lastFor_isSome {xs : List Object} {key : String} {x : Object} (hx : x ∈ xs)
    (hkey : k.eq x.objectKey key = true) : ∃ y, lastFor k xs key = some y := by
  cases hf : lastFor k xs key with
  | some y => exact ⟨y, rfl⟩
  | none => exact absurd hkey (List.find?_eq_none.mp hf x (List.mem_reverse.mpr hx))

/-- Keys that the database takes for equal have the same last row. -/
theorem lastFor_congr {key key' : String} (h : k.eq key key' = true) (xs : List Object) :
    lastFor k xs key = lastFor k xs key' := by
  have hsame : (fun x : Object => k.eq x.objectKey key) = fun x => k.eq x.objectKey key' := by
    funext x
    rw [Collation.eq_comm, Collation.eq_congr h, Collation.eq_comm]
  rw [lastFor, lastFor, hsame]

/-- No two keys of the manifest are one key to the database. -/
def KeysDistinct (k : Collation) (keys : List String) : Prop :=
  keys.Pairwise fun a b => k.eq a b = false

instance (k : Collation) (keys : List String) : Decidable (KeysDistinct k keys) :=
  inferInstanceAs (Decidable (keys.Pairwise fun a b => k.eq a b = false))

/-- Each entry is the last one for its own key exactly when the keys are distinct. -/
theorem lastFor_self_iff {objects : List Object} (hnd : objects.Nodup) :
    (∀ x ∈ objects, lastFor k objects x.objectKey = some x)
      ↔ KeysDistinct k (objects.map (·.objectKey)) := by
  induction objects with
  | nil => exact ⟨fun _ => .nil, fun _ => nofun⟩
  | cons x rest ih =>
      obtain ⟨hx, hrest⟩ := List.nodup_cons.mp hnd
      have htail : ∀ y ∈ rest, lastFor k (x :: rest) y.objectKey = lastFor k rest y.objectKey := by
        intro y hy
        obtain ⟨z, hz⟩ := lastFor_isSome (k := k) hy (Collation.eq_refl y.objectKey)
        rw [lastFor_cons, hz]
        rfl
      have htail : (∀ y ∈ rest, lastFor k (x :: rest) y.objectKey = some y)
          ↔ KeysDistinct k (rest.map (·.objectKey)) := by
        rw [← ih hrest]
        exact forall₂_congr fun y hy => by rw [htail y hy]
      rw [List.forall_mem_cons, htail, KeysDistinct, KeysDistinct, List.map_cons,
        List.pairwise_cons]
      refine and_congr_left fun _ => ?_
      constructor
      · intro hself key hkey
        obtain ⟨y, hy, rfl⟩ := List.mem_map.mp hkey
        by_contra heq
        -- a later entry with the same key would be the last one instead of `x`
        obtain ⟨z, hz⟩ := lastFor_isSome (k := k) hy
          ((Collation.eq_comm _ _).trans (Bool.not_eq_false _ ▸ heq))
        rw [lastFor_cons, hz, Option.some_or] at hself
        exact hx (Option.some.inj hself ▸ (lastFor_some hz).1)
      · intro hfree
        have hnone : lastFor k rest x.objectKey = none := by
          refine List.find?_eq_none.mpr fun y hy heq => ?_
          have hy := hfree _ (List.mem_map_of_mem (List.mem_reverse.mp hy))
          rw [Collation.eq_comm, hy] at heq
          exact Bool.false_ne_true heq
        rw [lastFor_cons, hnone, Option.none_or, if_pos (Collation.eq_refl _)]

/-- What writing the entries `xs` one after another leaves of the object table `c`. -/
structure Upserted (c m : Tables k) (bucketName : String) (xs : List Object) : Prop where
  rows : ∀ r ∈ m.objects.rows,
    (r ∈ c.objects.rows
        ∧ (k.eq r.bucketName bucketName = true → lastFor k xs r.objectKey = none))
      ∨ (k.eq r.bucketName bucketName = true
        ∧ ∃ x, lastFor k xs r.objectKey = some x ∧ SameContent x r)
  found : ∀ x ∈ xs, ∃ r ∈ m.objects.rows, sameKey k bucketName x.objectKey r = true
  recycleBin : m.recycleBin = c.recycleBin

theorem Upserted.nil (c : Tables k) (bucketName : String) : Upserted c c bucketName [] where
  rows := fun _ hr => Or.inl ⟨hr, fun _ => rfl⟩
  found := nofun
  recycleBin := rfl

/-- One entry more behind a list that was written. -/
theorem Upserted.snoc {xs : List Object} {object : Object} {now : Time}
    (h : Upserted c m bucketName xs) (hbucket : object.bucketName = bucketName)
    (hm : upsertRow now m object = .ok m') : Upserted c m' bucketName (xs ++ [object]) := by
  subst hbucket
  obtain ⟨honly, hcases⟩ := upsertRow_ok hm
  have hself : ∀ r : Object, k.eq r.bucketName object.bucketName = true →
      sameKey k object.bucketName object.objectKey r = k.eq object.objectKey r.objectKey := by
    intro r hr
    rw [sameKey, hr, Bool.true_and, Collation.eq_comm]
  -- a row without the key of the new entry is described as before
  have hother : ∀ r ∈ m.objects.rows, sameKey k object.bucketName object.objectKey r = false →
      (r ∈ c.objects.rows
          ∧ (k.eq r.bucketName object.bucketName = true →
            lastFor k (xs ++ [object]) r.objectKey = none))
        ∨ (k.eq r.bucketName object.bucketName = true
          ∧ ∃ x, lastFor k (xs ++ [object]) r.objectKey = some x ∧ SameContent x r) := by
    intro r hr hne
    rcases h.rows r hr with ⟨hold, hnone⟩ | ⟨hin, x, hlast, hcontent⟩
    · refine Or.inl ⟨hold, fun hin => ?_⟩
      rw [hself r hin] at hne
      rw [lastFor_append, hne]
      exact hnone hin
    · rw [hself r hin] at hne
      refine Or.inr ⟨hin, x, ?_, hcontent⟩
      rw [lastFor_append, hne]
      exact hlast
  have hlast : ∀ key, k.eq object.objectKey key = true →
      lastFor k (xs ++ [object]) key = some object := fun key hkey => by
    rw [lastFor_append, hkey]
    rfl
  rcases hcases with ⟨hsome, hrows⟩ | ⟨hnone, -, hrows⟩
  · -- the key is there: its row is rewritten in place
    have hkey : ∀ r : Object, (upserted k now object r).bucketName = r.bucketName
        ∧ (upserted k now object r).objectKey = r.objectKey := by
      intro r
      rw [upserted]
      split
      · exact ⟨rfl, rfl⟩
      · exact ⟨rfl, rfl⟩
    have hsame : ∀ key r, sameKey k object.bucketName key (upserted k now object r)
        = sameKey k object.bucketName key r := by
      intro key r
      rw [sameKey, sameKey, (hkey r).1, (hkey r).2]
    refine ⟨fun r' hr' => ?_, fun x hx => ?_, honly.recycleBin.trans h.recycleBin⟩
    · obtain ⟨r, hr, rfl⟩ := List.mem_map.mp (hrows ▸ hr')
      cases hmatch : sameKey k object.bucketName object.objectKey r with
      | false =>
          rw [upserted, hmatch]
          exact hother r hr hmatch
      | true =>
          have hin := (Bool.and_eq_true .. ▸ hmatch).1
          rw [hself r hin] at hmatch
          refine Or.inr ⟨(hkey r).1 ▸ hin, object, (hkey r).2 ▸ hlast _ hmatch, ?_⟩
          rw [upserted, hself r hin, hmatch]
          exact ⟨rfl, rfl, rfl, rfl⟩
    · rcases List.mem_append.mp hx with hx | hx
      · obtain ⟨r, hr, hfound⟩ := h.found x hx
        exact ⟨_, hrows ▸ List.mem_map_of_mem hr, (hsame _ r).trans hfound⟩
      · obtain ⟨r, hr⟩ := List.exists_mem_of_ne_nil _ hsome
        obtain ⟨hr, hfound⟩ := Table.mem_select.mp hr
        rw [List.mem_singleton.mp hx]
        exact ⟨_, hrows ▸ List.mem_map_of_mem hr, (hsame _ r).trans hfound⟩
  · -- the key is new: its row is appended
    have hnew : sameKey k object.bucketName object.objectKey
        { object with id := m.nextObjectID, createdAt := now, updatedAt := now } = true := by
      rw [sameKey, Collation.eq_refl, Collation.eq_refl, Bool.and_self]
    refine ⟨fun r hr => ?_, fun x hx => ?_, honly.recycleBin.trans h.recycleBin⟩
    · rcases List.mem_append.mp (hrows ▸ hr) with hr | hr
      · refine hother r hr ?_
        exact Bool.not_eq_true _ ▸ List.filter_eq_nil_iff.mp hnone r hr
      · rw [List.mem_singleton.mp hr]
        exact Or.inr ⟨Collation.eq_refl _, object, hlast _ (Collation.eq_refl _),
          rfl, rfl, rfl, rfl⟩
    · rcases List.mem_append.mp hx with hx | hx
      · obtain ⟨r, hr, hfound⟩ := h.found x hx
        exact ⟨r, hrows ▸ List.mem_append_left _ hr, hfound⟩
      · rw [List.mem_singleton.mp hx]
        exact ⟨_, hrows ▸ List.mem_append_right _ List.mem_cons_self, hnew⟩

/-- The loop leaves, for each key, the file of the last row that has it. -/
theorem upserted_of_fold {objects : List Object} {now : Time}
    (hbucket : ∀ o ∈ objects, o.bucketName = bucketName)
    (h : objects.foldlM (upsertRow now) c = .ok m) : Upserted c m bucketName objects := by
  refine foldlM_along (P := fun xs m => Upserted c m bucketName xs) (Upserted.nil c bucketName)
    (fun xs o b b' hpre hb hb' => ?_) h
  exact hb.snoc (hbucket o (hpre.subset (List.mem_append_right _ List.mem_cons_self))) hb'

/-- A plain insert that succeeds is the upsert of a new key. -/
theorem upsertRow_of_create {object : Object} {now : Time} (h : create c object now = .ok m) :
    upsertRow now c object = .ok m := by
  have hnone : c.objects.rows.any (sameKey k object.bucketName object.objectKey) = false := by
    rw [create, insertObject] at h
    split at h
    · split at h
      · next objects hins =>
          refine List.any_eq_false.mpr fun o ho => ?_
          have hfree := (Table.insert?_eq_some.mp hins).1 o ho
          rw [Object.clash, Bool.or_eq_false_iff] at hfree
          exact Bool.not_eq_true _ ▸ hfree.2
      · cases h
    · cases h
  rw [upsertRow, hnone, if_neg Bool.false_ne_true]
  exact h

/-- Creates that all succeed met no row, so they are upserts. -/
theorem upserts_of_creates {now : Time} : ∀ (objects : List Object) {c m : Tables k},
    objects.foldlM (fun c object => create c object now) c = .ok m →
      objects.foldlM (upsertRow now) c = .ok m := by
  intro objects
  induction objects with
  | nil => exact fun h => h
  | cons object rest ih =>
      intro c m h
      rw [List.foldlM_cons] at h ⊢
      obtain ⟨n, hn, h⟩ := bind_eq_ok.mp h
      rw [upsertRow_of_create hn]
      exact ih h

/-! ## Reading the rows back -/

/-- What the staged files of a publication are to the tables before it: their paths
    are new. -/
structure FreshPaths (c : Tables k) (objects : List Object) : Prop where
  paths : (objects.map (·.storagePath)).Nodup
  active : ∀ x ∈ objects, ∀ o ∈ c.objects.rows, o.storagePath ≠ x.storagePath
  recycled : ∀ x ∈ objects, ∀ r ∈ c.recycleBin.rows, r.storagePath ≠ x.storagePath

/-- The rows of a batch have paths of their own. -/
theorem eq_of_path {objects : List Object} (hfresh : FreshPaths c objects) {x y : Object}
    (hx : x ∈ objects) (hy : y ∈ objects) (h : x.storagePath = y.storagePath) : x = y :=
  List.inj_on_of_nodup_map hfresh.paths hx hy h

/-- A row with the path of an entry is in the bucket, and the entry is the last one
    for its key. -/
theorem Upserted.of_path {objects : List Object} (h : Upserted c m bucketName objects)
    (hfresh : FreshPaths c objects) {x r : Object} (hx : x ∈ objects) (hr : r ∈ m.objects.rows)
    (hpath : r.storagePath = x.storagePath) :
    k.eq r.bucketName bucketName = true ∧ lastFor k objects r.objectKey = some x := by
  rcases h.rows r hr with ⟨hold, -⟩ | ⟨hin, y, hlast, hcontent⟩
  · exact absurd hpath (hfresh.active x hx r hold)
  · have hy := (lastFor_some hlast).1
    rw [← eq_of_path hfresh hy hx (hcontent.storagePath.symm.trans hpath)]
    exact ⟨hin, hlast⟩

/-- Every entry can be read back by its key; what is read shows the last entry for it. -/
theorem Upserted.readBack {objects : List Object} (h : Upserted c m bucketName objects)
    {x : Object} (hx : x ∈ objects) :
    ∃ row y, findActive m bucketName x.objectKey = .ok row
      ∧ lastFor k objects x.objectKey = some y ∧ SameContent y row := by
  obtain ⟨r, hr, hkey⟩ := h.found x hx
  have hkey' := Bool.and_eq_true .. ▸ hkey
  have hfind : findActive m bucketName x.objectKey = .ok r := by
    refine orElseThrow_eq_ok.mpr (m.objects.first?_of_mem hr hkey fun a ha => ?_)
    rw [sameKey, Bool.and_eq_true] at ha
    rw [Object.clash, sameKey, Collation.eq_trans ha.1 (Collation.eq_comm _ _ ▸ hkey'.1),
      Collation.eq_trans ha.2 (Collation.eq_comm _ _ ▸ hkey'.2)]
    simp
  obtain ⟨y, hy⟩ := lastFor_isSome (k := k) hx (Collation.eq_refl x.objectKey)
  have hsame : lastFor k objects r.objectKey = some y := by
    rw [← hy]
    exact lastFor_congr hkey'.2 objects
  rcases h.rows r hr with ⟨-, hnone⟩ | ⟨-, z, hlast, hcontent⟩
  · exact absurd (hsame.symm.trans (hnone hkey'.1)) nofun
  · cases hlast.symm.trans hsame
    exact ⟨r, _, hfind, hy, hcontent⟩

/-- The number of rows that name a file. -/
def referencesTo (c : Tables k) (path : String) : Nat :=
  c.objects.count (fun o => o.storagePath == path)
    + c.recycleBin.count (fun r => r.storagePath == path)

/-- With distinct keys every file has one row, and no row in the recycle bin. -/
theorem Upserted.one_row {objects : List Object} (h : Upserted c m bucketName objects)
    (hfresh : FreshPaths c objects) (hkeys : KeysDistinct k (objects.map (·.objectKey)))
    {x : Object} (hx : x ∈ objects) :
        m.objects.count (fun o => o.storagePath == x.storagePath) = 1 := by
  have hself := (lastFor_self_iff (List.Nodup.of_map _ hfresh.paths)).mpr hkeys x hx
  obtain ⟨row, y, hrow, hlast, hcontent⟩ := h.readBack hx
  cases hself.symm.trans hlast
  obtain ⟨hmem, hkey⟩ := findActive_ok hrow
  have hone : m.objects.select (fun o => o.storagePath == x.storagePath) = [row] := by
    refine List.perm_singleton.mp ((List.perm_ext_iff_of_nodup (m.objects.rows_nodup.filter _)
      (List.nodup_singleton _)).mpr fun r => ?_)
    rw [List.mem_filter, List.mem_singleton, beq_iff_eq]
    constructor
    · rintro ⟨hr, hpath⟩
      obtain ⟨hin, hlast⟩ := h.of_path hfresh hx hr hpath
      have hrkey : sameKey k bucketName x.objectKey r = true := by
        rw [sameKey, hin, Collation.eq_comm, (lastFor_some hlast).2]
        rfl
      exact eq_of_sameKey hr hmem hrkey hkey
    · rintro rfl
      exact ⟨hmem, hcontent.storagePath⟩
  rw [Table.count, hone]
  rfl

/-- The bin does not name the new files. -/
theorem Upserted.no_recycled {objects : List Object} (h : Upserted c m bucketName objects)
    (hfresh : FreshPaths c objects) {x : Object} (hx : x ∈ objects) :
    m.recycleBin.count (fun r => r.storagePath == x.storagePath) = 0 := by
  rw [Table.count, List.length_eq_zero_iff, h.recycleBin]
  refine List.filter_eq_nil_iff.mpr fun r hr heq => ?_
  exact hfresh.recycled x hx r hr (beq_iff_eq.mp heq)

/-- A file with a row is that of the last entry for its key. -/
theorem Upserted.last_of_row {objects : List Object} (h : Upserted c m bucketName objects)
    (hfresh : FreshPaths c objects) {x : Object} (hx : x ∈ objects)
    (hone : m.objects.count (fun o => o.storagePath == x.storagePath) = 1) :
    lastFor k objects x.objectKey = some x := by
  have hne : m.objects.select (fun o => o.storagePath == x.storagePath) ≠ [] := by
    intro hnil
    rw [Table.count, hnil] at hone
    exact nomatch hone
  obtain ⟨r, hr⟩ := List.exists_mem_of_ne_nil _ hne
  obtain ⟨hr, hpath⟩ := Table.mem_select.mp hr
  obtain ⟨-, hlast⟩ := h.of_path hfresh hx hr (beq_iff_eq.mp hpath)
  exact (lastFor_congr (lastFor_some hlast).2 objects).trans hlast

/-! ## The ledger side -/

section Ledger

variable {db db' : Database k} {stagedBlobs : List StagedBlob} {f : Callback k} {now : Time}

/-- After a publication the row of a handle is active with one reference, unless its own
    path was released. -/
theorem published_row {found : List StorageBlob} {n : Ledger} {released : List String}
    (hp : Published db stagedBlobs f found n released db') {s : StagedBlob} (hs : s ∈ stagedBlobs)
    (hrow : ∀ b ∈ db.ledger.blobs.rows, b.id = s.id → b.storagePath = s.storagePath)
    (hkept : s.storagePath ∉ released) :
    ∃ b ∈ db'.ledger.blobs.rows, b.id = s.id ∧ b.storagePath = s.storagePath
      ∧ b.status = .active ∧ b.refCount = 1 := by
  have hid : s.id ∈ found.map (·.id) := by
    rw [hp.activation.ids, activationsOf, List.map_map]
    exact List.mem_map_of_mem (f := fun staged : StagedBlob => staged.id) hs
  obtain ⟨b, hb, hbid⟩ := List.mem_map.mp hid
  obtain ⟨hmem, hst⟩ := hp.activation.staging b hb
  have hpath := hrow b hmem hbid
  have hact : activated (activationsOf stagedBlobs) b
      = { b with
          size := activatedSize (activationsOf stagedBlobs) b
          refCount := 1
          status := .active
          stagingPath := none
          stagingLeaseExpiresAt := none } := by
    refine if_pos ⟨?_, hst⟩
    rw [← hp.activation.ids]
    exact List.mem_map_of_mem hb
  have hmid : activated (activationsOf stagedBlobs) b ∈ n.blobs.rows := by
    rw [hp.activation.rewrites.rows]
    exact List.mem_map_of_mem hmem
  obtain ⟨n', jobs, hrewrites, henqueued, -, -⟩ := hp.released.moves
  -- what is released are paths from before, and this one is new
  have hzero : countStoragePaths released s.storagePath = 0 := by
    by_contra hne
    exact hkept (countStoragePaths_pos.mp (Nat.pos_of_ne_zero hne)).1
  have hsame : dereferenced released (activated (activationsOf stagedBlobs) b)
      = activated (activationsOf stagedBlobs) b := by
    refine if_pos ?_
    rw [hact]
    exact hpath ▸ hzero
  refine ⟨activated (activationsOf stagedBlobs) b, ?_, ?_⟩
  · rw [henqueued.blobs, hrewrites.rows, ← hsame]
    exact List.mem_map_of_mem hmid
  · rw [hact]
    exact ⟨hbid, hpath, rfl, rfl⟩

end Ledger

/-! ## The two services -/

section Services

variable {db db' : Database k} {preparedItems : List PreparedBatchUploadItem}
  {stagedBlobs : List StagedBlob} {now : Time} {visibility : Visibility}

/-- The staged files of a manifest: one for each item, under distinct new paths, and
    their ledger rows carry these paths. -/
structure StagedFor (db : Database k) (preparedItems : List PreparedBatchUploadItem)
    (stagedBlobs : List StagedBlob) : Prop where
  length : preparedItems.length = stagedBlobs.length
  paths : (stagedBlobs.map (·.storagePath)).Nodup
  active : ∀ s ∈ stagedBlobs, ∀ o ∈ db.catalog.objects.rows, o.storagePath ≠ s.storagePath
  recycled : ∀ s ∈ stagedBlobs, ∀ r ∈ db.catalog.recycleBin.rows, r.storagePath ≠ s.storagePath
  row : ∀ s ∈ stagedBlobs, ∀ b ∈ db.ledger.blobs.rows, b.id = s.id → b.storagePath = s.storagePath

/-- Every activated file has its row: one object names it, its count is the number of
    rows that name it, and every entry is found under its key with its own content. -/
structure EachReferenced (db' : Database k) (bucketName : String) (objects : List Object)
    (stagedBlobs : List StagedBlob) : Prop where
  referenced : ∀ s ∈ stagedBlobs,
    db'.catalog.objects.count (fun o => o.storagePath == s.storagePath) = 1
  counted : ∀ s ∈ stagedBlobs, ∃ b ∈ db'.ledger.blobs.rows, b.id = s.id
    ∧ b.storagePath = s.storagePath ∧ b.status = .active
    ∧ b.refCount = referencesTo db'.catalog b.storagePath
  readBack : ∀ o ∈ objects, ∃ row, findActive db'.catalog bucketName o.objectKey = .ok row
    ∧ SameContent o row

/-- The rows have the prepared keys, in their order. -/
theorem objectsToSave_keys (h : preparedItems.length = stagedBlobs.length) :
    (objectsToSave bucketName visibility preparedItems stagedBlobs).map (·.objectKey)
      = preparedItems.map (·.objectKey) := by
  have hfst : (objectsToSave bucketName visibility preparedItems stagedBlobs).map (·.objectKey)
      = ((preparedItems.zip stagedBlobs).map Prod.fst).map (·.objectKey) := by
    rw [objectsToSave, List.map_map, List.map_map]
    rfl
  rw [hfst, List.map_fst_zip h.le]

/-- The rows have the paths of the handles, in their order. -/
theorem objectsToSave_paths (h : preparedItems.length = stagedBlobs.length) :
    (objectsToSave bucketName visibility preparedItems stagedBlobs).map (·.storagePath)
      = stagedBlobs.map (·.storagePath) := by
  have hsnd : (objectsToSave bucketName visibility preparedItems stagedBlobs).map (·.storagePath)
      = ((preparedItems.zip stagedBlobs).map Prod.snd).map (·.storagePath) := by
    rw [objectsToSave, List.map_map, List.map_map]
    rfl
  rw [hsnd, List.map_snd_zip h.ge]

theorem objectsToSave_bucket {o : Object}
    (h : o ∈ objectsToSave bucketName visibility preparedItems stagedBlobs) :
    o.bucketName = bucketName := by
  obtain ⟨_, -, rfl⟩ := List.mem_map.mp h
  rfl

/-- Entries and staged files correspond by path. -/
theorem objectsToSave_of_staged (h : preparedItems.length = stagedBlobs.length) {s : StagedBlob}
    (hs : s ∈ stagedBlobs) : ∃ x ∈ objectsToSave bucketName visibility preparedItems stagedBlobs,
      x.storagePath = s.storagePath := by
  have hmem : s.storagePath
      ∈ (objectsToSave bucketName visibility preparedItems stagedBlobs).map (·.storagePath) := by
    rw [objectsToSave_paths h]
    exact List.mem_map_of_mem hs
  exact List.mem_map.mp hmem

theorem staged_of_objectsToSave (h : preparedItems.length = stagedBlobs.length) {x : Object}
    (hx : x ∈ objectsToSave bucketName visibility preparedItems stagedBlobs) :
    ∃ s ∈ stagedBlobs, s.storagePath = x.storagePath := by
  have hmem := List.mem_map_of_mem (f := fun o : Object => o.storagePath) hx
  rw [objectsToSave_paths h] at hmem
  exact List.mem_map.mp hmem

/-- The files of the rows are new to the catalog. -/
theorem StagedFor.fresh (h : StagedFor db preparedItems stagedBlobs) (bucketName : String)
    (visibility : Visibility) :
    FreshPaths db.catalog (objectsToSave bucketName visibility preparedItems stagedBlobs) where
  paths := objectsToSave_paths h.length ▸ h.paths
  active := by
    intro x hx o ho
    obtain ⟨s, hs, hpath⟩ := staged_of_objectsToSave h.length hx
    exact hpath ▸ h.active s hs o ho
  recycled := by
    intro x hx r hr
    obtain ⟨s, hs, hpath⟩ := staged_of_objectsToSave h.length hx
    exact hpath ▸ h.recycled s hs r hr

/-- The rows `findActiveObjectsInBatches` returns are rows of the table. -/
theorem mem_findActiveObjectsInBatches {c : Tables k} {keys : List String} {o : Object}
    (h : o ∈ findActiveObjectsInBatches c bucketName keys) :
    o ∈ c.objects.rows ∧ k.eq o.bucketName bucketName = true := by
  obtain ⟨batch, -, ho⟩ := List.mem_flatMap.mp h
  rw [findActiveByKeys_eq, Table.mem_select, keyIn, Bool.and_eq_true] at ho
  exact ⟨ho.1, ho.2.1⟩

/-- No staged path is among the released ones, which are those of rows from before. -/
theorem staged_not_released (h : StagedFor db preparedItems stagedBlobs) {keys : List String}
    {s : StagedBlob} (hs : s ∈ stagedBlobs) :
    s.storagePath ∉ storagePathsFromObjects
      (findActiveObjectsInBatches db.catalog bucketName keys) := by
  intro hmem
  obtain ⟨o, ho, hpath⟩ := List.mem_map.mp (List.mem_filter.mp hmem).1
  exact h.active s hs o (mem_findActiveObjectsInBatches ho).1 hpath

/-- **The two conditions are one.**  For a publication that wrote its entries, released
    only paths from before and committed. -/
theorem eachReferenced_iff {f : Callback k} {found : List StorageBlob} {n : Ledger}
    {keys : List String} (hstaged : StagedFor db preparedItems stagedBlobs)
    (hp : Published db stagedBlobs f found n
      (storagePathsFromObjects (findActiveObjectsInBatches db.catalog bucketName keys)) db')
    (hup : Upserted db.catalog db'.catalog bucketName
      (objectsToSave bucketName visibility preparedItems stagedBlobs)) :
    EachReferenced db' bucketName (objectsToSave bucketName visibility preparedItems stagedBlobs)
      stagedBlobs ↔ KeysDistinct k (preparedItems.map (·.objectKey)) := by
  have hfresh := hstaged.fresh bucketName visibility
  have hself := lastFor_self_iff (k := k) (List.Nodup.of_map _ hfresh.paths)
  rw [objectsToSave_keys hstaged.length] at hself
  constructor
  · intro heach
    refine hself.mp fun x hx => hup.last_of_row hfresh hx ?_
    obtain ⟨s, hs, hpath⟩ := staged_of_objectsToSave hstaged.length hx
    exact hpath ▸ heach.referenced s hs
  · intro hkeys
    have hkeys' : KeysDistinct k ((objectsToSave bucketName visibility preparedItems
        stagedBlobs).map (·.objectKey)) := by
      rwa [objectsToSave_keys hstaged.length]
    refine ⟨fun s hs => ?_, fun s hs => ?_, fun x hx => ?_⟩
    · obtain ⟨x, hx, hpath⟩ := objectsToSave_of_staged hstaged.length hs
      exact hpath ▸ hup.one_row hfresh hkeys' hx
    · obtain ⟨b, hb, hid, hpath, hst, hcount⟩ := published_row hp hs (hstaged.row s hs)
        (staged_not_released hstaged hs)
      obtain ⟨x, hx, hxpath⟩ := objectsToSave_of_staged hstaged.length hs
      refine ⟨b, hb, hid, hpath, hst, ?_⟩
      rw [hcount, referencesTo, hpath, ← hxpath, hup.one_row hfresh hkeys' hx,
        hup.no_recycled hfresh hx]
    · obtain ⟨row, y, hrow, hlast, hcontent⟩ := hup.readBack hx
      cases (hself.mpr hkeys x hx).symm.trans hlast
      exact ⟨row, hrow, hcontent⟩

/-! ### The callbacks -/

theorem upserted_of_batch {c m : Tables k} {objects : List Object}
    (hbucket : ∀ o ∈ objects, o.bucketName = bucketName)
    (h : upsertBatch c objects metadataWriteBatchSize now = .ok m) :
    Upserted c m bucketName objects := by
  rw [upsertBatch, foldlM_batches (by decide)] at h
  exact upserted_of_fold hbucket h

theorem upserted_of_createBatch {c m : Tables k} {objects : List Object}
    (hbucket : ∀ o ∈ objects, o.bucketName = bucketName)
    (h : createBatch c objects metadataWriteBatchSize now = .ok m) :
    Upserted c m bucketName objects := by
  rw [createBatch, foldlM_batches (by decide)] at h
  exact upserted_of_fold hbucket (upserts_of_creates objects h)

/-- What `Publish` writes, and what it reports as replaced. -/
theorem publishSiteMetadata_ok {c c' : Tables k} {objects : List Object} {site : Site}
    {domains released : List String} (hbucket : ∀ o ∈ objects, o.bucketName = bucketName)
    (h : publishSiteMetadata bucketName objects site domains now c = .ok (c', released)) :
    Upserted c c' bucketName objects ∧ released = storagePathsFromObjects
      (findActiveObjectsInBatches c bucketName (objects.map (·.objectKey))) := by
  rw [publishSiteMetadata] at h
  obtain ⟨m, hm, h⟩ := bind_eq_ok.mp h
  obtain ⟨m', hm', h⟩ := bind_eq_ok.mp h
  cases pure_eq_ok.mp h
  have hup := upserted_of_batch hbucket (mapError_eq_ok.mp hm)
  have hkept := createSite_ok hm'
  refine ⟨⟨fun r hr => hup.rows r (hkept.objects ▸ hr), fun x hx => ?_,
    hkept.recycleBin.trans hup.recycleBin⟩, rfl⟩
  obtain ⟨r, hr, hkey⟩ := hup.found x hx
  exact ⟨r, hkept.objects ▸ hr, hkey⟩

/-- The batch upload found a row for every key of the manifest, letter by letter. -/
theorem uploadBatchMetadata_ok {c c' : Tables k} {objects : List Object} {allowOverwrite : Bool}
    {released : List String} (hbucket : ∀ o ∈ objects, o.bucketName = bucketName)
    (h : uploadBatchMetadata bucketName objects allowOverwrite now c = .ok (c', released)) :
    Upserted c c' bucketName objects
      ∧ released = storagePathsFromObjects
        (findActiveObjectsInBatches c bucketName (objects.map (·.objectKey)))
      ∧ ∀ key ∈ objects.map (·.objectKey), ∃ r ∈ c'.objects.rows,
        k.eq r.bucketName bucketName = true ∧ r.objectKey = key := by
  rw [uploadBatchMetadata] at h
  obtain ⟨_, -, h⟩ := bind_eq_ok.mp h
  obtain ⟨m, hm, h⟩ := bind_eq_ok.mp h
  obtain ⟨_, hcount, h⟩ := bind_eq_ok.mp h
  cases pure_eq_ok.mp h
  refine ⟨?_, rfl, fun key hkey => ?_⟩
  · cases allowOverwrite with
    | true => exact upserted_of_batch hbucket (mapError_eq_ok.mp hm)
    | false => exact upserted_of_createBatch hbucket (mapError_eq_ok.mp hm)
  · have hfound := List.filterMap_length_eq_length.mp (ensure_eq_ok.mp hcount) key hkey
    obtain ⟨r, hr⟩ := Option.isSome_iff_exists.mp hfound
    have hrow := mem_findActiveObjectsInBatches
      (List.mem_reverse.mp (List.mem_of_find?_eq_some hr))
    have hsame := List.find?_some hr
    exact ⟨r, hrow.1, hrow.2, beq_iff_eq.mp hsame⟩

/-- A manifest whose keys differ letter by letter and all have their rows: the unique key
    keeps the collation from identifying any two. -/
theorem keysDistinct_of_rows {c : Tables k} {keys : List String} (hnd : keys.Nodup)
    (hrows : ∀ key ∈ keys, ∃ r ∈ c.objects.rows,
      k.eq r.bucketName bucketName = true ∧ r.objectKey = key) : KeysDistinct k keys := by
  refine hnd.imp_of_mem fun {a b} ha hb hne => ?_
  by_contra heq
  have heq := Bool.not_eq_false _ ▸ heq
  obtain ⟨r, hr, hrb, rfl⟩ := hrows a ha
  obtain ⟨s, hs, hsb, rfl⟩ := hrows b hb
  have hrkey : sameKey k bucketName s.objectKey r = true := by
    rw [sameKey, hrb, heq]
    rfl
  have hskey : sameKey k bucketName s.objectKey s = true := by
    rw [sameKey, hsb, Collation.eq_refl]
    rfl
  exact hne (congrArg Object.objectKey (eq_of_sameKey hr hs hrkey hskey))

/-- **Batch publication.**  After a batch upload that commits every activated file has its
    row.  After a site publication that commits this holds if and only if no two keys of
    the manifest are one key to the database. -/
theorem batch_publication {pfx : String} {items : List UploadObjectBatchItemInput}
    (hprepared : prepareItems pfx [] items = .ok preparedItems)
    (hstaged : StagedFor db preparedItems stagedBlobs) :
    (∀ visibility allowOverwrite db',
      publishTransaction db stagedBlobs (uploadBatchMetadata bucketName
        (objectsToSave bucketName visibility preparedItems stagedBlobs) allowOverwrite now) now
        = .ok db' →
      EachReferenced db' bucketName
        (objectsToSave bucketName visibility preparedItems stagedBlobs) stagedBlobs)
    ∧ (∀ site domains db',
      publishTransaction db stagedBlobs (publishSiteMetadata bucketName
        (objectsToSave bucketName .visibilityPublic preparedItems stagedBlobs) site domains now)
        now = .ok db' →
      (EachReferenced db' bucketName
          (objectsToSave bucketName .visibilityPublic preparedItems stagedBlobs) stagedBlobs
        ↔ KeysDistinct k (preparedItems.map (·.objectKey)))) := by
  have hnd := (prepareItems_ok items [] hprepared).1
  constructor
  · intro visibility allowOverwrite db' h
    obtain ⟨found, n, released, hp⟩ := publishTransaction_ok h
    obtain ⟨hup, rfl, hrows⟩ := uploadBatchMetadata_ok (fun o => objectsToSave_bucket) hp.metadata
    rw [objectsToSave_keys hstaged.length] at hrows
    exact (eachReferenced_iff hstaged hp hup).mpr (keysDistinct_of_rows hnd hrows)
  · intro site domains db' h
    obtain ⟨found, n, released, hp⟩ := publishTransaction_ok h
    obtain ⟨hup, rfl⟩ := publishSiteMetadata_ok (fun o => objectsToSave_bucket) hp.metadata
    exact eachReferenced_iff hstaged hp hup

end Services

/-! ## Two files of one site -/

/-- The files of two pages. -/
def pageBlobs : List StagedBlob :=
  [{ id := "b1", storagePath := "objects/b1", stagingPath := "staging/b1", size := 3 },
    { id := "b2", storagePath := "objects/b2", stagingPath := "staging/b2", size := 4 }]

/-- The database when both files are staged, under a collation without case. -/
def pagesStaged : Database Collation.asciiCaseInsensitive where
  catalog :=
    { buckets := ⟨[{ id := 1, name := "pages" }], List.pairwise_singleton _ _⟩
      nextBucketID := 2 }
  ledger :=
    { quota := { maxBytes := 1000, reservedBytes := 7 }
      blobs := ⟨pageBlobs.map fun s =>
        { id := s.id, storagePath := s.storagePath, stagingPath := some s.stagingPath
          size := s.size, status := .staging, stagingLeaseExpiresAt := some 60 }, by decide⟩
      jobs := Table.empty
      nextJobID := 1 }

/-- The entry of a page. -/
def pageItem (relativePath : String) : UploadObjectBatchItemInput :=
  { relativePath := relativePath, originalFilename := "page.txt", contentType := "text/plain" }

/-- The prepared item of a page at the top of the bucket. -/
def preparedPage (relativePath : String) : PreparedBatchUploadItem :=
  { item := pageItem relativePath, objectKey := relativePath }

/-- The site they make. -/
def pagesSite : Site :=
  { bucketName := "pages", rootPrefix := "web/", enabled := true, indexDocument := "a.txt"
    errorDocument := "", spaFallback := false }

/-- The files are staged for the pages, whatever they are called. -/
theorem pagesStaged_for (first second : String) :
    StagedFor pagesStaged [preparedPage first, preparedPage second] pageBlobs where
  length := rfl
  paths := by decide
  active := fun _ _ _ ho => nomatch ho
  recycled := fun _ _ _ hr => nomatch hr
  row := by decide

/-- Two keys that differ: both files have their rows. -/
theorem batch_publication_twoKeys :
    ∃ db', publishTransaction pagesStaged pageBlobs (publishSiteMetadata "pages"
        (objectsToSave "pages" .visibilityPublic
          [preparedPage "web/a.txt", preparedPage "web/b.txt"]
          pageBlobs) pagesSite ["pages.example.com"] 5) 5 = .ok db'
      ∧ EachReferenced db' "pages" (objectsToSave "pages" .visibilityPublic
        [preparedPage "web/a.txt", preparedPage "web/b.txt"] pageBlobs) pageBlobs := by
  obtain ⟨db', hpublish⟩ := exists_of_isOk (x := publishTransaction pagesStaged pageBlobs
    (publishSiteMetadata "pages" (objectsToSave "pages" .visibilityPublic
      [preparedPage "web/a.txt", preparedPage "web/b.txt"] pageBlobs) pagesSite
        ["pages.example.com"] 5) 5) (by decide)
  have hprepared : prepareItems "" [] [pageItem "web/a.txt", pageItem "web/b.txt"]
      = .ok [preparedPage "web/a.txt", preparedPage "web/b.txt"] := by rfl
  exact ⟨db', hpublish, ((batch_publication hprepared (pagesStaged_for _ _)).2 _ _ _ hpublish).mpr
    (by decide)⟩

/-- Two keys that differ in case: the site publication commits, and one file is active
    without a row. -/
theorem batch_publication_otherCase :
    prepareItems "" [] [pageItem "web/a.txt", pageItem "web/A.txt"]
        = .ok [preparedPage "web/a.txt", preparedPage "web/A.txt"]
      ∧ StagedFor pagesStaged [preparedPage "web/a.txt", preparedPage "web/A.txt"] pageBlobs
      ∧ ∃ db', publishTransaction pagesStaged pageBlobs (publishSiteMetadata "pages"
          (objectsToSave "pages" .visibilityPublic
            [preparedPage "web/a.txt", preparedPage "web/A.txt"] pageBlobs) pagesSite
          ["pages.example.com"] 5) 5 = .ok db'
        ∧ ¬ EachReferenced db' "pages" (objectsToSave "pages" .visibilityPublic
          [preparedPage "web/a.txt", preparedPage "web/A.txt"] pageBlobs) pageBlobs := by
  obtain ⟨db', hpublish⟩ := exists_of_isOk (x := publishTransaction pagesStaged pageBlobs
    (publishSiteMetadata "pages" (objectsToSave "pages" .visibilityPublic
      [preparedPage "web/a.txt", preparedPage "web/A.txt"] pageBlobs) pagesSite
        ["pages.example.com"] 5) 5) (by decide)
  refine ⟨rfl, pagesStaged_for _ _, db', hpublish, fun heach => ?_⟩
  obtain ⟨found, n, released, hp⟩ := publishTransaction_ok hpublish
  obtain ⟨hup, rfl⟩ := publishSiteMetadata_ok (fun o => objectsToSave_bucket) hp.metadata
  have hdistinct := (eachReferenced_iff (pagesStaged_for _ _) hp hup).mp heach
  exact absurd hdistinct (by decide)

end BatchPublication
