import LightOss.Addressable
import LightOss.ListedEntries
import LightOss.RecyclePages

/-! # Recycle runs — the recycle tables that requests leave behind

    A request leaves the recycle bin alone, brings in one delete group, or takes rows
    out.  What it brings in is one row or a folder with its marker; what it takes out
    with a marker is the whole group.  So the groups of every run are such as the
    paging of the recycle bin shows once.

    Requests other than the deletes, restore and purge leave the bin alone
    (`binKept_of_run`).  What a folder delete writes is one folder with its marker
    (`folderDelete_of_moved`), and the rows get their ids in one stretch, so a group
    stands together in the order of the listing. -/

namespace RecycleRuns

open KeyedTable Fallible LedgerRows Catalog CatalogSpecs Validation ObjectKeys MetadataServices
open BatchPublication ObjectServices RecycleMoves FolderScope RequestRows Addressable RecycleListing
open RecycleGroups RecyclePages ListedEntries

variable {k : Collation} {c m c' : Tables k}

/-! ## Requests that leave the recycle bin alone -/

/-- Neither the rows of the recycle bin nor their counter moved. -/
structure BinKept (c c' : Tables k) : Prop where
  recycleBin : c'.recycleBin = c.recycleBin
  nextRecycleID : c'.nextRecycleID = c.nextRecycleID

theorem BinKept.refl (c : Tables k) : BinKept c c := ⟨rfl, rfl⟩

theorem BinKept.trans (h : BinKept c m) (h' : BinKept m c') : BinKept c c' :=
  ⟨h'.recycleBin.trans h.recycleBin, h'.nextRecycleID.trans h.nextRecycleID⟩

theorem BinKept.of_objects (h : ObjectsOnly c c') : BinKept c c' := ⟨h.recycleBin, h.nextRecycleID⟩

/-- A loop whose every round leaves the bin alone. -/
theorem binKept_foldlM {α : Type} {f : Tables k → α → Except Err (Tables k)}
    (hf : ∀ m a m', f m a = .ok m' → BinKept m m') (items : List α) :
    ∀ {c c' : Tables k}, items.foldlM f c = .ok c' → BinKept c c' := by
  induction items with
  | nil =>
      intro c c' h
      exact pure_eq_ok.mp h ▸ .refl c
  | cons a rest ih =>
      intro c c' h
      rw [List.foldlM_cons] at h
      obtain ⟨m, hm, h⟩ := bind_eq_ok.mp h
      exact (hf c a m hm).trans (ih h)

theorem binKept_upsertRow {object : Object} {now : Time} (h : upsertRow now c object = .ok c') :
    BinKept c c' :=
  .of_objects (upsertRow_ok h).1

theorem binKept_create {object : Object} {now : Time} (h : create c object now = .ok c') :
    BinKept c c' :=
  binKept_upsertRow (upsertRow_of_create h)

theorem binKept_upsertBatch {objects : List Object} {now : Time}
    (h : upsertBatch c objects metadataWriteBatchSize now = .ok c') : BinKept c c' := by
  rw [upsertBatch, foldlM_batches (by decide)] at h
  exact binKept_foldlM (fun _ _ _ hm => binKept_upsertRow hm) objects h

theorem binKept_createBatch {objects : List Object} {now : Time}
    (h : createBatch c objects metadataWriteBatchSize now = .ok c') : BinKept c c' := by
  rw [createBatch, foldlM_batches (by decide)] at h
  exact binKept_foldlM (fun _ _ _ hm => binKept_create hm) objects h

/-- The rows of a site and of its domains. -/
theorem binKept_createSite {site : Site} {domains : List String} {now : Time}
    (h : createSite c site domains now = .ok c') : BinKept c c' := by
  have hstep : ∀ (siteID : Nat) (m : Tables k) (domain : String) (m' : Tables k),
      insertSiteDomain siteID now m domain = .ok m' → BinKept m m' := by
    intro siteID m domain m' hm
    rw [insertSiteDomain] at hm
    split at hm
    · cases hm
      exact ⟨rfl, rfl⟩
    · cases hm
  rw [createSite] at h
  split at h
  · split at h
    · rw [replaceDomains] at h
      have hkept := binKept_foldlM (hstep _) domains h
      exact ⟨hkept.recycleBin, hkept.nextRecycleID⟩
    · cases h
  · cases h

theorem binKept_visibility {bucketName objectKey : String} {visibility : Visibility} {now : Time}
    (h : Catalog.updateVisibility c bucketName objectKey visibility now = .ok c') :
        BinKept c c' := by
  rw [Catalog.updateVisibility] at h
  obtain ⟨_, -, h⟩ := bind_eq_ok.mp h
  cases pure_eq_ok.mp h
  exact ⟨rfl, rfl⟩

/-- The requests that work on delete groups. -/
def ActsOnBin : Request → Prop
  | .delete _ _ _ _ | .deleteFolder _ _ _ _ _ | .restore _ _ | .purge _ | .deleteBucket _ => True
  | _ => False

/-- A request that does not act on the bin leaves it alone. -/
theorem binKept_of_run {request : Request} (hacts : ¬ ActsOnBin request)
    (h : request.run c = .ok c') : BinKept c c' := by
  -- the callbacks of the first requests write objects and sites only
  cases request with
  | createBucket name =>
      have h := createBucket_ok h
      rw [Catalog.createBucket] at h
      split at h
      · cases h
        exact ⟨rfl, rfl⟩
      · cases h
  | upload input staged now =>
      obtain ⟨-, visibility, released, hm⟩ := upload_ok h
      rw [uploadMetadata] at hm
      split at hm
      · obtain ⟨_, -, hm⟩ := bind_eq_ok.mp hm
        obtain ⟨m', hm', hm⟩ := bind_eq_ok.mp hm
        cases pure_eq_ok.mp hm
        exact binKept_upsertRow (upsert_ok (mapError_eq_ok.mp hm'))
      · obtain ⟨m', hm', hm⟩ := bind_eq_ok.mp hm
        cases pure_eq_ok.mp hm
        exact binKept_create (mapError_eq_ok.mp hm')
  | uploadBatch input stagedBlobs now =>
      obtain ⟨visibility, preparedItems, released, -, hm⟩ := uploadBatch_ok h
      rw [uploadBatchMetadata] at hm
      obtain ⟨_, -, hm⟩ := bind_eq_ok.mp hm
      obtain ⟨m', hm', hm⟩ := bind_eq_ok.mp hm
      obtain ⟨_, -, hm⟩ := bind_eq_ok.mp hm
      cases pure_eq_ok.mp hm
      split at hm'
      · exact binKept_upsertBatch (mapError_eq_ok.mp hm')
      · exact binKept_createBatch (mapError_eq_ok.mp hm')
  | createFolder input staged now =>
      obtain ⟨-, -, released, hm⟩ := createFolder_ok h
      rw [createInternalMetadata] at hm
      obtain ⟨m', hm', hm⟩ := bind_eq_ok.mp hm
      cases pure_eq_ok.mp hm
      exact binKept_create (mapError_eq_ok.mp hm')
  | publishSite input items stagedBlobs now =>
      obtain ⟨parentPrefix, preparedItems, released, -, hm⟩ := publishSite_ok h
      rw [publishSiteMetadata] at hm
      obtain ⟨n, hn, hm⟩ := bind_eq_ok.mp hm
      obtain ⟨n', hn', hm⟩ := bind_eq_ok.mp hm
      cases pure_eq_ok.mp hm
      exact (binKept_upsertBatch (mapError_eq_ok.mp hn)).trans (binKept_createSite hn')
  | publishFile input filename contentType staged now =>
      obtain ⟨parentPrefix, fileName, released, -, -, hm⟩ := publishFile_ok h
      rw [publishSiteFileMetadata] at hm
      obtain ⟨_, -, hm⟩ := bind_eq_ok.mp hm
      obtain ⟨n, hn, hm⟩ := bind_eq_ok.mp hm
      obtain ⟨n', hn', hm⟩ := bind_eq_ok.mp hm
      cases pure_eq_ok.mp hm
      exact (binKept_upsertRow (upsert_ok (mapError_eq_ok.mp hn))).trans (binKept_createSite hn')
  | publishObject input objectKey now =>
      obtain ⟨m, hm, hsite⟩ := publishObject_ok h
      exact (binKept_visibility hm).trans (binKept_createSite hsite)
  | updateVisibility bucketName objectKey visibilityValue now =>
      obtain ⟨visibility, h⟩ := updateVisibility_ok h
      exact binKept_visibility h
  | delete bucketName objectKey deletedAt group => exact absurd trivial hacts
  | deleteFolder bucketName folderPath isRecursive deletedAt group => exact absurd trivial hacts
  | restore itemID updatedAt => exact absurd trivial hacts
  | purge itemID => exact absurd trivial hacts
  | deleteBucket name => exact absurd trivial hacts

/-! ## Groups that come in -/

/-- One statement brought in the rows of one delete group. -/
structure Entered (c c' : Tables k) (group : String) (items : List RecycleBinObject) : Prop where
  rows : c'.recycleBin.rows = c.recycleBin.rows ++ withIDs c.nextRecycleID items
  nextRecycleID : c'.nextRecycleID = c.nextRecycleID + items.length
  sameGroup : ∀ i ∈ items, i.deleteGroupID = group
  sameTime : ∃ deletedAt, ∀ i ∈ items, i.deletedAt = deletedAt
  shape : (∃ item, items = [item])
    ∨ ((items.map (·.objectKey)).Nodup ∧ ∃ dir marker, FolderDelete dir marker items)

theorem keys_withIDs (items : List RecycleBinObject) : ∀ next,
    (withIDs next items).map (·.objectKey) = items.map (·.objectKey) := by
  induction items with
  | nil => exact fun _ => rfl
  | cons item rest ih =>
      intro next
      rw [withIDs, List.map_cons, List.map_cons, ih]

/-- Every row that goes in is there afterwards under some number. -/
theorem exists_withIDs (items : List RecycleBinObject) : ∀ (next : Nat) {i : RecycleBinObject},
    i ∈ items → ∃ id, { i with id := id } ∈ withIDs next items := by
  induction items with
  | nil => exact fun _ _ h => absurd h List.not_mem_nil
  | cons item rest ih =>
      intro next i hi
      rcases List.mem_cons.mp hi with rfl | hi
      · exact ⟨next, List.mem_cons_self⟩
      · obtain ⟨id, hid⟩ := ih (next + 1) hi
        exact ⟨id, List.mem_cons_of_mem _ hid⟩

/-- The stored rows of a folder delete are one, too. -/
theorem folderDelete_withIDs {dir : String} {marker : RecycleBinObject}
    {items : List RecycleBinObject}
    (h : FolderDelete dir marker items) (hkeys : (items.map (·.objectKey)).Nodup) (next : Nat) :
    ∃ stored, FolderDelete dir stored (withIDs next items) := by
  obtain ⟨id, hstored⟩ := exists_withIDs items next h.mem
  have hitem : ∀ r ∈ withIDs next items, ∃ i ∈ items,
      r.objectKey = i.objectKey ∧ r.bucketName = i.bucketName := by
    intro r hr
    obtain ⟨-, -, i, hi, heq⟩ := mem_withIDs items next hr
    exact ⟨i, hi, by rw [heq], by rw [heq]⟩
  refine ⟨{ marker with id := id }, h.dir_ne, hstored, h.marker_key, fun r hr => ?_, fun r hr => ?_,
    fun r hr hkey => ?_⟩
  · obtain ⟨i, hi, -, hbucket⟩ := hitem r hr
    exact hbucket.trans (h.bucket i hi)
  · obtain ⟨i, hi, hkey, -⟩ := hitem r hr
    rw [Below, hkey]
    exact h.below i hi
  · rw [← keys_withIDs items next] at hkeys
    exact List.inj_on_of_nodup_map hkeys hr hstored hkey

/-- A key below a directory that does not end with a slash. -/
theorem below_of_key {dir : String} {r : RecycleBinObject}
    (hpfx : hasPrefix r.objectKey (dir ++ "/") = true)
    (hslash : hasSuffix r.objectKey "/" = false) :
    Below dir r := by
  obtain ⟨rest, hkey⟩ := exists_rest hpfx
  have hends : ∀ {s : String}, s.toList <:+ rest.toList → s.toList <:+ r.objectKey.toList := by
    intro s hs
    rw [hkey, String.toList_append]
    exact hs.trans (List.suffix_append _ _)
  refine ⟨rest, hkey, ?_, Bool.eq_false_iff.mpr fun hrest => ?_⟩
  · rintro rfl
    rw [String.append_empty] at hkey
    have hsfx : hasSuffix r.objectKey "/" = true := by
      rw [hkey, hasSuffix_iff, String.toList_append]
      exact List.suffix_append _ _
    exact Bool.false_ne_true (hslash.symm.trans hsfx)
  · have hsfx : hasSuffix r.objectKey "/" = true :=
      hasSuffix_iff.mpr (hends (hasSuffix_iff.mp hrest))
    exact Bool.false_ne_true (hslash.symm.trans hsfx)

/-- A folder's marker lies below the folder. -/
theorem below_marker {dir : String} {r : RecycleBinObject}
    (hkey : r.objectKey = dir ++ "/" ++ folderMarkerFilename) : Below dir r :=
  ⟨folderMarkerFilename, hkey, by decide, by decide⟩

/-- The rows a recursive folder delete writes. -/
theorem folderDelete_of_moved {c : Tables Collation.binary} {bucketName dir owner : String}
    (deletedAt : Time) (group : String) {moved : List Object} (hdir : dir ≠ "")
    (hslash : ∀ o ∈ c.objects.rows, hasSuffix o.objectKey "/" = false)
    (howner : ∃ o ∈ listActiveByPrefixOrdered c bucketName (dir ++ "/"), owner = o.bucketName)
    (hperm : moved.Perm (listActiveByPrefixOrdered c bucketName (dir ++ "/"))) :
    ((moved.map (recycleBinObjectFromObject · deletedAt group)
      ++ syntheticMarker (listActiveByPrefixOrdered c bucketName (dir ++ "/")) owner (dir ++ "/")
          deletedAt group).map (·.objectKey)).Nodup
      ∧ ∃ marker, FolderDelete dir marker (moved.map (recycleBinObjectFromObject · deletedAt group)
        ++ syntheticMarker (listActiveByPrefixOrdered c bucketName (dir ++ "/")) owner (dir ++ "/")
          deletedAt group) := by
  have hkeys : (moved.map (·.objectKey)).Nodup :=
    (hperm.map _).nodup_iff.mpr (below_query c bucketName (dir ++ "/")).keys
  have hrow : ∀ o ∈ moved, o ∈ c.objects.rows ∧ o.bucketName = bucketName
      ∧ hasPrefix o.objectKey (dir ++ "/") = true := fun o ho => mem_query.mp (hperm.mem_iff.mp ho)
  have himages : (moved.map (recycleBinObjectFromObject · deletedAt group)).map (·.objectKey)
      = moved.map (·.objectKey) := List.map_map
  have hbelow : ∀ o ∈ moved, Below dir (recycleBinObjectFromObject o deletedAt group) := fun o ho =>
    below_of_key (hrow o ho).2.2 (hslash o (hrow o ho).1)
  rw [syntheticMarker]
  -- the folder has a marker of its own, or one is made up
  cases hrep : representative (listActiveByPrefixOrdered c bucketName (dir ++ "/"))
      (dir ++ "/" ++ folderMarkerFilename) with
  | some a =>
      have ha : a ∈ moved := by
        rw [representative] at hrep
        exact hperm.mem_iff.mpr (List.mem_reverse.mp (List.mem_of_find?_eq_some hrep))
      have hakey : a.objectKey = dir ++ "/" ++ folderMarkerFilename := by
        rw [representative] at hrep
        have hfound := List.find?_some hrep
        exact beq_iff_eq.mp hfound
      rw [Option.isSome_some, if_pos rfl, List.append_nil, himages]
      refine ⟨hkeys, recycleBinObjectFromObject a deletedAt group, hdir,
        List.mem_map_of_mem ha, hakey,
        fun r hr => ?_, fun r hr => ?_, fun r hr hkey => ?_⟩
      · obtain ⟨o, ho, rfl⟩ := List.mem_map.mp hr
        exact (hrow o ho).2.1.trans (hrow a ha).2.1.symm
      · obtain ⟨o, ho, rfl⟩ := List.mem_map.mp hr
        exact hbelow o ho
      · obtain ⟨o, ho, rfl⟩ := List.mem_map.mp hr
        have hsame : o = a := List.inj_on_of_nodup_map hkeys ho ha hkey
        rw [hsame]
  | none =>
      have hnone : ∀ o ∈ moved, o.objectKey ≠ dir ++ "/" ++ folderMarkerFilename := by
        intro o ho hkey
        rw [representative] at hrep
        refine List.find?_eq_none.mp hrep o (List.mem_reverse.mpr (hperm.mem_iff.mp ho)) ?_
        exact beq_iff_eq.mpr hkey
      have howner : owner = bucketName := by
        obtain ⟨o, ho, rfl⟩ := howner
        exact (mem_query.mp ho).2.1
      rw [Option.isSome_none, if_neg Bool.false_ne_true, List.map_append, himages]
      constructor
      · refine List.nodup_append.mpr
          ⟨hkeys, List.nodup_singleton _, fun key hkey key' hkey' heq => ?_⟩
        obtain ⟨o, ho, rfl⟩ := List.mem_map.mp hkey
        rw [List.mem_singleton.mp hkey'] at heq
        exact hnone o ho heq
      · refine ⟨syntheticRecycleBinDirectoryObject owner (dir ++ "/") deletedAt group, hdir,
          List.mem_append_right _ List.mem_cons_self, rfl, fun r hr => ?_, fun r hr => ?_,
          fun r hr hkey => ?_⟩
        · rcases List.mem_append.mp hr with hr | hr
          · obtain ⟨o, ho, rfl⟩ := List.mem_map.mp hr
            exact (hrow o ho).2.1.trans howner.symm
          · rw [List.mem_singleton.mp hr]
        · rcases List.mem_append.mp hr with hr | hr
          · obtain ⟨o, ho, rfl⟩ := List.mem_map.mp hr
            exact hbelow o ho
          · rw [List.mem_singleton.mp hr]
            exact below_marker rfl
        · rcases List.mem_append.mp hr with hr | hr
          · obtain ⟨o, ho, rfl⟩ := List.mem_map.mp hr
            exact absurd hkey (hnone o ho)
          · exact List.mem_singleton.mp hr

/-! ## Groups that leave -/

/-- Rows left: with the marker of a folder its whole group, or all rows of a bucket. -/
structure Removed (c c' : Tables k) (stays : RecycleBinObject → Bool) : Prop where
  rows : c'.recycleBin.rows = c.recycleBin.rows.filter stays
  nextRecycleID : c'.nextRecycleID = c.nextRecycleID
  groups : (∃ ofBucket : String → Bool, ∀ r, stays r = ofBucket r.bucketName)
    ∨ ∀ a ∈ c.recycleBin.rows, recycleBinObjectType a = .directory → stays a = false →
        ∀ b ∈ c.recycleBin.rows, b.deleteGroupID = a.deleteGroupID → stays b = false

/-- A restore or a purge takes its items. -/
theorem removed_items {item : RecycleBinObject} (hitem : item ∈ c.recycleBin.rows)
    (hrows : c'.recycleBin.rows = c.recycleBin.rows.filter fun r =>
      !decide (r.id ∈ (loadRecycleBinActionItems c item).map (·.id)))
    (hnext : c'.nextRecycleID = c.nextRecycleID) :
    Removed c c' fun r => !decide (r.id ∈ (loadRecycleBinActionItems c item).map (·.id)) := by
  refine ⟨hrows, hnext, Or.inr fun a ha htype hgone b hb hgroup => ?_⟩
  rw [Bool.not_eq_false', decide_eq_true_iff] at hgone ⊢
  have hmem := (loadRecycleBinActionItems_rows hitem).2
  obtain ⟨i, hi, hid⟩ := List.mem_map.mp hgone
  have hai : i = a := c.recycleBin.eq_of_clash (hmem i hi) ha (beq_iff_eq.mpr hid)
  subst hai
  rw [loadRecycleBinActionItems] at hi ⊢
  split at hi
  · next hfile =>
      rw [List.mem_singleton.mp hi] at htype
      exact absurd htype hfile
  · next hdirectory =>
      rw [if_neg hdirectory, List.mem_map]
      have hi := (Table.mem_select.mp (List.mem_mergeSort.mp hi)).2
      refine ⟨b, List.mem_mergeSort.mpr (Table.mem_select.mpr ⟨hb, ?_⟩), rfl⟩
      rw [beq_iff_eq] at hi ⊢
      exact hgroup.trans hi

/-! ## What a request does to the recycle bin -/

/-- The delete group a request makes up. -/
def groupOf : Request → Option String
  | .delete _ _ _ group => some group
  | .deleteFolder _ _ _ _ group => some group
  | _ => none

/-- The request deletes the folder `/`, whose keys begin with a slash. -/
def DeletesRoot : Request → Prop
  | .deleteFolder _ folderPath _ _ _ => folderPath = "/"
  | _ => False

/-- What one request does to the bin: nothing, one new delete group, or rows taken out. -/
inductive BinStep (c c' : Tables k) (request : Request) : Prop where
  | kept : BinKept c c' → BinStep c c' request
  | entered (group : String) (items : List RecycleBinObject) :
      groupOf request = some group → Entered c c' group items → BinStep c c' request
  | removed (stays : RecycleBinObject → Bool) : Removed c c' stays → BinStep c c' request

/-- Rows that move into the bin under one group and one time enter it as that group. -/
theorem entered_of_moved {objects : List Object} {items : List RecycleBinObject} {group : String}
    (deletedAt : Time) (h : Moved c c' objects items)
    (hitems : ∀ i ∈ items, i.deleteGroupID = group ∧ i.deletedAt = deletedAt)
    (hshape : (∃ item, items = [item])
      ∨ ((items.map (·.objectKey)).Nodup ∧ ∃ dir marker, FolderDelete dir marker items)) :
    Entered c c' group items :=
  ⟨h.recycleBin, h.nextRecycleID, fun i hi => (hitems i hi).1,
    ⟨deletedAt, fun i hi => (hitems i hi).2⟩, hshape⟩

/-- A deleted object enters as a group of one. -/
theorem binStep_delete {c c' : Tables k} {bucketName objectKey group : String} {deletedAt : Time}
    (h : Request.run c (.delete bucketName objectKey deletedAt group) = .ok c') :
    BinStep c c' (.delete bucketName objectKey deletedAt group) := by
  obtain ⟨object, -, -, hmoved⟩ := deleteObject_ok (delete_ok h)
  refine .entered group _ rfl (entered_of_moved deletedAt hmoved ?_ (Or.inl ⟨_, rfl⟩))
  exact List.forall_mem_singleton.mpr ⟨rfl, rfl⟩

/-- A deleted folder enters as the group of its marker, or of its single row. -/
theorem binStep_deleteFolder {c c' : Tables Collation.binary} {bucketName folderPath group : String}
    {isRecursive : Bool} {deletedAt : Time}
    (hslash : ∀ o ∈ c.objects.rows, hasSuffix o.objectKey "/" = false) (hroot : folderPath ≠ "/")
    (h : Request.run c (.deleteFolder bucketName folderPath isRecursive deletedAt group) = .ok c') :
    BinStep c c' (.deleteFolder bucketName folderPath isRecursive deletedAt group) := by
  obtain ⟨dir, hdir⟩ := hasSuffix_iff.mp (hasSuffix_of_folderPath (deleteFolder_path h))
  have hpath : folderPath = String.ofList dir ++ "/" := by
    rw [← String.toList_inj, String.toList_append, String.toList_ofList]
    exact hdir.symm
  have hne : String.ofList dir ≠ "" := by
    intro hempty
    rw [hempty, String.empty_append] at hpath
    exact hroot hpath
  rcases deleteFolder_ok h with ⟨-, hrec⟩ | ⟨-, hempty⟩
  · obtain ⟨moved, owner, howner, hperm, hmoved⟩ := deleteFolderRecursive_moves hrec
    refine .entered group _ rfl (entered_of_moved deletedAt hmoved (fun i hi => ?_) ?_)
    · rcases List.mem_append.mp hi with hi | hi
      · obtain ⟨o, -, rfl⟩ := List.mem_map.mp hi
        exact ⟨rfl, rfl⟩
      · rw [syntheticMarker] at hi
        split at hi
        · exact absurd hi List.not_mem_nil
        · rw [List.mem_singleton.mp hi]
          exact ⟨rfl, rfl⟩
    · rw [hpath] at howner hperm ⊢
      obtain ⟨hkeys, marker, hfolder⟩ :=
        folderDelete_of_moved deletedAt group hne hslash howner hperm
      exact Or.inr ⟨hkeys, _, marker, hfolder⟩
  · obtain ⟨marker, -, hmoved⟩ := deleteFolderEmpty_ok hempty
    refine .entered group _ rfl (entered_of_moved deletedAt hmoved ?_ (Or.inl ⟨_, rfl⟩))
    exact List.forall_mem_singleton.mpr ⟨rfl, rfl⟩

/-- A restored item leaves with its group. -/
theorem binStep_restore {c c' : Tables k} {itemID : Nat} {updatedAt : Time}
    (h : Request.run c (.restore itemID updatedAt) = .ok c') :
        BinStep c c' (.restore itemID updatedAt) := by
  obtain ⟨groupItems, hread, hrestored⟩ := restoreObject_ok h
  obtain ⟨item, hitem, -, rfl, -, -⟩ := restoreReads_ok hread
  exact .removed _ (removed_items hitem hrestored.recycleBin hrestored.nextRecycleID)

/-- A purged item leaves with its group. -/
theorem binStep_purge {c c' : Tables k} {itemID : Nat}
    (h : Request.run c (.purge itemID) = .ok c') :
    BinStep c c' (.purge itemID) := by
  obtain ⟨⟨m, released⟩, hm, rfl⟩ := map_eq_ok.mp h
  rw [purgeMetadata] at hm
  obtain ⟨groupItems, hread, hm⟩ := bind_eq_ok.mp hm
  obtain ⟨item, hitem, -, rfl⟩ := purgeReads_ok hread
  have htables := (purgeItems_ok hm).1.tables
  exact .removed _ (removed_items hitem (by rw [htables]; rfl) (by rw [htables]))

/-- The rows of a deleted bucket leave. -/
theorem binStep_deleteBucket {c c' : Tables k} {name : String}
    (h : Request.run c (.deleteBucket name) = .ok c') : BinStep c c' (.deleteBucket name) := by
  obtain ⟨released, hm⟩ := deleteBucket_ok h
  rw [deleteBucketMetadata] at hm
  obtain ⟨_, -, hm⟩ := bind_eq_ok.mp hm
  obtain ⟨_, -, hm⟩ := bind_eq_ok.mp hm
  cases pure_eq_ok.mp hm
  exact .removed _ ⟨List.filter_filter, rfl, Or.inl ⟨fun bucketName =>
    !((c.buckets.select fun b => k.eq b.name name).any fun b => k.eq b.name bucketName)
      && !k.eq bucketName name, fun r => rfl⟩⟩

/-- **One request**: the bin is kept, one group enters, or rows leave. -/
theorem binStep_of_run {c c' : Tables Collation.binary} {request : Request}
    (hslash : ∀ o ∈ c.objects.rows, hasSuffix o.objectKey "/" = false)
    (hroot : ¬ DeletesRoot request)
    (h : request.run c = .ok c') : BinStep c c' request := by
  by_cases hacts : ActsOnBin request
  · cases request with
    | delete bucketName objectKey deletedAt group => exact binStep_delete h
    | deleteFolder bucketName folderPath isRecursive deletedAt group =>
        exact binStep_deleteFolder hslash hroot h
    | restore itemID updatedAt => exact binStep_restore h
    | purge itemID => exact binStep_purge h
    | deleteBucket name => exact binStep_deleteBucket h
    | _ => exact hacts.elim
  · exact .kept (binKept_of_run hacts h)

/-! ## The invariant -/

/-- No key ends with a slash: of the objects, and of the rows a restore would bring back. -/
structure NoSlashEnds (c : Tables k) : Prop where
  objects : ∀ o ∈ c.objects.rows, hasSuffix o.objectKey "/" = false
  recycled : ∀ r ∈ c.recycleBin.rows, shouldSkipRecycleBinRestoreItem r = false →
    hasSuffix r.objectKey "/" = false

/-- A key whose last character is another does not end in a slash. -/
theorem no_slash_of_last {key : String} {front : List Char} {d : Char}
    (hkey : key.toList = front ++ [d])
    (hd : d ≠ '/') : hasSuffix key "/" = false := by
  refine Bool.eq_false_iff.mpr fun hsfx => ?_
  obtain ⟨init, hinit⟩ := hasSuffix_iff.mp hsfx
  rw [hkey] at hinit
  exact hd (List.cons.inj (List.append_inj_right' hinit rfl)).1.symm

/-- A key of good segments does not end in a slash. -/
theorem no_slash_of_good {key : String} (h : GoodSegments key) : hasSuffix key "/" = false := by
  obtain ⟨front, d, hkey, hd⟩ := getLast_of_good h
  exact no_slash_of_last hkey hd

/-- The key of an upload does not end in a slash. -/
theorem no_slash_of_user {key : String} (h : validateUserObjectKey key = .ok ()) :
    hasSuffix key "/" = false :=
  no_slash_of_good (validateUserObjectKey_iff.mp h).1.segs

/-- What stands before a name does not matter. -/
theorem no_slash_append (front : String) {name : String} (h : GoodSegments name) :
    hasSuffix (front ++ name) "/" = false := by
  obtain ⟨init, d, hname, hd⟩ := getLast_of_good h
  have hkey : (front ++ name).toList = (front.toList ++ init) ++ [d] := by
    rw [String.toList_append, hname, List.append_assoc]
  exact no_slash_of_last hkey hd

/-- Whatever request writes a key, the key does not end in a slash. -/
theorem no_slash_of_writes {request : Request} {key : String} (h : Writes request key) :
    hasSuffix key "/" = false := by
  cases request with
  | upload input staged now => exact no_slash_of_user h.2
  | uploadBatch input stagedBlobs now => exact no_slash_of_user h
  | publishSite input items stagedBlobs now => exact no_slash_of_user h
  | createFolder input staged now =>
      obtain ⟨rfl, -, -⟩ := h
      exact no_slash_append _ (by decide)
  | publishFile input filename contentType staged now =>
      obtain ⟨parentPrefix, fileName, -, hname, rfl⟩ := h
      have huser := normalizePublishFileName_ok hname
      exact no_slash_append _ (validateUserObjectKey_iff.mp huser).1.segs
  | _ => exact h.elim

/-- A request keeps this of the keys: those it adds are written, the others were there. -/
theorem NoSlashEnds.derives {P : String → Prop} {request : Request} (h : NoSlashEnds c)
    (hd : Derives c c' (Writes request) P) : NoSlashEnds c' := by
  obtain ⟨hobjects, hrecycled⟩ := hd.keys h.objects h.recycled fun _ => no_slash_of_writes
  exact ⟨hobjects, hrecycled⟩

/-- The recycle bin before the requests that still come, whose groups are new. -/
structure BinOk (coming : List String) (c : Tables k) : Prop where
  grouped : GroupedBin c
  ids : RecycleIDs c
  fresh : ∀ r ∈ c.recycleBin.rows, r.deleteGroupID ∉ coming

variable {coming : List String}

/-- A request that leaves the bin alone keeps the invariant. -/
theorem BinOk.kept (h : BinOk coming c) (hkept : BinKept c c') : BinOk coming c' := by
  obtain ⟨hrows, hnext⟩ := hkept
  refine ⟨⟨?_, ?_, ?_⟩, ?_, ?_⟩
  · rw [hrows]
    exact h.grouped.sameTime
  · rw [hrows]
    exact h.grouped.together
  · rw [hrows]
    exact h.grouped.shape
  · rw [RecycleIDs, hrows, hnext]
    exact h.ids
  · rw [hrows]
    exact h.fresh

/-- Taking whole groups out keeps the invariant. -/
theorem BinOk.removed (h : BinOk coming c) {stays : RecycleBinObject → Bool}
    (hremoved : Removed c c' stays) : BinOk coming c' := by
  have hmem : ∀ {r}, r ∈ c'.recycleBin.rows → r ∈ c.recycleBin.rows ∧ stays r = true := fun hr =>
    List.mem_filter.mp (hremoved.rows ▸ hr)
  refine ⟨⟨fun a ha b hb => ?_, fun a ha b hb d hd => ?_, fun a ha => ?_⟩, fun r hr => ?_,
    fun r hr => ?_⟩
  · exact h.grouped.sameTime a (hmem ha).1 b (hmem hb).1
  · exact h.grouped.together a (hmem ha).1 b (hmem hb).1 d (hmem hd).1
  · obtain ⟨hrow, hstays⟩ := hmem ha
    rcases h.grouped.shape a hrow with hone | ⟨dir, marker, hfolder⟩
    · exact Or.inl fun b hb => hone b (hmem hb).1
    · obtain ⟨hmarker, hgroup⟩ := List.mem_filter.mp hfolder.mem
      -- the marker is still there, or the row would have left with it
      have hthere : stays marker = true := by
        by_contra hgone
        have hgone := Bool.eq_false_iff.mpr hgone
        have hleft : stays a = false := by
          -- the rows of a bucket leave together, other rows with their whole group
          rcases hremoved.groups with ⟨ofBucket, hbucket⟩ | hwhole
          · rw [hbucket] at hgone ⊢
            rwa [hfolder.bucket a (List.mem_filter.mpr ⟨hrow, decide_eq_true rfl⟩)]
          · exact hwhole marker hmarker (marker_type hfolder.marker_key).1 hgone a hrow
              (of_decide_eq_true hgroup).symm
        exact Bool.false_ne_true (hleft.symm.trans hstays)
      have hsub :
        ∀ r ∈ c'.recycleBin.rows.filter fun b => decide (b.deleteGroupID = a.deleteGroupID),
          r ∈ c.recycleBin.rows.filter fun b =>
              decide (b.deleteGroupID = a.deleteGroupID) := fun r hr =>
        List.mem_filter.mpr ⟨(hmem (List.mem_filter.mp hr).1).1, (List.mem_filter.mp hr).2⟩
      refine Or.inr ⟨dir, marker, hfolder.dir_ne, ?_, hfolder.marker_key, fun r hr => ?_,
        fun r hr => ?_, fun r hr => ?_⟩
      · rw [hremoved.rows]
        exact List.mem_filter.mpr ⟨List.mem_filter.mpr ⟨hmarker, hthere⟩, hgroup⟩
      · exact hfolder.bucket r (hsub r hr)
      · exact hfolder.below r (hsub r hr)
      · exact hfolder.once r (hsub r hr)
  · rw [hremoved.nextRecycleID]
    exact h.ids r (hmem hr).1
  · exact h.fresh r (hmem hr).1

/-- The rows after a group came in. -/
theorem Entered.mem_rows {group : String} {items : List RecycleBinObject}
    (h : Entered c c' group items)
    {r : RecycleBinObject} (hr : r ∈ c'.recycleBin.rows) : r ∈ c.recycleBin.rows
      ∨ (r ∈ withIDs c.nextRecycleID items ∧ r.deleteGroupID = group ∧ c.nextRecycleID ≤ r.id) := by
  rcases List.mem_append.mp (h.rows ▸ hr) with hr | hr
  · exact Or.inl hr
  · obtain ⟨hlow, -, i, hi, heq⟩ := mem_withIDs items _ hr
    refine Or.inr ⟨hr, ?_, hlow⟩
    rw [heq]
    exact h.sameGroup i hi

/-- Bringing a group in keeps it, under a name not used before. -/
theorem BinOk.entered {group : String} {items : List RecycleBinObject}
    (h : BinOk (group :: coming) c)
    (hnew : group ∉ coming) (hentered : Entered c c' group items) : BinOk coming c' := by
  have hold : ∀ r ∈ c.recycleBin.rows, r.deleteGroupID ≠ group := fun r hr heq =>
    h.fresh r hr (heq ▸ List.mem_cons_self)
  obtain ⟨deletedAt, htime⟩ := hentered.sameTime
  have htimes : ∀ r ∈ withIDs c.nextRecycleID items, r.deletedAt = deletedAt := by
    intro r hr
    obtain ⟨-, -, i, hi, heq⟩ := mem_withIDs items _ hr
    rw [heq]
    exact htime i hi
  refine ⟨⟨fun a ha b hb hgroup => ?_, fun a ha b hb d hd hgroup hab hbd => ?_, fun a ha => ?_⟩,
    fun r hr => ?_, fun r hr => ?_⟩
  · rcases hentered.mem_rows ha with ha | ⟨ha, hagroup, -⟩
    · rcases hentered.mem_rows hb with hb | ⟨-, hbgroup, -⟩
      · exact h.grouped.sameTime a ha b hb hgroup
      · exact absurd (hgroup.trans hbgroup) (hold a ha)
    · rcases hentered.mem_rows hb with hb | ⟨hb, -, -⟩
      · exact absurd (hgroup.symm.trans hagroup) (hold b hb)
      · rw [htimes a ha, htimes b hb]
  -- between two old rows there is no new one: ids only grow
  · rcases hentered.mem_rows ha with ha | ⟨-, hagroup, hlow⟩
    · rcases hentered.mem_rows hd with hd | ⟨-, hdgroup, -⟩
      · rcases hentered.mem_rows hb with hb | ⟨-, -, hlow⟩
        · exact h.grouped.together a ha b hb d hd hgroup hab hbd
        · exact absurd (h.ids d hd) (by omega)
      · exact absurd (hgroup.trans hdgroup) (hold a ha)
    · rcases hentered.mem_rows hb with hb | ⟨-, hbgroup, -⟩
      · exact absurd (h.ids b hb) (by omega)
      · exact hbgroup.trans hagroup.symm
  · rcases hentered.mem_rows ha with ha | ⟨ha, hagroup, -⟩
    · rcases h.grouped.shape a ha with hone | ⟨dir, marker, hfolder⟩
      · refine Or.inl fun b hb hgroup => ?_
        rcases hentered.mem_rows hb with hb | ⟨-, hbgroup, -⟩
        · exact hone b hb hgroup
        · exact absurd (hgroup.symm.trans hbgroup) (hold a ha)
      · refine Or.inr ⟨dir, marker, hfolder.of_mem_iff fun r => ?_⟩
        rw [List.mem_filter, List.mem_filter]
        refine and_congr_left fun hgroup => ⟨fun hr => ?_, fun hr => ?_⟩
        · rcases hentered.mem_rows hr with hr | ⟨-, hrgroup, -⟩
          · exact hr
          · exact absurd ((of_decide_eq_true hgroup).symm.trans hrgroup) (hold a ha)
        · rw [hentered.rows]
          exact List.mem_append_left _ hr
    · have hgroupRows : ∀ r, r ∈ c'.recycleBin.rows.filter
          (fun b => decide (b.deleteGroupID = a.deleteGroupID))
              ↔ r ∈ withIDs c.nextRecycleID items := by
        intro r
        rw [List.mem_filter, decide_eq_true_iff, hagroup]
        constructor
        · rintro ⟨hr, hgroup⟩
          rcases hentered.mem_rows hr with hr | ⟨hr, -, -⟩
          · exact absurd hgroup (hold r hr)
          · exact hr
        · intro hr
          have hrow : r ∈ c'.recycleBin.rows := by
            rw [hentered.rows]
            exact List.mem_append_right _ hr
          rcases hentered.mem_rows hrow with hold' | ⟨-, hgroup, -⟩
          · obtain ⟨hlow, -⟩ := mem_withIDs items _ hr
            exact absurd (h.ids r hold') (by omega)
          · exact ⟨hrow, hgroup⟩
      -- the new group is one row, or a folder as it was written
      rcases hentered.shape with ⟨item, rfl⟩ | ⟨hkeys, dir, marker, hfolder⟩
      · refine Or.inl fun b hb hgroup => ?_
        have hb := (hgroupRows b).mp (List.mem_filter.mpr ⟨hb, decide_eq_true hgroup⟩)
        rw [withIDs, withIDs] at ha hb
        rw [List.mem_singleton.mp ha, List.mem_singleton.mp hb]
      · obtain ⟨stored, hstored⟩ := folderDelete_withIDs hfolder hkeys c.nextRecycleID
        exact Or.inr ⟨dir, stored, hstored.of_mem_iff hgroupRows⟩
  · rw [hentered.nextRecycleID]
    rcases List.mem_append.mp (hentered.rows ▸ hr) with hr | hr
    · exact Nat.lt_add_right _ (h.ids r hr)
    · exact (mem_withIDs items _ hr).2.1
  · rcases hentered.mem_rows hr with hr | ⟨-, hgroup, -⟩
    · exact fun hmem => h.fresh r hr (List.mem_cons_of_mem _ hmem)
    · rw [hgroup]
      exact hnew

/-- The groups of the requests of a run. -/
def groupsOf (requests : List Request) : List String := requests.filterMap groupOf

/-- **The run lemma**: with every group name used once and no deletion of the root, the
    invariant holds after every run. -/
theorem binOk_of_run {c c' : Tables Collation.binary} {requests : List Request}
    (hrun : StepSystem.Run (requestSystem Collation.binary) c requests c') :
    (∀ request ∈ requests, ¬ DeletesRoot request) → (groupsOf requests).Nodup → NoSlashEnds c →
      BinOk (groupsOf requests) c → BinOk [] c' := by
  induction hrun with
  | nil c => exact fun _ _ _ h => h
  | @cons s t u request rest hstep _ ih =>
      intro hroot hnodup hslash hok
      obtain ⟨hrootHere, hrootRest⟩ := List.forall_mem_cons.mp hroot
      have hnodupRest : (groupsOf rest).Nodup := hnodup.sublist
        ((List.sublist_cons_self request rest).filterMap groupOf)
      have hdrop : BinOk (groupsOf (request :: rest)) s → BinOk (groupsOf rest) s := fun h =>
        ⟨h.grouped, h.ids, fun r hr hmem => h.fresh r hr
          (((List.sublist_cons_self request rest).filterMap groupOf).subset hmem)⟩
      obtain ⟨-, hran | rfl⟩ := hstep
      · have hslash' := hslash.derives (request_derives hran)
        refine ih hrootRest hnodupRest hslash' ?_
        cases binStep_of_run hslash.objects hrootHere hran with
        | kept hkept => exact (hdrop hok).kept hkept
        | removed stays hremoved => exact (hdrop hok).removed hremoved
        | entered group items hgroup hentered =>
            have hgroups : groupsOf (request :: rest) = group :: groupsOf rest :=
              List.filterMap_cons_some hgroup
            rw [hgroups] at hok hnodup
            exact hok.entered (List.nodup_cons.mp hnodup).1 hentered
      · exact ih hrootRest hnodupRest hslash (hdrop hok)

/-- **The recycle tables of every run**: whatever requests were made, in whatever order, the
    delete groups stand together and each is one row or a folder with its marker. -/
theorem grouped_of_run {c c' : Tables Collation.binary} {requests : List Request}
    (hstart : (requestSystem Collation.binary).start c)
    (hrun : StepSystem.Run (requestSystem Collation.binary) c requests c')
    (hgroups : (groupsOf requests).Nodup) (hroot : ∀ request ∈ requests, ¬ DeletesRoot request) :
    GroupedBin c' := by
  refine (binOk_of_run hrun hroot hgroups ?_ ?_).grouped
  · rw [hstart]
    exact ⟨List.forall_mem_nil _, List.forall_mem_nil _⟩
  · rw [hstart]
    exact ⟨⟨List.forall_mem_nil _, List.forall_mem_nil _, List.forall_mem_nil _⟩,
      List.forall_mem_nil _, List.forall_mem_nil _⟩

/-! ## The folder `docs` in the bin -/

/-- An object in the bin, moved there at time 5 under the group `g`. -/
def recycledRow (id : Nat) (object : Object) : RecycleBinObject :=
  { recycleBinObjectFromObject object 5 "g" with id := id }

/-- The marker that `createFolder` writes for `docs`. -/
def markerRow : Object :=
  { stagedObject "photos" "docs/.light-oss-folder" folderMarkerFilename "application/x-directory"
      .visibilityPrivate stagedMarker with id := 1 }

/-- A file beside the folder. -/
def otherRow : Object := uploadedRow 4 "other/c.txt" "c.txt"

/-- The request that deletes `docs` with all that lies below it. -/
def deleteDocs : Request := .deleteFolder "photos" "docs/" true 5 "g"

/-- `docsTree` without the folder `docs`. -/
def docsDeleted : Tables Collation.binary where
  buckets := emptyPhotos.buckets
  objects := ⟨[otherRow], List.pairwise_singleton _ _⟩
  recycleBin := ⟨[recycledRow 1 (uploadedRow 2 "docs/a.txt" "a.txt"),
    recycledRow 2 (uploadedRow 3 "docs/sub/b.txt" "b.txt"), recycledRow 3 markerRow], by decide⟩
  nextBucketID := 2
  nextObjectID := 5
  nextRecycleID := 4

/-- The delete moves the marker and the two files into the bin and leaves the file beside. -/
theorem deleteDocs_docsTree : deleteDocs.run docsTree = .ok docsDeleted := by
  have hlist : listActiveByPrefixOrdered docsTree "photos" "docs/"
      = [markerRow, uploadedRow 2 "docs/a.txt" "a.txt",
          uploadedRow 3 "docs/sub/b.txt" "b.txt"] := by
    rw [listActiveByPrefixOrdered, List.mergeSort_of_pairwise (by decide)]
    rfl
  have hdelete : deleteFolderRecursive docsTree "photos" "docs/" 5 "g" = .ok docsDeleted := by
    rw [deleteFolderRecursive, hlist]
    rfl
  refine bind_eq_ok.mpr ⟨(), ensure_eq_ok.mpr (by decide), bind_eq_ok.mpr ⟨(), by decide, ?_⟩⟩
  exact mapError_eq_ok.mpr hdelete

/-- The run that creates, fills and deletes the folder. -/
theorem run_docsDeleted :
    StepSystem.Run (requestSystem Collation.binary) {}
      [createPhotos, .createFolder (newFolder "docs") stagedMarker 0, uploadDocs, deleteDocs]
      docsDeleted :=
  run_docsTree.append (.cons ⟨List.forall_mem_nil _, Or.inl deleteDocs_docsTree⟩ (.nil _))

/-- The bin of such a run: two files and the marker of one group. -/
theorem grouped_of_run_docs : GroupedBin docsDeleted := by
  refine grouped_of_run rfl run_docsDeleted (by decide) ?_
  refine List.forall_mem_cons.mpr ⟨not_false, List.forall_mem_cons.mpr ⟨not_false, ?_⟩⟩
  have hroot : "docs/" ≠ "/" := by decide
  exact List.forall_mem_cons.mpr ⟨not_false, List.forall_mem_singleton.mpr hroot⟩

end RecycleRuns
