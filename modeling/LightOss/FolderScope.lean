import LightOss.RecycleMoves

/-! # Folder scope — which objects a folder operation touches

    The services treat a folder as the keys that begin with its path, byte for byte.
    The query behind every folder operation is a `LIKE` on the prefix pattern, and
    the database compares characters by its collation.  So the two agree exactly
    while no key of the bucket begins with a text that the collation takes for the
    path without being it.

    `prefixFilter_iff` reads the pattern, and `seesFolder_iff` compares it with the
    folder.  A recursive delete moves what its query finds, so it moves the folder and
    nothing else exactly when there is no such key (`movesFolder_of_noTwin`,
    `noTwin_of_movesFolder`). -/

namespace FolderScope

open KeyedTable Fallible LedgerRows Catalog Validation MetadataServices CatalogSpecs RecycleMoves

variable {k : Collation} {c c' : Tables k} {bucketName folderPath : String}

/-- What a folder is to the services: the objects of the bucket whose keys start with
    its path. -/
def InFolder (k : Collation) (bucketName folderPath : String) (o : Object) : Prop :=
  k.eq o.bucketName bucketName = true ∧ hasPrefix o.objectKey folderPath = true

/-- Another text that the collation takes for `folderPath`, character by character. -/
def Twin (k : Collation) (folderPath twin : String) : Prop :=
  twin ≠ folderPath
    ∧ List.Forall₂ (fun a b => k.sameChar a b = true) folderPath.toList twin.toList

/-- No key of the bucket starts with a twin of the path. -/
def NoTwin (c : Tables k) (bucketName folderPath : String) : Prop :=
  ∀ o ∈ c.objects.rows, k.eq o.bucketName bucketName = true →
    ∀ twin, Twin k folderPath twin → hasPrefix o.objectKey twin = false

/-! ## The query -/

/-- A key that starts with the path starts with none of its twins. -/
theorem no_twin_of_own {key twin : String} (hown : hasPrefix key folderPath = true)
    (htwin : Twin k folderPath twin) : hasPrefix key twin = false := by
  by_contra hstarts
  have hstarts := hasPrefix_iff.mp (Bool.not_eq_false _ ▸ hstarts)
  have hsame := List.prefix_of_prefix_length_le hstarts (hasPrefix_iff.mp hown)
    htwin.2.length_eq.ge
  exact htwin.1 (String.toList_inj.mp (hsame.eq_of_length htwin.2.length_eq.symm))

/-- The pattern of a prefix finds the keys that start with the prefix or a twin of it. -/
theorem prefixFilter_iff {pfx : String} {o : Object} : prefixFilter k pfx o = true ↔
    hasPrefix o.objectKey pfx = true
      ∨ ∃ twin, Twin k pfx twin ∧ hasPrefix o.objectKey twin = true := by
  have hlike : LikePattern.like k.sameChar '!' (likePrefixPattern pfx).toList o.objectKey.toList
      = LikePattern.startsLike k.sameChar pfx.toList o.objectKey.toList := by
    rw [likePrefixPattern, escapeLikeValue, String.toList_append, String.toList_ofList]
    exact LikePattern.like_prefix (by decide) _ _
  rw [prefixFilter, hlike, Bool.or_eq_true, beq_iff_eq]
  constructor
  · rintro (rfl | hstart)
    · exact Or.inl (hasPrefix_iff.mpr (List.nil_prefix))
    · obtain ⟨front, back, hkey, hall⟩ := (LikePattern.startsLike_iff _ _).mp hstart
      have hfront : hasPrefix o.objectKey (String.ofList front) = true := by
        rw [hasPrefix_iff, String.toList_ofList, hkey]
        exact List.prefix_append _ _
      by_cases hsame : String.ofList front = pfx
      · exact Or.inl (hsame ▸ hfront)
      · refine Or.inr ⟨String.ofList front, ⟨hsame, ?_⟩, hfront⟩
        rwa [String.toList_ofList]
  · rintro (hpfx | ⟨twin, ⟨-, hall⟩, htwin⟩)
    · exact Or.inr (LikePattern.startsLike_of_prefix k.sameChar_refl (hasPrefix_iff.mp hpfx))
    · obtain ⟨back, hkey⟩ := hasPrefix_iff.mp htwin
      exact Or.inr ((LikePattern.startsLike_iff _ _).mpr ⟨_, back, hkey.symm, hall⟩)

/-- The folder's own objects are always found. -/
theorem mem_of_inFolder {o : Object} (ho : o ∈ c.objects.rows)
    (hin : InFolder k bucketName folderPath o) :
    o ∈ listActiveByPrefixOrdered c bucketName folderPath :=
  ((listActiveByPrefixOrdered_rows c bucketName folderPath).2 o).mpr
    ⟨ho, hin.1, prefixFilter_iff.mpr (Or.inl hin.2)⟩

/-- Among the objects `objects`, exactly those of the folder. -/
def SeesFolder (c : Tables k) (bucketName folderPath : String) (objects : List Object) : Prop :=
  ∀ o, o ∈ objects ↔ o ∈ c.objects.rows ∧ InFolder k bucketName folderPath o

/-- **The query and the prefix.** -/
theorem seesFolder_iff :
    SeesFolder c bucketName folderPath (listActiveByPrefixOrdered c bucketName folderPath)
      ↔ NoTwin c bucketName folderPath := by
  have hrows := (listActiveByPrefixOrdered_rows c bucketName folderPath).2
  constructor
  · intro hsees o ho hbucket twin htwin
    by_contra hstarts
    have hstarts := Bool.not_eq_false _ ▸ hstarts
    -- the query finds `o` for its twin, so the folder must own it: two prefixes of one length
    have hfound := (hrows o).mpr ⟨ho, hbucket, prefixFilter_iff.mpr (Or.inr ⟨twin, htwin, hstarts⟩)⟩
    have hown := ((hsees o).mp hfound).2.2
    exact absurd (no_twin_of_own hown htwin ▸ hstarts) Bool.false_ne_true
  · intro hnone o
    constructor
    · intro ho
      obtain ⟨hmem, hbucket, hfilter⟩ := (hrows o).mp ho
      rcases prefixFilter_iff.mp hfilter with hown | ⟨twin, htwin, hstarts⟩
      · exact ⟨hmem, hbucket, hown⟩
      · exact absurd (hnone o hmem hbucket twin htwin ▸ hstarts) Bool.false_ne_true
    · rintro ⟨hmem, hin⟩
      exact mem_of_inFolder hmem hin

/-! ## The three operations -/

/-- A recursive delete that moved the folder and nothing else: the objects that left
    are the folder's, the new recycle rows are their images, and at most a synthetic
    marker comes with them. -/
structure MovesFolder (c c' : Tables k) (bucketName folderPath : String) (deletedAt : Time)
    (group : String) : Prop where
  objects : ∀ o, o ∈ c'.objects.rows ↔
    o ∈ c.objects.rows ∧ ¬ InFolder k bucketName folderPath o
  recycled : ∃ moved synthetic,
    c'.recycleBin.rows = c.recycleBin.rows
      ++ withIDs c.nextRecycleID (moved.map (recycleBinObjectFromObject · deletedAt group)
        ++ synthetic)
      ∧ moved.Nodup ∧ SeesFolder c bucketName folderPath moved
      ∧ (synthetic = [] ∨ ∃ owner, synthetic =
        [syntheticRecycleBinDirectoryObject owner folderPath deletedAt group])

/-- Without such a key a recursive delete moves the folder and nothing else. -/
theorem movesFolder_of_noTwin {deletedAt : Time} {group : String}
    (hnone : NoTwin c bucketName folderPath)
    (h : deleteFolderRecursive c bucketName folderPath deletedAt group = .ok c') :
    MovesFolder c c' bucketName folderPath deletedAt group := by
  obtain ⟨moved, owner, -, hperm, hmoved⟩ := deleteFolderRecursive_moves h
  obtain ⟨hnd, hrows⟩ := listActiveByPrefixOrdered_rows c bucketName folderPath
  have hsees := seesFolder_iff.mpr hnone
  constructor
  · intro o
    rw [hmoved.mem_objects (fun o ho => ((hrows o).mp ho).1), hsees o]
    tauto
  · refine ⟨moved, _, hmoved.recycleBin, hperm.nodup_iff.mpr hnd,
      fun o => hperm.mem_iff.trans (hsees o), ?_⟩
    exact (syntheticMarker_cases _ _ _ _ _).imp id fun hmarker => ⟨_, hmarker⟩

/-- A recursive delete that moves the folder and nothing else met no twin: its row would
    have moved as well. -/
theorem noTwin_of_movesFolder {deletedAt : Time} {group : String}
    (h : deleteFolderRecursive c bucketName folderPath deletedAt group = .ok c')
    (hmoves : MovesFolder c c' bucketName folderPath deletedAt group) :
    NoTwin c bucketName folderPath := by
  obtain ⟨-, hmoved⟩ := deleteFolderRecursive_ok h
  obtain ⟨-, hrows⟩ := listActiveByPrefixOrdered_rows c bucketName folderPath
  refine seesFolder_iff.mp fun o => ?_
  constructor
  · intro ho
    have hmem := ((hrows o).mp ho).1
    refine ⟨hmem, ?_⟩
    -- a row the query found has left the table, and only the folder's may have
    by_contra hout
    have hstays := (hmoves.objects o).mpr ⟨hmem, hout⟩
    exact ((hmoved.mem_objects (fun o ho => ((hrows o).mp ho).1) o).mp hstays).2 ho
  · rintro ⟨hmem, hin⟩
    exact mem_of_inFolder hmem hin

/-- A delete that commits moves the folder and nothing else exactly when the path has
    no twin in the bucket. -/
theorem movesFolder_iff {deletedAt : Time} {group : String}
    (h : deleteFolder c bucketName folderPath true deletedAt group = .ok c') :
    MovesFolder c c' bucketName folderPath deletedAt group ↔ NoTwin c bucketName folderPath := by
  rcases deleteFolder_ok h with ⟨-, hrec⟩ | ⟨hfalse, -⟩
  · exact ⟨noTwin_of_movesFolder hrec, fun hnone => movesFolder_of_noTwin hnone hrec⟩
  · exact nomatch hfalse

theorem listExplorerObjects_ok {objects : List Object}
    (h : listExplorerObjects c bucketName folderPath = .ok objects) :
    objects = listActiveByPrefixOrdered c bucketName folderPath := by
  rw [listExplorerObjects] at h
  obtain ⟨_, -, h⟩ := bind_eq_ok.mp h
  obtain ⟨_, -, h⟩ := bind_eq_ok.mp h
  obtain ⟨_, -, h⟩ := bind_eq_ok.mp h
  exact (pure_eq_ok.mp h).symm

/-- An archive reads by the same query as a listing. -/
theorem openFolderArchiveObjects_ok {objects : List Object}
    (h : openFolderArchiveObjects c bucketName folderPath = .ok objects) :
    objects = listActiveByPrefixOrdered c bucketName folderPath := by
  rw [openFolderArchiveObjects] at h
  obtain ⟨_, -, h⟩ := bind_eq_ok.mp h
  obtain ⟨_, -, h⟩ := bind_eq_ok.mp h
  obtain ⟨_, -, h⟩ := bind_eq_ok.mp h
  obtain ⟨_, -, h⟩ := bind_eq_ok.mp h
  exact (pure_eq_ok.mp h).symm

/-- **Folder scope.**  Every recursive delete that commits, every listing and every
    archive of a folder is about exactly that folder if and only if no key of the
    bucket starts with a twin of its path. -/
theorem folder_scope (c : Tables k) (bucketName folderPath : String) :
    (∀ deletedAt group c', deleteFolder c bucketName folderPath true deletedAt group = .ok c' →
      (MovesFolder c c' bucketName folderPath deletedAt group ↔ NoTwin c bucketName folderPath))
    ∧ (∀ objects, listExplorerObjects c bucketName folderPath = .ok objects →
      (SeesFolder c bucketName folderPath objects ↔ NoTwin c bucketName folderPath))
    ∧ (∀ objects, openFolderArchiveObjects c bucketName folderPath = .ok objects →
      (SeesFolder c bucketName folderPath objects ↔ NoTwin c bucketName folderPath)) := by
  refine ⟨fun _ _ _ h => movesFolder_iff h, fun objects h => ?_, fun objects h => ?_⟩
  · rw [listExplorerObjects_ok h]
    exact seesFolder_iff
  · rw [openFolderArchiveObjects_ok h]
    exact seesFolder_iff

/-! ## A folder with a wildcard in its name, beside a sibling -/

/-- A file with a key of the bucket. -/
def fileAt (id : Nat) (key : String) : Object :=
  { id := id, bucketName := "photos", objectKey := key,
    storagePath := "objects/" ++ key, size := 1 }

/-- The files of one folder, whose name holds a wildcard of `LIKE`. -/
def folderFiles : List Object := [fileAt 1 "my_docs/a.txt", fileAt 2 "my_docs/sub/b.txt"]

/-- The folder and a sibling that its name would match as an unescaped pattern. -/
def siblingFolders : Tables Collation.asciiCaseInsensitive where
  buckets := ⟨[{ id := 1, name := "photos" }], List.pairwise_singleton _ _⟩
  objects := ⟨folderFiles ++ [fileAt 3 "my-docs/c.txt"], by decide⟩
  nextBucketID := 2
  nextObjectID := 4

/-- The escaped pattern does not reach the sibling that the wildcard would match. -/
theorem list_siblingFolders :
    listActiveByPrefixOrdered siblingFolders "photos" "my_docs/" = folderFiles := by
  rw [listActiveByPrefixOrdered]
  have hselect : (siblingFolders.objects.select fun o =>
      Collation.asciiCaseInsensitive.eq o.bucketName "photos"
        && prefixFilter Collation.asciiCaseInsensitive "my_docs/" o) = folderFiles := by
    decide
  rw [hselect]
  exact List.mergeSort_of_pairwise (by decide)

theorem noTwin_siblingFolders : NoTwin siblingFolders "photos" "my_docs/" := by
  have hcases : ∀ o ∈ siblingFolders.objects.rows, hasPrefix o.objectKey "my_docs/" = true
      ∨ prefixFilter Collation.asciiCaseInsensitive "my_docs/" o = false := by decide
  intro o ho _ twin htwin
  rcases hcases o ho with hown | hmiss
  · exact no_twin_of_own hown htwin
  · refine Bool.eq_false_iff.mpr fun hstarts => ?_
    exact absurd (prefixFilter_iff.mpr (Or.inr ⟨twin, htwin, hstarts⟩)) (hmiss ▸ Bool.false_ne_true)

/-- The folder has no twin: the delete moves it and leaves its sibling, and the listing
    and the archive show it alone. -/
theorem folder_scope_siblings :
    (∃ c', deleteFolder siblingFolders "photos" "my_docs/" true 5 "group" = .ok c'
      ∧ MovesFolder siblingFolders c' "photos" "my_docs/" 5 "group")
    ∧ (∃ objects, listExplorerObjects siblingFolders "photos" "my_docs/" = .ok objects
      ∧ SeesFolder siblingFolders "photos" "my_docs/" objects)
    ∧ (∃ objects, openFolderArchiveObjects siblingFolders "photos" "my_docs/" = .ok objects
      ∧ SeesFolder siblingFolders "photos" "my_docs/" objects) := by
  obtain ⟨hmoves, hlists, harchives⟩ := folder_scope siblingFolders "photos" "my_docs/"
  have hdelete : ∃ c', deleteFolder siblingFolders "photos" "my_docs/" true 5 "group" = .ok c' := by
    refine exists_of_isOk ?_
    rw [deleteFolder, deleteFolderRecursive, list_siblingFolders]
    rfl
  have hlist : listExplorerObjects siblingFolders "photos" "my_docs/" = .ok folderFiles := by
    rw [listExplorerObjects, list_siblingFolders]
    rfl
  have harchive :
      openFolderArchiveObjects siblingFolders "photos" "my_docs/" = .ok folderFiles := by
    rw [openFolderArchiveObjects, list_siblingFolders]
    rfl
  refine ⟨?_, ⟨_, hlist, (hlists _ hlist).mpr noTwin_siblingFolders⟩,
    ⟨_, harchive, (harchives _ harchive).mpr noTwin_siblingFolders⟩⟩
  obtain ⟨c', hc'⟩ := hdelete
  exact ⟨c', hc', (hmoves _ _ _ hc').mpr noTwin_siblingFolders⟩

/-! ## Two folders that differ in case -/

/-- Two files whose folders differ in case. -/
def caseTwins : List Object := [fileAt 1 "docs/a.txt", fileAt 2 "Docs/b.txt"]

/-- `docs/a.txt` beside `Docs/b.txt`, under a collation without case. -/
def twoFolders : Tables Collation.asciiCaseInsensitive where
  buckets := ⟨[{ id := 1, name := "photos" }], List.pairwise_singleton _ _⟩
  objects := ⟨caseTwins, by decide⟩
  nextBucketID := 2
  nextObjectID := 3

/-- The pattern of one folder finds both files. -/
theorem list_twoFolders :
    listActiveByPrefixOrdered twoFolders "photos" "docs/" = caseTwins := by
  rw [listActiveByPrefixOrdered]
  have hselect : (twoFolders.objects.select fun o =>
      Collation.asciiCaseInsensitive.eq o.bucketName "photos"
        && prefixFilter Collation.asciiCaseInsensitive "docs/" o) = caseTwins := by
    decide
  rw [hselect]
  exact List.mergeSort_of_pairwise (by decide)

/-- The recursive delete of one of them commits. -/
theorem delete_twoFolders :
    ∃ c', deleteFolder twoFolders "photos" "docs/" true 5 "group" = .ok c' := by
  refine exists_of_isOk ?_
  rw [deleteFolder, deleteFolderRecursive, list_twoFolders]
  rfl

/-- `Docs/` is a twin of `docs/`, and a key starts with it. -/
theorem twin_twoFolders : ¬ NoTwin twoFolders "photos" "docs/" := by
  intro hnone
  have htwin : Twin Collation.asciiCaseInsensitive "docs/" "Docs/" := ⟨by decide, by decide⟩
  exact absurd (hnone (fileAt 2 "Docs/b.txt") (by decide) (by decide) "Docs/" htwin) (by decide)

/-- Deleting `docs/` moves `Docs/b.txt` too, and the listing and the archive of
    `docs/` show it. -/
theorem folder_scope_otherCase :
    (∃ c', deleteFolder twoFolders "photos" "docs/" true 5 "group" = .ok c'
      ∧ ¬ MovesFolder twoFolders c' "photos" "docs/" 5 "group")
    ∧ (∃ objects, listExplorerObjects twoFolders "photos" "docs/" = .ok objects
      ∧ ¬ SeesFolder twoFolders "photos" "docs/" objects)
    ∧ (∃ objects, openFolderArchiveObjects twoFolders "photos" "docs/" = .ok objects
      ∧ ¬ SeesFolder twoFolders "photos" "docs/" objects) := by
  have hsees : ¬ SeesFolder twoFolders "photos" "docs/" caseTwins := by
    rw [← list_twoFolders, seesFolder_iff]
    exact twin_twoFolders
  refine ⟨?_, ⟨_, ?_, hsees⟩, ⟨_, ?_, hsees⟩⟩
  · obtain ⟨c', hdelete⟩ := delete_twoFolders
    exact ⟨c', hdelete, fun hmoves => twin_twoFolders ((movesFolder_iff hdelete).mp hmoves)⟩
  · rw [listExplorerObjects, list_twoFolders]
    rfl
  · rw [openFolderArchiveObjects, list_twoFolders]
    rfl

end FolderScope
