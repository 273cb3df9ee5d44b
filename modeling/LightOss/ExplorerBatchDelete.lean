import LightOss.FolderScope
import LightOss.ObjectServices

/-! # Explorer batch delete — a list of files and folders, one after another

    `DeleteExplorerEntriesBatch` deletes its items one transaction at a time, in the
    order given.  An item that finds nothing is forgiven when an item that succeeded
    before it overlaps with it.  Under byte comparison the outcome does not depend on
    the order: what is left is what no item names.

    One item deletes what it names or finds nothing (`deleteEntry_cases`).  `Progress`
    describes the loop after some items; an item that finds something adds a group
    (`Progress.found`), one that does not is covered by an earlier success or named
    nothing from the start (`Progress.covered`, `Progress.uncovered`).  The state after
    `Progress.run` names the items as a set only. -/

namespace ExplorerBatchDelete

open KeyedTable Fallible LedgerRows Catalog Validation MetadataServices CatalogSpecs RecycleMoves
open FolderScope ObjectServices

variable {k : Collation}

def maxExplorerLimit : Nat := 200

structure DeleteExplorerEntriesBatchItemInput where
  type : String
  path : String
  deriving DecidableEq

structure DeleteExplorerEntriesBatchFailedItem where
  type : String
  path : String
  code : String
  message : String
  deriving DecidableEq

structure DeleteExplorerEntriesBatchOutput where
  deletedCount : Nat
  failedCount : Nat
  failedItems : List DeleteExplorerEntriesBatchFailedItem
  deriving DecidableEq

/-- `apperrors.From`: the code and the message. -/
def appErrorFrom (err : Err) : String × String :=
  match err with
  | .app _ code message => (code, message)
  | .wrapped _ code message _ => (code, message)
  | _ => ("internal_error", "internal server error")

/-! ## The items -/

/-- The checks of one item, after its type and path were trimmed. -/
def checkDeleteItem (item : DeleteExplorerEntriesBatchItemInput) : Except Err Unit :=
  if item.type = "file" then do
    ensure (hasSuffix item.path "/" = false) (invalidRequest "file path must not end with /")
    (validateUserObjectKey item.path).mapError fun err => invalidRequest (appErrorFrom err).2
  else if item.type = "directory" then do
    ensure (hasSuffix item.path "/" = true) (invalidRequest "directory path must end with /")
    (validateFolderPath item.path).mapError fun err => invalidRequest (appErrorFrom err).2
  else .error (invalidRequest "entry type must be file or directory")

/-- An item without the white space around its two texts. -/
def trimDeleteItem (item : DeleteExplorerEntriesBatchItemInput) :
    DeleteExplorerEntriesBatchItemInput :=
  { type := trimSpace item.type, path := trimSpace item.path }

/-- `validateDeleteExplorerEntriesBatchItems`: the first item that is malformed ends the
    request. -/
def validateDeleteExplorerEntriesBatchItems (items : List DeleteExplorerEntriesBatchItemInput) :
    Except Err (List DeleteExplorerEntriesBatchItemInput) := do
  ensure (items ≠ []) (invalidRequest "items must contain at least one entry")
  ensure (items.length ≤ maxExplorerLimit) (invalidRequest "items must contain at most 200 entries")
  (items.map trimDeleteItem).forM checkDeleteItem
  return items.map trimDeleteItem

/-- An earlier success that explains why nothing was found. -/
def isCoveredDeleteExplorerEntriesBatchNotFound (item : DeleteExplorerEntriesBatchItemInput)
    (err : Err) (items : List DeleteExplorerEntriesBatchItemInput) : Bool :=
  let code := (appErrorFrom err).1
  (code == "object_not_found" || code == "folder_not_found")
    && items.any fun successfulItem =>
      successfulItem.path == item.path
        || (successfulItem.type == "directory" && hasPrefix item.path successfulItem.path)
        || (item.type == "directory" && hasPrefix successfulItem.path item.path)

/-! ## The loop -/

/-- What `time.Now` and `newRecycleBinDeleteGroupID` return for one item. -/
structure Stamp where
  deletedAt : Time
  deleteGroupID : String

/-- `deleteEntry`: a file and a folder go different ways. -/
def deleteEntry (c : Tables k) (bucketName : String) (item : DeleteExplorerEntriesBatchItemInput)
    (stamp : Stamp) : Except Err (Tables k) :=
  if item.type = "file" then
    ObjectServices.delete c bucketName item.path stamp.deletedAt stamp.deleteGroupID
  else if item.type = "directory" then
    MetadataServices.deleteFolder c bucketName item.path true stamp.deletedAt stamp.deleteGroupID
  else .error (invalidRequest "entry type is invalid")

/-- The tables and the variables of the loop. -/
structure BatchState (k : Collation) where
  tables : Tables k
  deletedCount : Nat := 0
  failedItems : List DeleteExplorerEntriesBatchFailedItem := []
  successfulItems : List DeleteExplorerEntriesBatchItemInput := []

/-- One turn of the loop. -/
def deleteItem (bucketName : String) (stamp : Stamp) (s : BatchState k)
    (item : DeleteExplorerEntriesBatchItemInput) : BatchState k :=
  match deleteEntry s.tables bucketName item stamp with
  | .ok c =>
      { s with
        tables := c
        deletedCount := s.deletedCount + 1
        successfulItems := s.successfulItems ++ [item] }
  | .error err =>
      if isCoveredDeleteExplorerEntriesBatchNotFound item err s.successfulItems then
        { s with
          deletedCount := s.deletedCount + 1
          successfulItems := s.successfulItems ++ [item] }
      else
        { s with
          failedItems := s.failedItems ++ [{ type := item.type, path := item.path
                                             code := (appErrorFrom err).1
                                             message := (appErrorFrom err).2 }] }

/-- The loop; the item at position `i` gets the stamp `i`. -/
def deleteItems (bucketName : String) (stamp : Nat → Stamp) (s : BatchState k)
    (items : List DeleteExplorerEntriesBatchItemInput) : BatchState k :=
  items.zipIdx.foldl (fun s entry => deleteItem bucketName (stamp entry.2) s entry.1) s

/-- `ObjectService.DeleteExplorerEntriesBatch`. -/
def deleteExplorerEntriesBatch (c : Tables k) (bucketName : String)
    (items : List DeleteExplorerEntriesBatchItemInput) (stamp : Nat → Stamp) :
    Except Err (Tables k × DeleteExplorerEntriesBatchOutput) := do
  validateBucketName bucketName
  ensureBucketExists c bucketName
  let normalizedItems ← validateDeleteExplorerEntriesBatchItems items
  let s := deleteItems bucketName stamp { tables := c } normalizedItems
  return (s.tables, { deletedCount := s.deletedCount
                      failedCount := s.failedItems.length
                      failedItems := s.failedItems })

/-! ## What the items name -/

/-- The objects an item names, byte for byte: the file with its path or the objects
    under it. -/
def names (bucketName : String) (item : DeleteExplorerEntriesBatchItemInput) (o : Object) : Bool :=
  o.bucketName == bucketName
    && if item.type = "directory" then hasPrefix o.objectKey item.path
      else o.objectKey == item.path

/-- The objects that some item names. -/
def named (bucketName : String) (items : List DeleteExplorerEntriesBatchItemInput) (o : Object) :
    Bool :=
  items.any fun item => names bucketName item o

theorem names_file {bucketName : String} {item : DeleteExplorerEntriesBatchItemInput} {o : Object}
    (htype : item.type ≠ "directory") :
    names bucketName item o = true ↔ o.bucketName = bucketName ∧ o.objectKey = item.path := by
  rw [names, if_neg htype, Bool.and_eq_true, beq_iff_eq, beq_iff_eq]

/-- A folder item names all keys that begin with its path. -/
theorem names_directory {bucketName : String} {item : DeleteExplorerEntriesBatchItemInput}
    {o : Object} (htype : item.type = "directory") :
    names bucketName item o = true
      ↔ o.bucketName = bucketName ∧ hasPrefix o.objectKey item.path = true := by
  rw [names, if_pos htype, Bool.and_eq_true, beq_iff_eq]

theorem sameKey_binary {bucketName objectKey : String} {o : Object} :
    sameKey Collation.binary bucketName objectKey o = true
      ↔ o.bucketName = bucketName ∧ o.objectKey = objectKey := by
  rw [sameKey, Bool.and_eq_true, Collation.eq_binary, Collation.eq_binary]

/-- Byte for byte a path has no twin. -/
theorem noTwin_binary (c : Tables Collation.binary) (bucketName folderPath : String) :
    NoTwin c bucketName folderPath := by
  intro o _ _ twin htwin
  have hsame : folderPath.toList = twin.toList :=
    List.forall₂_eq_eq_eq ▸ htwin.2.imp fun _ _ hcd => beq_iff_eq.mp hcd
  exact absurd (String.toList_inj.mp hsame).symm htwin.1

/-- The accepted items are those that all pass the check once they are trimmed. -/
theorem validateItems_eq_ok {items normalized : List DeleteExplorerEntriesBatchItemInput} :
    validateDeleteExplorerEntriesBatchItems items = .ok normalized
      ↔ (items ≠ [] ∧ items.length ≤ maxExplorerLimit
        ∧ ∀ item ∈ items, checkDeleteItem (trimDeleteItem item) = .ok ())
        ∧ items.map trimDeleteItem = normalized := by
  rw [validateDeleteExplorerEntriesBatchItems]
  constructor
  · intro h
    obtain ⟨_, hne, h⟩ := bind_eq_ok.mp h
    obtain ⟨_, hlen, h⟩ := bind_eq_ok.mp h
    obtain ⟨_, hcheck, h⟩ := bind_eq_ok.mp h
    refine ⟨⟨ensure_eq_ok.mp hne, ensure_eq_ok.mp hlen, fun item hitem => ?_⟩, pure_eq_ok.mp h⟩
    exact forM_eq_ok.mp hcheck _ (List.mem_map_of_mem hitem)
  · rintro ⟨⟨hne, hlen, hcheck⟩, rfl⟩
    refine bind_eq_ok.mpr ⟨(), ensure_eq_ok.mpr hne, ?_⟩
    refine bind_eq_ok.mpr ⟨(), ensure_eq_ok.mpr hlen, ?_⟩
    refine bind_eq_ok.mpr ⟨(), forM_eq_ok.mpr fun item hitem => ?_, rfl⟩
    obtain ⟨a, ha, rfl⟩ := List.mem_map.mp hitem
    exact hcheck a ha

/-- An accepted item is a file with a user's key or a folder with an accepted path. -/
theorem checkDeleteItem_ok {item : DeleteExplorerEntriesBatchItemInput}
    (h : checkDeleteItem item = .ok ()) :
    (item.type = "file" ∧ validateObjectKey item.path = .ok ())
      ∨ (item.type = "directory" ∧ validateFolderPath item.path = .ok ()) := by
  rw [checkDeleteItem] at h
  split at h
  · next htype =>
      obtain ⟨_, -, h⟩ := bind_eq_ok.mp h
      have hkey := mapError_eq_ok.mp h
      rw [validateUserObjectKey] at hkey
      obtain ⟨_, hkey, -⟩ := bind_eq_ok.mp hkey
      exact Or.inl ⟨htype, hkey⟩
  · split at h
    · next htype =>
        obtain ⟨_, -, h⟩ := bind_eq_ok.mp h
        exact Or.inr ⟨htype, mapError_eq_ok.mp h⟩
    · cases h

/-! ## One item -/

/-- The rows one item adds to the recycle bin. -/
structure RecycleGroup where
  stamp : Stamp
  objects : List Object
  synthetic : List RecycleBinObject

/-- The rows a delete writes: an image of each object and the marker it made up. -/
def RecycleGroup.rows (g : RecycleGroup) : List RecycleBinObject :=
  g.objects.map (recycleBinObjectFromObject · g.stamp.deletedAt g.stamp.deleteGroupID)
    ++ g.synthetic

/-- A group makes up at most a folder marker, which stands for no object. -/
def RecycleGroup.MarkerOnly (bucketName : String) (g : RecycleGroup) : Prop :=
  g.synthetic = [] ∨ ∃ folderPath, g.synthetic = [syntheticRecycleBinDirectoryObject bucketName
    folderPath g.stamp.deletedAt g.stamp.deleteGroupID]

variable {c c' : Tables Collation.binary} {bucketName : String}
variable {item : DeleteExplorerEntriesBatchItemInput}

/-- The item found objects, and they moved as one group. -/
structure Deleted (c c' : Tables Collation.binary) (bucketName : String)
    (item : DeleteExplorerEntriesBatchItemInput) (g : RecycleGroup) : Prop where
  moved : ∃ found, Moved c c' found g.rows ∧ g.objects.Perm found ∧ found ≠ []
    ∧ ∀ o, o ∈ found ↔ o ∈ c.objects.rows ∧ names bucketName item o = true
  nodup : g.objects.Nodup
  marker : g.MarkerOnly bucketName

/-- **A file item** deletes what it names, or finds nothing and says so. -/
theorem deleteEntry_file (stamp : Stamp) (hname : validateBucketName bucketName = .ok ())
    (hbucket : bucketExists c bucketName = true) (hids : RecycleIDs c)
    (htype : item.type = "file") (hkey : validateObjectKey item.path = .ok ()) :
    (∃ c' g, deleteEntry c bucketName item stamp = .ok c' ∧ Deleted c c' bucketName item g
        ∧ g.stamp = stamp)
      ∨ ((∀ o ∈ c.objects.rows, names bucketName item o = false)
        ∧ deleteEntry c bucketName item stamp
          = .error (.app 404 "object_not_found" "object not found")) := by
  have hdir : item.type ≠ "directory" := by
    rw [htype]
    decide
  have hrun : deleteEntry c bucketName item stamp
      = deleteObject c bucketName item.path stamp.deletedAt stamp.deleteGroupID := by
    rw [deleteEntry, if_pos htype, ObjectServices.delete, hname, hkey]
    rfl
  rw [hrun]
  -- there is at most one object under a key
  by_cases hfind : ∃ o ∈ c.objects.rows, names bucketName item o = true
  · obtain ⟨object, ho, hnames⟩ := hfind
    have hsame := sameKey_binary.mpr ((names_file hdir).mp hnames)
    have hobject : bucketExists c object.bucketName = true := by
      rw [((names_file hdir).mp hnames).1]
      exact hbucket
    obtain ⟨c', hdelete, hmoved⟩ :=
      deleteObject_found stamp.deletedAt stamp.deleteGroupID hids ho hsame hobject
    refine Or.inl ⟨c', ⟨stamp, [object], []⟩, hdelete, ⟨⟨[object], hmoved, .refl _, nofun, ?_⟩,
      List.nodup_singleton _, Or.inl rfl⟩, rfl⟩
    intro o
    rw [List.mem_singleton]
    constructor
    · rintro rfl
      exact ⟨ho, hnames⟩
    · rintro ⟨hmem, hother⟩
      exact eq_of_sameKey hmem ho (sameKey_binary.mpr ((names_file hdir).mp hother)) hsame
  · have hnone : ∀ o ∈ c.objects.rows, names bucketName item o = false :=
      fun o ho => Bool.eq_false_iff.mpr fun hnames => hfind ⟨o, ho, hnames⟩
    refine Or.inr ⟨hnone, deleteObject_missing _ _ fun o ho => ?_⟩
    rw [← hnone o ho, Bool.eq_iff_iff, sameKey_binary, names_file hdir]

/-- **A folder item** deletes what it names, or finds nothing and says so. -/
theorem deleteEntry_directory (stamp : Stamp) (hname : validateBucketName bucketName = .ok ())
    (hbucket : bucketExists c bucketName = true) (hids : RecycleIDs c)
    (htype : item.type = "directory") (hpath : validateFolderPath item.path = .ok ()) :
    (∃ c' g, deleteEntry c bucketName item stamp = .ok c' ∧ Deleted c c' bucketName item g
        ∧ g.stamp = stamp)
      ∨ ((∀ o ∈ c.objects.rows, names bucketName item o = false)
        ∧ deleteEntry c bucketName item stamp
          = .error (.app 404 "folder_not_found" "folder not found")) := by
  have hrun : deleteEntry c bucketName item stamp = deleteFolder c bucketName item.path true
      stamp.deletedAt stamp.deleteGroupID := by
    rw [deleteEntry, if_neg (by rw [htype]; decide), if_pos htype]
  have hrows := (listActiveByPrefixOrdered_rows c bucketName item.path).2
  have hsees : ∀ o, o ∈ listActiveByPrefixOrdered c bucketName item.path
      ↔ o ∈ c.objects.rows ∧ names bucketName item o = true := by
    intro o
    rw [seesFolder_iff.mpr (noTwin_binary c bucketName item.path) o,
      names_directory htype, InFolder,
      Collation.eq_binary]
  rw [hrun]
  -- by byte comparison the query finds what the item names
  by_cases hnil : listActiveByPrefixOrdered c bucketName item.path = []
  · refine Or.inr ⟨fun o ho => Bool.eq_false_iff.mpr fun hnames => ?_,
      deleteFolder_missing _ _ hname hpath hnil⟩
    have hfound := (hsees o).mpr ⟨ho, hnames⟩
    rw [hnil] at hfound
    exact nomatch hfound
  · have hin : ∀ o ∈ listActiveByPrefixOrdered c bucketName item.path,
        bucketExists c o.bucketName = true := by
      intro o ho
      rw [((names_directory htype).mp ((hsees o).mp ho).2).1]
      exact hbucket
    obtain ⟨c', hdelete⟩ :=
      deleteFolderRecursive_found stamp.deletedAt stamp.deleteGroupID hids hnil hin
    obtain ⟨moved, owner, ⟨first, hfirst, howner⟩, hperm, hmoved⟩ :=
      deleteFolderRecursive_moves hdelete
    rw [((names_directory htype).mp ((hsees first).mp hfirst).2).1] at howner
    have hnd := (listActiveByPrefixOrdered_rows c bucketName item.path).1
    refine Or.inl ⟨c', ⟨stamp, moved, _⟩, ?_, ⟨⟨_, hmoved, hperm, hnil, hsees⟩,
      hperm.nodup_iff.mpr hnd, ?_⟩, rfl⟩
    · rw [deleteFolder, hname, hpath]
      exact mapError_eq_ok.mpr hdelete
    · rw [howner]
      exact (syntheticMarker_cases _ _ _ _ _).imp id fun hmarker => ⟨_, hmarker⟩

/-- What a failed item reports when it names no object. -/
def NotFound (err : Err) : Prop :=
  (appErrorFrom err).1 = "object_not_found" ∨ (appErrorFrom err).1 = "folder_not_found"

/-- **One item.**  It deletes the objects it names, or it names none and says so. -/
theorem deleteEntry_cases (stamp : Stamp) (hname : validateBucketName bucketName = .ok ())
    (hbucket : bucketExists c bucketName = true) (hids : RecycleIDs c)
    (hitem : checkDeleteItem item = .ok ()) :
    (∃ c' g, deleteEntry c bucketName item stamp = .ok c' ∧ Deleted c c' bucketName item g
        ∧ g.stamp = stamp)
      ∨ ((∀ o ∈ c.objects.rows, names bucketName item o = false)
        ∧ ∃ err, deleteEntry c bucketName item stamp = .error err ∧ NotFound err) := by
  rcases checkDeleteItem_ok hitem with ⟨htype, hkey⟩ | ⟨htype, hpath⟩
  · rcases deleteEntry_file stamp hname hbucket hids htype hkey with hfound | ⟨hnone, herr⟩
    · exact Or.inl hfound
    · exact Or.inr ⟨hnone, _, herr, Or.inl rfl⟩
  · rcases deleteEntry_directory stamp hname hbucket hids htype hpath with hfound | ⟨hnone, herr⟩
    · exact Or.inl hfound
    · exact Or.inr ⟨hnone, _, herr, Or.inr rfl⟩

/-- An item and a success that name one object overlap in one of the three ways the
    coverage test looks for. -/
theorem covered_of_common {done : DeleteExplorerEntriesBatchItemInput} {o : Object}
    {items : List DeleteExplorerEntriesBatchItemInput} (hmem : done ∈ items)
    (hdone : names bucketName done o = true) (hitem : names bucketName item o = true) {err : Err}
    (herr : NotFound err) :
    isCoveredDeleteExplorerEntriesBatchNotFound item err items = true := by
  rw [isCoveredDeleteExplorerEntriesBatchNotFound, Bool.and_eq_true, Bool.or_eq_true, beq_iff_eq,
    beq_iff_eq]
  refine ⟨herr, List.any_eq_true.mpr ⟨done, hmem, ?_⟩⟩
  rw [Bool.or_eq_true, Bool.or_eq_true, Bool.and_eq_true, Bool.and_eq_true, beq_iff_eq, beq_iff_eq,
    beq_iff_eq]
  by_cases hdoneDir : done.type = "directory"
  · have hdone := ((names_directory hdoneDir).mp hdone).2
    by_cases hitemDir : item.type = "directory"
    · -- two folders of one key: the longer path lies in the shorter one
      have hitem := ((names_directory hitemDir).mp hitem).2
      rcases List.prefix_or_prefix_of_prefix (hasPrefix_iff.mp hdone) (hasPrefix_iff.mp hitem) with
        hsub | hsub
      · exact Or.inl (Or.inr ⟨hdoneDir, hasPrefix_iff.mpr hsub⟩)
      · exact Or.inr ⟨hitemDir, hasPrefix_iff.mpr hsub⟩
    · rw [((names_file hitemDir).mp hitem).2] at hdone
      exact Or.inl (Or.inr ⟨hdoneDir, hdone⟩)
  · have hdone := ((names_file hdoneDir).mp hdone).2
    by_cases hitemDir : item.type = "directory"
    · have hitem := ((names_directory hitemDir).mp hitem).2
      rw [hdone] at hitem
      exact Or.inr ⟨hitemDir, hitem⟩
    · exact Or.inl (Or.inl (hdone.symm.trans ((names_file hitemDir).mp hitem).2))

/-! ## The loop -/

/-- The new rows of the recycle bin, one group for each item that found objects. -/
structure NewGroups (c c' : Tables Collation.binary) (bucketName : String)
    (items : List DeleteExplorerEntriesBatchItemInput) (stamps : List Stamp)
    (groups : List RecycleGroup) : Prop where
  rows : c'.recycleBin.rows
    = c.recycleBin.rows ++ withIDs c.nextRecycleID (groups.flatMap RecycleGroup.rows)
  nextRecycleID : c'.nextRecycleID = c.nextRecycleID + (groups.flatMap RecycleGroup.rows).length
  objects :
    (groups.flatMap RecycleGroup.objects).Perm (c.objects.rows.filter (named bucketName items))
  markers : ∀ g ∈ groups, g.MarkerOnly bucketName
  stamps : (groups.map RecycleGroup.stamp).Sublist stamps

/-- The state of the loop after the items `done`. -/
structure Progress (c : Tables Collation.binary) (bucketName : String) (stamps : List Stamp)
    (done : List DeleteExplorerEntriesBatchItemInput) (s : BatchState Collation.binary) : Prop where
  objects : s.tables.objects.rows = c.objects.rows.filter fun o => !named bucketName done o
  buckets : s.tables.buckets = c.buckets
  ids : RecycleIDs s.tables
  counts : s.deletedCount + s.failedItems.length = done.length
  failed : ∀ f ∈ s.failedItems, ∃ item ∈ done, f.type = item.type ∧ f.path = item.path
    ∧ ∀ o ∈ c.objects.rows, names bucketName item o = false
  successful : ∀ item ∈ done, ∀ o ∈ c.objects.rows, names bucketName item o = true →
    item ∈ s.successfulItems
  groups : ∃ groups, NewGroups c s.tables bucketName done stamps groups

variable {stamps : List Stamp} {done : List DeleteExplorerEntriesBatchItemInput}
variable {s : BatchState Collation.binary}

theorem named_concat (bucketName : String) (done : List DeleteExplorerEntriesBatchItemInput)
    (item : DeleteExplorerEntriesBatchItemInput) (o : Object) :
    named bucketName (done ++ [item]) o = (named bucketName done o || names bucketName item o) := by
  rw [named, List.any_append, List.any_cons, List.any_nil, Bool.or_false]
  rfl

/-- What the next item finds is what no item before it named. -/
theorem filter_or_perm {α : Type} (p q : α → Bool) (l : List α) :
    (l.filter fun a => p a || q a).Perm (l.filter p ++ (l.filter fun a => !p a).filter q) := by
  have hsplit := (List.filter_append_perm p l).filter fun a => p a || q a
  rw [List.filter_append, List.filter_filter, List.filter_filter] at hsplit
  rw [List.filter_filter]
  have hleft : (l.filter fun a => (p a || q a) && p a) = l.filter p :=
    List.filter_congr fun a _ => by cases p a <;> simp
  have hright : (l.filter fun a => (p a || q a) && !p a) = l.filter fun a => q a && !p a :=
    List.filter_congr fun a _ => by cases p a <;> simp
  rw [hleft, hright] at hsplit
  exact hsplit.symm

/-- A round whose item finds something adds a group. -/
theorem Progress.found (h : Progress c bucketName stamps done s) {g : RecycleGroup}
    (hdeleted : Deleted s.tables c' bucketName item g) :
    Progress c bucketName (stamps ++ [g.stamp]) (done ++ [item])
      { s with
        tables := c'
        deletedCount := s.deletedCount + 1
        successfulItems := s.successfulItems ++ [item] } := by
  obtain ⟨found, hmoved, hperm, -, hfound⟩ := hdeleted.moved
  have hrest := h.objects
  constructor
  · show c'.objects.rows = _
    rw [hmoved.filter_eq hfound, hrest, List.filter_filter]
    refine List.filter_congr fun o _ => ?_
    rw [named_concat, Bool.not_or, Bool.and_comm]
  · exact hmoved.buckets.trans h.buckets
  · exact hmoved.recycleIDs h.ids
  · have hcounts := h.counts
    simp only [List.length_append, List.length_singleton]
    omega
  · intro f hf
    obtain ⟨a, ha, hrow⟩ := h.failed f hf
    exact ⟨a, List.mem_append_left _ ha, hrow⟩
  · intro a ha o ho hnames
    rcases List.mem_append.mp ha with ha | ha
    · exact List.mem_append_left _ (h.successful a ha o ho hnames)
    · exact List.mem_append_right _ ha
  -- one more group, with objects no group before it has
  · obtain ⟨groups, hgroups⟩ := h.groups
    refine ⟨groups ++ [g], ?_, ?_, ?_, ?_, ?_⟩
    · show c'.recycleBin.rows = _
      rw [hmoved.recycleBin, hgroups.rows, hgroups.nextRecycleID, List.flatMap_append,
        List.flatMap_singleton, withIDs_append, List.append_assoc]
    · show c'.nextRecycleID = _
      rw [hmoved.nextRecycleID, hgroups.nextRecycleID, List.flatMap_append, List.flatMap_singleton,
        List.length_append, Nat.add_assoc]
    · have hnew : found.Perm ((c.objects.rows.filter fun o => !named bucketName done o).filter
          (names bucketName item)) := by
        have hnd := hperm.nodup_iff.mp hdeleted.nodup
        refine (List.perm_ext_iff_of_nodup hnd
          ((c.objects.rows_nodup.filter _).filter _)).mpr fun o => ?_
        rw [hfound, hrest, List.mem_filter (p := names bucketName item)]
      have hsplit := filter_or_perm (named bucketName done) (names bucketName item) c.objects.rows
      rw [List.flatMap_append, List.flatMap_singleton]
      have hboth := (hgroups.objects.append (hperm.trans hnew)).trans hsplit.symm
      rwa [List.filter_congr fun o _ => (named_concat bucketName done item o).symm] at hboth
    · intro a ha
      rcases List.mem_append.mp ha with ha | ha
      · exact hgroups.markers a ha
      · rw [List.mem_singleton.mp ha]
        exact hdeleted.marker
    · rw [List.map_append]
      exact hgroups.stamps.append (.refl _)

/-- What stays true of the tables when an item finds nothing. -/
theorem NewGroups.missing {groups : List RecycleGroup} (stamp : Stamp)
    (h : NewGroups c c' bucketName done stamps groups)
    (hsame : ∀ o ∈ c.objects.rows, named bucketName (done ++ [item]) o = named bucketName done o) :
    NewGroups c c' bucketName (done ++ [item]) (stamps ++ [stamp]) groups where
  rows := h.rows
  nextRecycleID := h.nextRecycleID
  objects := by
    rw [List.filter_congr hsame]
    exact h.objects
  markers := h.markers
  stamps := h.stamps.trans (List.sublist_append_left _ _)

/-- When an item finds nothing, the objects it names were named before. -/
theorem named_of_missing (h : Progress c bucketName stamps done s)
    (hnone : ∀ o ∈ s.tables.objects.rows, names bucketName item o = false) {o : Object}
    (ho : o ∈ c.objects.rows) (hnames : names bucketName item o = true) :
    named bucketName done o = true := by
  by_contra hnot
  have hstays : o ∈ s.tables.objects.rows := by
    rw [h.objects, List.mem_filter, Bool.not_eq_true']
    exact ⟨ho, Bool.not_eq_true _ ▸ hnot⟩
  exact absurd (hnone o hstays ▸ hnames) Bool.false_ne_true

/-- An item that finds nothing names only what items before it named. -/
theorem named_missing_eq (h : Progress c bucketName stamps done s)
    (hnone : ∀ o ∈ s.tables.objects.rows, names bucketName item o = false) :
    ∀ o ∈ c.objects.rows, named bucketName (done ++ [item]) o = named bucketName done o := by
  intro o ho
  rw [named_concat]
  cases hnames : names bucketName item o with
  | false => exact Bool.or_false _
  | true => rw [named_of_missing h hnone ho hnames, Bool.true_or]

/-- A round whose item finds nothing, but an earlier success overlaps: it counts as deleted. -/
theorem Progress.covered (h : Progress c bucketName stamps done s) (stamp : Stamp)
    (hnone : ∀ o ∈ s.tables.objects.rows, names bucketName item o = false) :
    Progress c bucketName (stamps ++ [stamp]) (done ++ [item])
      { s with
        deletedCount := s.deletedCount + 1
        successfulItems := s.successfulItems ++ [item] } := by
  have hsame := named_missing_eq h hnone
  refine ⟨?_, h.buckets, h.ids, ?_, fun f hf => ?_, fun a ha o ho hnames => ?_, ?_⟩
  · rw [List.filter_congr fun o ho => congrArg not (hsame o ho)]
    exact h.objects
  · have hcounts := h.counts
    simp only [List.length_append, List.length_singleton]
    omega
  · obtain ⟨a, ha, hrow⟩ := h.failed f hf
    exact ⟨a, List.mem_append_left _ ha, hrow⟩
  · rcases List.mem_append.mp ha with ha | ha
    · exact List.mem_append_left _ (h.successful a ha o ho hnames)
    · exact List.mem_append_right _ ha
  · obtain ⟨groups, hgroups⟩ := h.groups
    exact ⟨groups, hgroups.missing stamp hsame⟩

/-- An item that is reported as failed named no object before the call: whoever
    deleted it would cover the item. -/
theorem Progress.uncovered (h : Progress c bucketName stamps done s) (stamp : Stamp) {err : Err}
    (herr : NotFound err) (hnone : ∀ o ∈ s.tables.objects.rows, names bucketName item o = false)
    (hcovered : isCoveredDeleteExplorerEntriesBatchNotFound item err s.successfulItems = false) :
    Progress c bucketName (stamps ++ [stamp]) (done ++ [item])
      { s with
        failedItems := s.failedItems ++ [{ type := item.type, path := item.path
                                           code := (appErrorFrom err).1
                                           message := (appErrorFrom err).2 }] } := by
  have hsame := named_missing_eq h hnone
  have hfree : ∀ o ∈ c.objects.rows, names bucketName item o = false := by
    refine fun o ho => Bool.eq_false_iff.mpr fun hnames => ?_
    obtain ⟨a, ha, hother⟩ := List.any_eq_true.mp (named_of_missing h hnone ho hnames)
    have hmem := h.successful a ha o ho hother
    exact absurd (hcovered ▸ covered_of_common hmem hother hnames herr) Bool.false_ne_true
  refine ⟨?_, h.buckets, h.ids, ?_, fun f hf => ?_, fun a ha o ho hnames => ?_, ?_⟩
  · rw [List.filter_congr fun o ho => congrArg not (hsame o ho)]
    exact h.objects
  · have hcounts := h.counts
    simp only [List.length_append, List.length_singleton]
    omega
  · rcases List.mem_append.mp hf with hf | hf
    · obtain ⟨a, ha, hrow⟩ := h.failed f hf
      exact ⟨a, List.mem_append_left _ ha, hrow⟩
    · rw [List.mem_singleton.mp hf]
      exact ⟨item, List.mem_append_right _ List.mem_cons_self, rfl, rfl, hfree⟩
  · rcases List.mem_append.mp ha with ha | ha
    · exact h.successful a ha o ho hnames
    · rw [List.mem_singleton.mp ha] at hnames
      exact absurd (hfree o ho ▸ hnames) Bool.false_ne_true
  · obtain ⟨groups, hgroups⟩ := h.groups
    exact ⟨groups, hgroups.missing stamp hsame⟩

/-- **One turn of the loop.** -/
theorem Progress.turn (h : Progress c bucketName stamps done s) (stamp : Stamp)
    (hname : validateBucketName bucketName = .ok ()) (hbucket : bucketExists c bucketName = true)
    (hitem : checkDeleteItem item = .ok ()) :
    Progress c bucketName (stamps ++ [stamp]) (done ++ [item])
        (deleteItem bucketName stamp s item) := by
  have hbucket' : bucketExists s.tables bucketName = true := by
    rw [bucketExists, h.buckets]
    exact hbucket
  rw [deleteItem]
  rcases deleteEntry_cases stamp hname hbucket' h.ids hitem with
    ⟨c', g, hrun, hdeleted, rfl⟩ | ⟨hnone, err, hrun, herr⟩
  · rw [hrun]
    exact h.found hdeleted
  · rw [hrun]
    show Progress c bucketName _ _ (if _ then _ else _)
    cases hcovered : isCoveredDeleteExplorerEntriesBatchNotFound item err s.successfulItems with
    | true =>
        rw [if_pos rfl]
        exact h.covered stamp hnone
    | false =>
        rw [if_neg Bool.false_ne_true]
        exact h.uncovered stamp herr hnone hcovered

/-- **The loop.** -/
theorem Progress.run (stamp : Nat → Stamp) (hname : validateBucketName bucketName = .ok ())
    (hbucket : bucketExists c bucketName = true) :
    ∀ (items done : List DeleteExplorerEntriesBatchItemInput) {s : BatchState Collation.binary},
      (∀ item ∈ items, checkDeleteItem item = .ok ()) →
      Progress c bucketName ((List.range done.length).map stamp) done s →
      Progress c bucketName ((List.range (done ++ items).length).map stamp) (done ++ items)
        ((items.zipIdx done.length).foldl
          (fun s entry => deleteItem bucketName (stamp entry.2) s entry.1) s) := by
  intro items
  induction items with
  | nil =>
      intro done s _ h
      rw [List.append_nil]
      exact h
  | cons item rest ih =>
      intro done s hitems h
      have hturn := h.turn (stamp done.length) hname hbucket (hitems item List.mem_cons_self)
      have hlen : (done ++ [item]).length = done.length + 1 := List.length_append
      have hstamps : (List.range done.length).map stamp ++ [stamp done.length]
          = (List.range (done ++ [item]).length).map stamp := by
        rw [hlen, List.range_succ, List.map_append, List.map_singleton]
      rw [hstamps] at hturn
      have hrest := ih (done ++ [item]) (fun a ha => hitems a (List.mem_cons_of_mem _ ha)) hturn
      rw [List.append_assoc, List.singleton_append, hlen] at hrest
      exact hrest

/-! ## The whole call -/

/-- What an item as the caller wrote it names: its type is trimmed, its path is not. -/
def Target (bucketName : String) (item : DeleteExplorerEntriesBatchItemInput) (o : Object) : Prop :=
  o.bucketName = bucketName
    ∧ ((trimSpace item.type = "file" ∧ o.objectKey = item.path)
      ∨ (trimSpace item.type = "directory" ∧ hasPrefix o.objectKey item.path = true))

/-- What a batch delete of `items` leaves behind, whatever overlaps with what. -/
structure BatchDeleted (c c' : Tables Collation.binary) (bucketName : String)
    (items : List DeleteExplorerEntriesBatchItemInput) (stamp : Nat → Stamp)
    (out : DeleteExplorerEntriesBatchOutput) : Prop where
  objects : ∀ o, o ∈ c'.objects.rows
    ↔ o ∈ c.objects.rows ∧ ∀ item ∈ items, ¬ Target bucketName item o
  failed : ∀ item ∈ items, (∃ o ∈ c.objects.rows, Target bucketName item o) →
    ∀ f ∈ out.failedItems, ¬ (f.type = trimSpace item.type ∧ f.path = item.path)
  counts : out.deletedCount + out.failedCount = items.length
    ∧ out.failedCount = out.failedItems.length
  groups : ∃ groups : List RecycleGroup,
    c'.recycleBin.rows = c.recycleBin.rows
      ++ withIDs c.nextRecycleID (groups.flatMap RecycleGroup.rows)
    ∧ (∀ g ∈ groups, g.MarkerOnly bucketName)
    ∧ (groups.map RecycleGroup.stamp).Sublist ((List.range items.length).map stamp)
    ∧ (∀ g ∈ groups, g.objects.Nodup ∧ ∀ o ∈ g.objects, o ∈ c.objects.rows ∧ o ∉ c'.objects.rows)
    ∧ ∀ o ∈ c.objects.rows, o ∉ c'.objects.rows →
      ∃! i : Fin groups.length, o ∈ (groups.get i).objects

/-- In a flat list without repetition every element has one source. -/
theorem existsUnique_source {α β : Type} {f : α → List β} {l : List α} {b : β}
    (hnd : (l.flatMap f).Nodup) (hb : b ∈ l.flatMap f) : ∃! i : Fin l.length, b ∈ f (l.get i) := by
  obtain ⟨a, ha, hab⟩ := List.mem_flatMap.mp hb
  obtain ⟨i, rfl⟩ := List.get_of_mem ha
  refine ⟨i, hab, fun j hj => ?_⟩
  have hdisj := List.pairwise_iff_get.mp (List.nodup_flatMap.mp hnd).2
  rcases Nat.lt_trichotomy j i with hlt | heq | hlt
  · exact absurd hab (hdisj j i hlt hj)
  · exact Fin.ext heq
  · exact absurd hj (hdisj i j hlt hab)

/-- For an item whose path is written without surrounding white space the trimmed
    item names the item's own objects. -/
theorem names_trimmed (hspace : trimSpace item.path = item.path)
    (hcheck : checkDeleteItem (trimDeleteItem item) = .ok ()) (o : Object) :
    names bucketName (trimDeleteItem item) o = true ↔ Target bucketName item o := by
  rcases checkDeleteItem_ok hcheck with ⟨htype, -⟩ | ⟨htype, -⟩
  · rw [names_file (by rw [htype]; decide), Target]
    show _ ∧ o.objectKey = trimSpace item.path ↔ _
    have htype : trimSpace item.type = "file" := htype
    simp [hspace, htype]
  · rw [names_directory htype, Target]
    show _ ∧ hasPrefix o.objectKey (trimSpace item.path) = true ↔ _
    have htype : trimSpace item.type = "directory" := htype
    simp [hspace, htype]

/-- The state the loop starts in. -/
theorem progress_start (hids : RecycleIDs c) :
    Progress c bucketName [] [] { tables := c } where
  objects := (List.filter_eq_self.mpr fun _ _ => rfl).symm
  buckets := rfl
  ids := hids
  counts := rfl
  failed := nofun
  successful := nofun
  groups := by
    have hnone : c.objects.rows.filter (named bucketName []) = [] :=
      List.filter_eq_nil_iff.mpr fun _ _ h => absurd h Bool.false_ne_true
    refine ⟨[], (List.append_nil _).symm, rfl, ?_, nofun, .slnil⟩
    rw [hnone, List.flatMap_nil]

/-- An accepted batch runs to its end, in the state the loop invariant describes. -/
theorem batch_runs {items : List DeleteExplorerEntriesBatchItemInput} (stamp : Nat → Stamp)
    (hids : RecycleIDs c) (hname : validateBucketName bucketName = .ok ())
    (hbucket : bucketExists c bucketName = true)
    (haccept : validateDeleteExplorerEntriesBatchItems items = .ok (items.map trimDeleteItem)) :
    ∃ s, deleteExplorerEntriesBatch c bucketName items stamp
        = .ok (s.tables, ⟨s.deletedCount, s.failedItems.length, s.failedItems⟩)
      ∧ Progress c bucketName ((List.range items.length).map stamp)
          (items.map trimDeleteItem) s := by
  have hchecks := (validateItems_eq_ok.mp haccept).1.2.2
  have hrun := Progress.run stamp hname hbucket (items.map trimDeleteItem) []
    (fun item hitem => by
      obtain ⟨a, ha, rfl⟩ := List.mem_map.mp hitem
      exact hchecks a ha) (progress_start hids)
  rw [List.nil_append, List.length_map] at hrun
  refine ⟨_, ?_, hrun⟩
  rw [deleteExplorerEntriesBatch, hname, ensureBucketExists, hbucket, haccept]
  rfl

/-- **Overlapping batch delete.**  An accepted list of items whose paths have no
    surrounding white space removes exactly the objects the items name, each into one
    new recycle group; an item that named an object is not reported as failed; every
    item is counted once; and any other order of the items leaves the same objects. -/
theorem batch_delete_order_independent {items : List DeleteExplorerEntriesBatchItemInput}
    (stamp : Nat → Stamp) (hids : RecycleIDs c) (hname : validateBucketName bucketName = .ok ())
    (hbucket : bucketExists c bucketName = true)
    (haccept : ∃ normalized, validateDeleteExplorerEntriesBatchItems items = .ok normalized)
    (hspace : ∀ item ∈ items, trimSpace item.path = item.path) :
    ∃ c' out, deleteExplorerEntriesBatch c bucketName items stamp = .ok (c', out)
      ∧ BatchDeleted c c' bucketName items stamp out
      ∧ ∀ items' stamp', items'.Perm items →
        ∃ c'' out', deleteExplorerEntriesBatch c bucketName items' stamp' = .ok (c'', out')
          ∧ c''.objects = c'.objects := by
  obtain ⟨normalized, haccept⟩ := haccept
  obtain ⟨⟨hne, hlen, hchecks⟩, rfl⟩ := validateItems_eq_ok.mp haccept
  obtain ⟨s, hrun, hs⟩ := batch_runs stamp hids hname hbucket haccept
  have hnames : ∀ o, named bucketName (items.map trimDeleteItem) o = true
      ↔ ∃ item ∈ items, Target bucketName item o := by
    intro o
    rw [named, List.any_map, List.any_eq_true]
    exact exists_congr fun item => and_congr_right fun hitem =>
      names_trimmed (hspace item hitem) (hchecks item hitem) o
  have hobjects : ∀ o, o ∈ s.tables.objects.rows
      ↔ o ∈ c.objects.rows ∧ ∀ item ∈ items, ¬ Target bucketName item o := by
    intro o
    rw [hs.objects, List.mem_filter, Bool.not_eq_true', ← Bool.not_eq_true, hnames]
    simp
  -- what no item names is left, whatever the order
  have hgone : ∀ o, o ∈ c.objects.rows.filter (named bucketName (items.map trimDeleteItem))
      ↔ o ∈ c.objects.rows ∧ o ∉ s.tables.objects.rows := by
    intro o
    rw [List.mem_filter, hobjects, hnames]
    refine and_congr_right fun ho => ?_
    simp [ho]
  refine ⟨_, _, hrun, ⟨hobjects, ?_, ⟨?_, rfl⟩, ?_⟩, fun items' stamp' hperm => ?_⟩
  · rintro item hitem ⟨o, ho, htarget⟩ f hf ⟨htype, hpath⟩
    -- the failed row carries a trimmed item, and that is this item
    obtain ⟨a, ha, hatype, hapath, hfree⟩ := hs.failed f hf
    have hsame : a = trimDeleteItem item := by
      cases a
      simp_all [trimDeleteItem]
    have htarget := (names_trimmed (hspace item hitem) (hchecks item hitem) o).mpr htarget
    exact absurd ((hfree o ho).symm.trans (hsame ▸ htarget)) Bool.false_ne_true
  · rw [hs.counts, List.length_map]
  · obtain ⟨groups, hgroups⟩ := hs.groups
    have hnd : (groups.flatMap RecycleGroup.objects).Nodup :=
      hgroups.objects.nodup_iff.mpr (c.objects.rows_nodup.filter _)
    refine ⟨groups, hgroups.rows, hgroups.markers, hgroups.stamps, fun g hg => ?_,
      fun o ho hgone' => ?_⟩
    · refine ⟨(List.nodup_flatMap.mp hnd).1 g hg, fun o ho => (hgone o).mp ?_⟩
      exact hgroups.objects.mem_iff.mp (List.mem_flatMap.mpr ⟨g, hg, ho⟩)
    · exact existsUnique_source hnd (hgroups.objects.mem_iff.mpr ((hgone o).mpr ⟨ho, hgone'⟩))
  · have haccept' : validateDeleteExplorerEntriesBatchItems items'
        = .ok (items'.map trimDeleteItem) := by
      refine validateItems_eq_ok.mpr ⟨⟨?_, ?_, fun item hitem => ?_⟩, rfl⟩
      · rintro rfl
        exact hne (hperm.nil_eq).symm
      · rw [hperm.length_eq]
        exact hlen
      · exact hchecks item (hperm.mem_iff.mp hitem)
    obtain ⟨s', hrun', hs'⟩ := batch_runs stamp' hids hname hbucket haccept'
    refine ⟨_, _, hrun', Table.ext_rows ?_⟩
    rw [hs.objects, hs'.objects]
    refine List.filter_congr fun o _ => congrArg not (Bool.eq_iff_iff.mpr ?_)
    rw [named, named, List.any_eq_true, List.any_eq_true]
    exact exists_congr fun item => and_congr_left fun _ => (hperm.map _).mem_iff

/-! ## A folder and a file in it -/

/-- A file below the folder. -/
def docsFile : Object :=
  { id := 1, bucketName := "photos", objectKey := "docs/a.txt", storagePath := "objects/a"
    size := 1 }

/-- `docs/a.txt` alone. -/
def oneFile : Tables Collation.binary where
  buckets := ⟨[{ id := 1, name := "photos" }], List.pairwise_singleton _ _⟩
  objects := ⟨[docsFile], List.pairwise_singleton _ _⟩
  nextBucketID := 2
  nextObjectID := 2

/-- The folder and then the file in it. -/
def folderThenFile : List DeleteExplorerEntriesBatchItemInput :=
  [{ type := "directory", path := "docs/" }, { type := "file", path := "docs/a.txt" }]

/-- The file is gone when its turn comes, and the folder that took it covers it. -/
theorem batch_delete_order_independent_oneFile :
    ∃ c' out, deleteExplorerEntriesBatch oneFile "photos" folderThenFile (fun _ => ⟨5, "g"⟩)
        = .ok (c', out)
      ∧ docsFile ∉ c'.objects.rows
      ∧ ∀ f ∈ out.failedItems, ¬ (f.type = "file" ∧ f.path = "docs/a.txt") := by
  have hids : RecycleIDs oneFile := nofun
  have hname : validateBucketName "photos" = .ok () := by decide
  have hbucket : bucketExists oneFile "photos" = true := by decide
  have haccept : ∃ normalized, validateDeleteExplorerEntriesBatchItems folderThenFile
      = .ok normalized := ⟨_, rfl⟩
  obtain ⟨c', out, hrun, hdeleted, -⟩ := batch_delete_order_independent (fun _ => ⟨5, "g"⟩) hids
    hname hbucket haccept (by decide)
  have htarget : Target "photos" { type := "file", path := "docs/a.txt" } docsFile :=
    ⟨rfl, Or.inl ⟨by decide, rfl⟩⟩
  have hitem : { type := "file", path := "docs/a.txt" } ∈ folderThenFile := by decide
  refine ⟨c', out, hrun, fun hmem => ((hdeleted.objects _).mp hmem).2 _ hitem htarget, ?_⟩
  exact hdeleted.failed _ hitem ⟨docsFile, List.mem_cons_self, htarget⟩

end ExplorerBatchDelete
