import LightOss.Catalog
import LightOss.Validation

/-! # Metadata services — what a request does to the catalog

    The metadata half of every service operation, each the body of one transaction:
    the callbacks handed to `Publish`, which also return the storage paths whose
    references they dropped, and the moves between the object table and the recycle
    bin, which leave the ledger alone.

    Which rows a callback may write and which paths it releases is said in
    `MetadataReferences`, and what a delete or a restore moves in `RecycleMoves`. -/

namespace MetadataServices

open KeyedTable Fallible LedgerRows Catalog Validation

variable {k : Collation}

/-- How many rows one statement writes. -/
def metadataWriteBatchSize : Nat := 100

/-- `int64(n)` for a `uint64`. -/
def int64 (n : Nat) : Int :=
  if n % 2 ^ 64 < 2 ^ 63 then (n % 2 ^ 64 : Nat) else (n % 2 ^ 64 : Nat) - 2 ^ 64

/-- A staged file as `Stage` and `StageKnownBatch` hand it out. -/
structure StagedBlob where
  id : String
  storagePath : String
  stagingPath : String
  size : Nat
  etag : String := ""
  deriving DecidableEq

/-- A `publishMetadata` callback: the new tables and the released storage paths. -/
abbrev Callback (k : Collation) := Tables k → Except Err (Tables k × List String)

/-- The paths of the files; markers without a file have none. -/
def storagePathsFromObjects (objects : List Object) : List String :=
  (objects.map (·.storagePath)).filter (· != "")

/-! ## Publications -/

/-- How the services report a failed write of object rows. -/
def saveObjectError (conflict : Option Err) (err : Err) : Err :=
  match err, conflict with
  | .duplicatedKey, some conflict => conflict
  | .foreignKey, _ => .app 404 "bucket_not_found" "bucket not found"
  | err, _ => .wrapped 500 "object_metadata_failed" "failed to save object metadata" err

/-- The storage path of the row an overwrite replaces. -/
def replacedPath (c : Tables k) (bucketName objectKey : String) : Except Err (List String) :=
  match findActive c bucketName objectKey with
  | .ok existing => .ok [existing.storagePath]
  | .error .recordNotFound => .ok []
  | .error err => .error (.wrapped 500 "object_lookup_failed" "failed to look up object" err)

/-- The callback of `ObjectService.Upload`. -/
def uploadMetadata (object : Object) (allowOverwrite : Bool) (now : Time) : Callback k := fun c =>
  if allowOverwrite then do
    let released ← replacedPath c object.bucketName object.objectKey
    let c ← (upsert c object now).mapError (saveObjectError none)
    return (c, released)
  else do
    let c ← (create c object now).mapError (saveObjectError (some (.app 409 "object_exists"
      "object already exists; set X-Allow-Overwrite=true to overwrite")))
    return (c, [])

/-- The callback of `createInternalObject`. -/
def createInternalMetadata (object : Object) (now : Time) : Callback k := fun c => do
  let c ← (create c object now).mapError
    (saveObjectError (some (.app 409 "folder_exists" "folder already exists")))
  return (c, [])

/-- The objects under the keys, in batches. -/
def findActiveObjectsInBatches (c : Tables k) (bucketName : String) (objectKeys : List String) :
    List Object :=
  (batches metadataWriteBatchSize objectKeys).flatMap (findActiveByKeys c bucketName)

/-- `orderObjectsByKeys`; of two rows with one key the later one is in the map. -/
def orderObjectsByKeys (objects : List Object) (keys : List String) : List Object :=
  keys.filterMap fun key => objects.reverse.find? fun o => o.objectKey == key

/-- The error of an upload that may not overwrite. -/
def objectsExist : Err := .app 409 "object_exists"
  "one or more objects already exist; set X-Allow-Overwrite=true to overwrite"

/-- The callback of `UploadBatch`. -/
def uploadBatchMetadata (bucketName : String) (objects : List Object) (allowOverwrite : Bool)
    (now : Time) : Callback k := fun c => do
  let objectKeys := objects.map (·.objectKey)
  let existing := findActiveObjectsInBatches c bucketName objectKeys
  ensure (allowOverwrite = true ∨ existing = []) objectsExist
  let c ← (if allowOverwrite then
      (upsertBatch c objects metadataWriteBatchSize now).mapError (saveObjectError none)
    else
      (createBatch c objects metadataWriteBatchSize now).mapError
        (saveObjectError (some objectsExist)))
  let uploaded := orderObjectsByKeys (findActiveObjectsInBatches c bucketName objectKeys) objectKeys
  ensure (uploaded.length = objectKeys.length)
    (.app 500 "object_metadata_failed" "failed to load all uploaded objects")
  return (c, storagePathsFromObjects existing)

/-- The callback of `SitePublishService.Publish`. -/
def publishSiteMetadata (bucketName : String) (objects : List Object) (site : Site)
    (domains : List String) (now : Time) : Callback k := fun c => do
  let existing := findActiveObjectsInBatches c bucketName (objects.map (·.objectKey))
  let c ← (upsertBatch c objects metadataWriteBatchSize now).mapError (saveObjectError none)
  let c ← createSite c site domains now
  return (c, storagePathsFromObjects existing)

/-- The callback of `PublishFile`. -/
def publishSiteFileMetadata (object : Object) (site : Site) (domains : List String) (now : Time) :
    Callback k := fun c => do
  let released ← replacedPath c object.bucketName object.objectKey
  let c ← (upsert c object now).mapError (saveObjectError none)
  let c ← createSite c site domains now
  return (c, released)

/-- The callback of `BucketService.Delete`. -/
def deleteBucketMetadata (name : String) : Callback k := fun c => do
  let _ ← lockByName c name
  let objects := listAllByBucket c name
  let recycled := listAllRecycleByBucket c name
  let storagePaths := (objects.map (·.storagePath)).filter (· != "")
    ++ (recycled.map (·.storagePath)).filter (· != "")
  let (deleted, c) := deleteByName
    (hardDeleteByBucket (hardDeleteRecycleByBucket (deleteSitesByBucket c name) name) name) name
  ensure (deleted = true) .recordNotFound
  return (c, storagePaths)

/-! ## Moves to the recycle bin -/

/-- The recycle row of an object. -/
def recycleBinObjectFromObject (object : Object) (deletedAt : Time) (deleteGroupID : String) :
    RecycleBinObject where
  deleteGroupID := deleteGroupID
  bucketName := object.bucketName
  objectKey := object.objectKey
  originalFilename := object.originalFilename
  storagePath := object.storagePath
  size := object.size
  contentType := object.contentType
  etag := object.etag
  fileFingerprint := object.fileFingerprint
  visibility := object.visibility
  createdAt := object.createdAt
  deletedAt := deletedAt

/-- The marker that a folder delete adds when the folder has none: it names no file. -/
def syntheticRecycleBinDirectoryObject (bucketName folderPath : String) (deletedAt : Time)
    (deleteGroupID : String) : RecycleBinObject where
  deleteGroupID := deleteGroupID
  bucketName := bucketName
  objectKey := folderPath ++ folderMarkerFilename
  originalFilename := folderMarkerFilename
  storagePath := ""
  size := 0
  contentType := "application/x-directory"
  visibility := .visibilityPrivate
  createdAt := deletedAt
  deletedAt := deletedAt

/-- The row the loop keeps as `representative`: the last one with the marker's key. -/
def representative (objects : List Object) (markerKey : String) : Option Object :=
  objects.reverse.find? fun o => o.objectKey == markerKey

/-- The rows of a recursive folder delete: the folder's marker, a real object or a
    synthetic one, comes last. -/
def recycleBinObjectsFromFolderDelete (objects : List Object) (folderPath : String)
    (deletedAt : Time) (deleteGroupID : String) : List RecycleBinObject :=
  match objects with
  | [] => []
  | first :: _ =>
      let markerKey := folderPath ++ folderMarkerFilename
      let items := (objects.filter fun o => o.objectKey != markerKey).map
        (recycleBinObjectFromObject · deletedAt deleteGroupID)
      match representative objects markerKey with
      | some object => items ++ [recycleBinObjectFromObject object deletedAt deleteGroupID]
      | none =>
          items ++ [syntheticRecycleBinDirectoryObject first.bucketName folderPath deletedAt
            deleteGroupID]

/-- The last switch of `Delete` and `DeleteFolder`: which error the caller sees. -/
def deleteError (notFound : Err) (code message : String) (err : Err) : Err :=
  match err with
  | .recordNotFound => notFound
  | .app status code message => .app status code message
  | .wrapped status code message cause => .wrapped status code message cause
  | err => .wrapped 500 code message err

/-- The transaction of `ObjectService.Delete`. -/
def deleteObject (c : Tables k) (bucketName objectKey : String) (deletedAt : Time)
    (deleteGroupID : String) : Except Err (Tables k) :=
  (do
    let object ← findActive c bucketName objectKey
    let c ← (createRecycleBatch c
      [recycleBinObjectFromObject object deletedAt deleteGroupID]).mapError
      (.wrapped 500 "object_delete_failed" "failed to move object to recycle bin")
    let (deleted, c) := hardDeleteByIDs c [object.id]
    ensure (0 < deleted) .recordNotFound
    return c).mapError
      (deleteError (.app 404 "object_not_found" "object not found") "object_delete_failed"
        "failed to delete object")

/-- What a folder delete reports. -/
def folderDeleteError : Err → Err :=
  deleteError (.app 404 "folder_not_found" "folder not found") "folder_delete_failed"
    "failed to delete folder"

/-- The recursive transaction of `DeleteFolder`. -/
def deleteFolderRecursive (c : Tables k) (bucketName folderPath : String) (deletedAt : Time)
    (deleteGroupID : String) : Except Err (Tables k) := do
  let objects := listActiveByPrefixOrdered c bucketName folderPath
  ensure (objects ≠ []) .recordNotFound
  let c ← (createRecycleBatch c (recycleBinObjectsFromFolderDelete objects folderPath deletedAt
    deleteGroupID)).mapError
      (.wrapped 500 "folder_delete_failed" "failed to move folder to recycle bin")
  let (deleted, c) := hardDeleteByIDs c (objects.map (·.id))
  ensure (deleted ≠ 0) .recordNotFound
  return c

/-- The loop over the objects of a folder that may only hold its marker. -/
def onlyMarker (markerKey : String) : Option Object → List Object → Except Err (Option Object)
  | marker, [] => .ok marker
  | _, object :: rest =>
      if object.objectKey = markerKey then onlyMarker markerKey (some object) rest
      else .error (.app 409 "folder_not_empty" "folder is not empty")

/-- The transaction of `DeleteFolder` for an empty folder. -/
def deleteFolderEmpty (c : Tables k) (bucketName folderPath : String) (deletedAt : Time)
    (deleteGroupID : String) : Except Err (Tables k) := do
  let objects := listActiveByPrefixOrdered c bucketName folderPath
  ensure (objects ≠ []) .recordNotFound
  let marker ← onlyMarker (folderPath ++ folderMarkerFilename) none objects
  let marker ← orElseThrow marker .recordNotFound
  let c ← (createRecycleBatch c
    [recycleBinObjectFromObject marker deletedAt deleteGroupID]).mapError
    (.wrapped 500 "folder_delete_failed" "failed to move folder to recycle bin")
  let (deleted, c) := hardDeleteByIDs c [marker.id]
  ensure (0 < deleted) .recordNotFound
  return c

/-- `ObjectService.DeleteFolder`. -/
def deleteFolder (c : Tables k) (bucketName folderPath : String) (recursive : Bool)
    (deletedAt : Time) (deleteGroupID : String) : Except Err (Tables k) := do
  validateBucketName bucketName
  validateFolderPath folderPath
  if recursive then
    (deleteFolderRecursive c bucketName folderPath deletedAt deleteGroupID).mapError
      folderDeleteError
  else
    (deleteFolderEmpty c bucketName folderPath deletedAt deleteGroupID).mapError folderDeleteError

/-! ## Moves out of the recycle bin -/

/-- What the bin shows an item as. -/
inductive RecycleBinItemType where
  | file
  | directory
  deriving DecidableEq

/-- A marker is shown as its folder. -/
def recycleBinObjectType (item : RecycleBinObject) : RecycleBinItemType :=
  if isFolderMarkerKey item.objectKey then .directory else .file

/-- `loadRecycleBinActionItems`: a marker stands for its whole delete group. -/
def loadRecycleBinActionItems (c : Tables k) (item : RecycleBinObject) : List RecycleBinObject :=
  if recycleBinObjectType item ≠ .directory then [item]
  else listByDeleteGroupID c item.deleteGroupID

/-- `shouldSkipRecycleBinRestoreItem`: a synthetic marker. -/
def shouldSkipRecycleBinRestoreItem (item : RecycleBinObject) : Bool :=
  recycleBinObjectType item == .directory && item.storagePath == ""

/-- The object of a recycle row, with a new time of its last change. -/
def restoredObject (updatedAt : Time) (item : RecycleBinObject) : Object where
  bucketName := item.bucketName
  objectKey := item.objectKey
  originalFilename := item.originalFilename
  storagePath := item.storagePath
  size := item.size
  contentType := item.contentType
  etag := item.etag
  fileFingerprint := item.fileFingerprint
  visibility := item.visibility
  createdAt := item.createdAt
  updatedAt := updatedAt

/-- The error of an id that is not in the bin. -/
def recycleItemNotFound : Err := .app 404 "recycle_bin_item_not_found" "recycle bin item not found"

/-- How restore and purge report a failed `Find`. -/
def findItemError (code : String) (err : Err) : Err :=
  match err with
  | .recordNotFound => recycleItemNotFound
  | err => .wrapped 500 code "failed to load recycle bin item" err

/-- What a refused insert reports to a restore. -/
def restoreInsertError (err : Err) : Err :=
  match err with
  | .duplicatedKey => .app 409 "object_exists" "object already exists"
  | .foreignKey => .app 404 "bucket_not_found" "bucket not found"
  | err => .wrapped 500 "recycle_bin_restore_failed" "failed to restore object" err

/-- The items a restore puts back: all but a synthetic marker. -/
def restoreTargets (groupItems : List RecycleBinObject) : List RecycleBinObject :=
  groupItems.filter fun i => !shouldSkipRecycleBinRestoreItem i

/-- The reads of `restoreObject`: the items it acts on, once its checks have passed. -/
def restoreReads (c : Tables k) (itemID : Nat) : Except Err (List RecycleBinObject) := do
  let item ← (findRecycle c itemID).mapError (findItemError "recycle_bin_restore_failed")
  let groupItems := loadRecycleBinActionItems c item
  ensure (bucketExists c item.bucketName = true) (.app 404 "bucket_not_found" "bucket not found")
  ensure (listExistingActiveKeys c item.bucketName ((restoreTargets groupItems).map (·.objectKey))
    = []) (.app 409 "object_exists" "object already exists")
  return groupItems

/-- The writes of `restoreObject` for the items it read. -/
def restoreItems (c : Tables k) (groupItems : List RecycleBinObject) (updatedAt : Time) :
    Except Err (Tables k) := do
  let c ← (((restoreTargets groupItems).map (restoredObject updatedAt)).foldlM insertObject
    c).mapError restoreInsertError
  let (deleted, c) := hardDeleteRecycleByIDs c (groupItems.map (·.id))
  ensure (deleted = groupItems.length) recycleItemNotFound
  return c

/-- The transaction of `restoreObject`. -/
def restoreObject (c : Tables k) (itemID : Nat) (updatedAt : Time) : Except Err (Tables k) := do
  let groupItems ← restoreReads c itemID
  restoreItems c groupItems updatedAt

/-- The reads of `deleteObject` of the recycle bin. -/
def purgeReads (c : Tables k) (itemID : Nat) : Except Err (List RecycleBinObject) := do
  let item ← (findRecycle c itemID).mapError (findItemError "recycle_bin_delete_failed")
  return loadRecycleBinActionItems c item

/-- The writes of `deleteObject` of the recycle bin for the items it read. -/
def purgeItems (groupItems : List RecycleBinObject) : Callback k := fun c => do
  let storagePaths := (groupItems.map (·.storagePath)).filter (· != "")
  let (deleted, c) := hardDeleteRecycleByIDs c (groupItems.map (·.id))
  ensure (deleted = groupItems.length) recycleItemNotFound
  return (c, storagePaths)

/-- The callback of `RecycleBinService.deleteObject`. -/
def purgeMetadata (itemID : Nat) : Callback k := fun c => do
  let groupItems ← purgeReads c itemID
  purgeItems groupItems c

/-! ## Reads of a folder -/

/-- The check in front of most requests. -/
def ensureBucketExists (c : Tables k) (bucketName : String) : Except Err Unit :=
  ensure (bucketExists c bucketName = true) (.app 404 "bucket_not_found" "bucket not found")

/-- The objects `ListExplorerEntries` builds its entries from: its checks of bucket and
    prefix and its one query.  Its other checks (limit, order, cursor) read no table. -/
def listExplorerObjects (c : Tables k) (bucketName pfx : String) : Except Err (List Object) := do
  validateBucketName bucketName
  validateFolderPrefix pfx
  ensureBucketExists c bucketName
  return listActiveByPrefixOrdered c bucketName pfx

/-- The objects `OpenFolderArchive` hands to the writer of the archive. -/
def openFolderArchiveObjects (c : Tables k) (bucketName folderPath : String) :
    Except Err (List Object) := do
  validateBucketName bucketName
  validateFolderPath folderPath
  ensureBucketExists c bucketName
  ensure (existsActiveWithPrefix c bucketName folderPath = true)
    (.app 404 "folder_not_found" "folder not found")
  return listActiveByPrefixOrdered c bucketName folderPath

end MetadataServices
