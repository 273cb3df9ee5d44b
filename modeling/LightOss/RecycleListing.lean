import LightOss.BlockList
import LightOss.MetadataServices
import LightOss.ObjectListing

/-! # Recycle listing — the pages of the recycle bin

    A page is made of logical items: a folder that was deleted with its contents is
    one directory, anything else a file.  Rows are read in batches, newest first; the
    rows of the latest `deleted_at` wait until the batch behind them is known.

    Only definitions: the items of one batch, the cut between batches, the loop over
    the batches, and the pages a client gets by following the cursors. -/

namespace RecycleListing

open KeyedTable Fallible LedgerRows Catalog Validation MetadataServices ObjectListing ObjectServices

variable {k : Collation}

/-! ## Items -/

/-- `RecycleBinObjectItem`: a row as the page shows it. -/
structure RecycleBinObjectItem where
  id : Nat
  type : RecycleBinItemType
  bucketName : String
  path : String
  name : String
  objectKey : String
  originalFilename : String
  size : Int
  contentType : String
  etag : String
  visibility : Visibility
  createdAt : Time
  deletedAt : Time
  deriving DecidableEq

/-- `RecycleBinCursor`: the place of the last row of a page. -/
structure RecycleBinCursor where
  deletedAt : Time
  id : Nat
  deriving DecidableEq

/-- `recycleBinLogicalItem`: an item and the last of the rows behind it. -/
structure LogicalItem where
  item : RecycleBinObjectItem
  lastCursor : RecycleBinCursor
  deriving DecidableEq

/-- `recycleBinDirectoryKey`. -/
structure DirectoryKey where
  bucketName : String
  path : String
  deriving DecidableEq

/-- `recycleBinObjectPath`: the marker of a folder stands for the folder. -/
def recycleBinObjectPath (item : RecycleBinObject) : String :=
  if isFolderMarkerKey item.objectKey then trimSuffix item.objectKey folderMarkerFilename
  else item.objectKey

/-- `recycleBinObjectName`: the last segment of the path. -/
def recycleBinObjectName (item : RecycleBinObject) : String :=
  let entryPath := trimSuffix (recycleBinObjectPath item) "/"
  if entryPath = "" then item.originalFilename else pathBase entryPath

def recycleBinObjectToItem (item : RecycleBinObject) : RecycleBinObjectItem where
  id := item.id
  type := recycleBinObjectType item
  bucketName := item.bucketName
  path := recycleBinObjectPath item
  name := recycleBinObjectName item
  objectKey := item.objectKey
  originalFilename := item.originalFilename
  size := item.size
  contentType := item.contentType
  etag := item.etag
  visibility := item.visibility
  createdAt := item.createdAt
  deletedAt := item.deletedAt

def recycleBinCursorFromObject (item : RecycleBinObject) : RecycleBinCursor where
  deletedAt := item.deletedAt
  id := item.id

/-! ## Logical items -/

/-- The directories above a path, from the top; with the path's own when it is one. -/
def recycleBinAncestorDirectoryPaths (itemPath : String) (includeSelf : Bool) : List String :=
  let trimmedPath := trimSuffix itemPath "/"
  if trimmedPath = "" then []
  else
    let parts := segments trimmedPath
    let maxDepth := if includeSelf then parts.length else parts.length - 1
    (List.range maxDepth).map fun depth => joinSegments (parts.take (depth + 1)) ++ "/"

/-- The map from a directory to the marker that was deleted with it. -/
abbrev Markers : Type := DirectoryKey → Option RecycleBinObject

/-- `directoryMarkers`: the last marker of each directory. -/
def directoryMarkers (items : List RecycleBinObject) : Markers :=
  items.foldl (fun markers item =>
    if recycleBinObjectType item ≠ .directory then markers
    else Function.update markers ⟨item.bucketName, recycleBinObjectPath item⟩ (some item))
    fun _ => none

/-- `recycleBinOwningDirectoryKey`: the first directory from the top that has a marker. -/
def recycleBinOwningDirectoryKey (markers : Markers) (item : RecycleBinObject) :
    Option DirectoryKey :=
  let includeSelf := recycleBinObjectType item == .directory
  ((recycleBinAncestorDirectoryPaths (recycleBinObjectPath item) includeSelf).map
    fun path => DirectoryKey.mk item.bucketName path).find? fun key => (markers key).isSome

/-- `int64` addition. -/
def addInt64 (a b : Int) : Int := (a + b).bmod (2 ^ 64)

/-- The items of a group so far and where each directory stands among them. -/
structure GroupItems where
  logicalItems : List LogicalItem
  indexByDirectory : DirectoryKey → Option Nat

/-- One turn of the second loop.  The owning directory was found among the markers. -/
def addGroupItem (markers : Markers) (acc : GroupItems) (item : RecycleBinObject) : GroupItems :=
  match recycleBinOwningDirectoryKey markers item with
  | none =>
      { acc with logicalItems := acc.logicalItems
          ++ [⟨recycleBinObjectToItem item, recycleBinCursorFromObject item⟩] }
  | some key =>
      let found : GroupItems × Nat :=
        match acc.indexByDirectory key with
        | some index =>
            ({ acc with logicalItems := acc.logicalItems.modify index fun l =>
                { l with lastCursor := recycleBinCursorFromObject item } }, index)
        | none =>
            ({ logicalItems := acc.logicalItems
                ++ [⟨recycleBinObjectToItem ((markers key).getD item),
                  recycleBinCursorFromObject item⟩]
               indexByDirectory := Function.update acc.indexByDirectory key
                (some acc.logicalItems.length) }, acc.logicalItems.length)
      if recycleBinObjectType item = .file then
        { found.1 with logicalItems := found.1.logicalItems.modify found.2 fun l =>
            { l with item := { l.item with size := addInt64 l.item.size item.size } } }
      else found.1

def recycleBinLogicalItemsFromDeleteGroup (items : List RecycleBinObject) : List LogicalItem :=
  (items.foldl (addGroupItem (directoryMarkers items)) ⟨[], fun _ => none⟩).logicalItems

/-- The delete groups in the order of their first rows. -/
def deleteGroupIDs (items : List RecycleBinObject) : List String :=
  items.foldl (fun ids item =>
    if item.deleteGroupID ∈ ids then ids else ids ++ [item.deleteGroupID]) []

/-- `recycleBinLogicalItemsFromDeletedAtBatch`: the groups in the order of their first rows. -/
def recycleBinLogicalItemsFromDeletedAtBatch (items : List RecycleBinObject) : List LogicalItem :=
  (deleteGroupIDs items).flatMap fun id =>
    recycleBinLogicalItemsFromDeleteGroup (items.filter fun item => item.deleteGroupID == id)

/-- One batch for each run of rows with the same `deleted_at`. -/
def recycleBinLogicalItemsFromRawItems : List RecycleBinObject → List LogicalItem
  | [] => []
  | item :: rest =>
      recycleBinLogicalItemsFromDeletedAtBatch
          (item :: rest.takeWhile fun next => next.deletedAt == item.deletedAt)
        ++ recycleBinLogicalItemsFromRawItems
          (rest.dropWhile fun next => next.deletedAt == item.deletedAt)
  termination_by items => items.length
  decreasing_by exact Nat.lt_succ_of_le (List.length_dropWhile_le _ _)

/-- The rows before the last run, and the last run. -/
def splitCompleteRecycleBinRawItems (items : List RecycleBinObject) (reachedEnd : Bool) :
    List RecycleBinObject × List RecycleBinObject :=
  match items.getLast? with
  | none => ([], [])
  | some last =>
      if reachedEnd then (items, [])
      else
        let splitIndex :=
          (items.reverse.dropWhile fun item => item.deletedAt == last.deletedAt).length
        (items.take splitIndex, items.drop splitIndex)

/-! ## Pages -/

/-- `encodeRecycleBinCursor`: the same text as an object cursor. -/
def encodeRecycleBinCursor (deletedAt : Time) (id : Nat) : String := encodeCursor deletedAt id

def decodeRecycleBinCursor (value : String) : Except Err (Option RecycleBinCursor) :=
  (decodeCursor value).map fun cursor => cursor.map fun c => ⟨c.createdAt, c.id⟩

/-- `bucket_name = ?`, unless the name is empty. -/
def inBucket (k : Collation) (bucketName : String) (item : RecycleBinObject) : Bool :=
  bucketName == "" || k.eq item.bucketName bucketName

/-- `(deleted_at < ?) OR (deleted_at = ? AND id < ?)`. -/
def behindCursor (cursor : Option RecycleBinCursor) (item : RecycleBinObject) : Bool :=
  match cursor with
  | none => true
  | some cursor => decide (item.deletedAt < cursor.deletedAt
      ∨ (item.deletedAt = cursor.deletedAt ∧ item.id < cursor.id))

/-- `ORDER BY deleted_at DESC, id DESC`. -/
def latestFirst (a b : RecycleBinObject) : Bool :=
  decide (b.deletedAt < a.deletedAt ∨ (b.deletedAt = a.deletedAt ∧ b.id ≤ a.id))

/-- All rows of a listing, in its order. -/
def orderedRows (c : Tables k) (bucketName : String) : List RecycleBinObject :=
  (c.recycleBin.select (inBucket k bucketName)).mergeSort latestFirst

/-- `RecycleBinRepository.List`. -/
def listRecycle (c : Tables k) (bucketName : String) (limit : Nat)
    (cursor : Option RecycleBinCursor) : List RecycleBinObject :=
  (((c.recycleBin.select (inBucket k bucketName)).filter (behindCursor cursor)).mergeSort
    latestFirst).take limit

structure ListRecycleBinObjectsInput where
  bucketName : String
  limit : Int
  cursor : String

structure ListRecycleBinObjectsOutput where
  items : List RecycleBinObjectItem
  nextCursor : String

/-- The items of the page so far and the cursor of the last one. -/
structure Page where
  items : List RecycleBinObjectItem
  pageLastCursor : Option RecycleBinCursor

/-- The loop over the logical items of one batch: it returns when the page is full. -/
def emit (limit : Nat) : List LogicalItem → Page → ListRecycleBinObjectsOutput ⊕ Page
  | [], page => .inr page
  | logicalItem :: rest, page =>
      if page.items.length = limit then
        let nextCursor := match page.pageLastCursor with
          | some cursor => encodeRecycleBinCursor cursor.deletedAt cursor.id
          | none => ""
        .inl { items := page.items, nextCursor := nextCursor }
      else
        emit limit rest
          { items := page.items ++ [logicalItem.item],
            pageLastCursor := some logicalItem.lastCursor }

/-- The outer loop of `ListObjects`, over what the repository returns. -/
def listLoop (fetch : Option RecycleBinCursor → List RecycleBinObject) (limit : Nat) :
    Nat → Option RecycleBinCursor → List RecycleBinObject → Page →
      Option ListRecycleBinObjectsOutput
  | 0, _, _, _ => none
  | fuel + 1, queryCursor, pendingRawItems, page =>
      let rawItems := fetch queryCursor
      let pendingRawItems := pendingRawItems ++ rawItems
      let queryCursor := match rawItems.getLast? with
        | some last => some (recycleBinCursorFromObject last)
        | none => queryCursor
      let split := splitCompleteRecycleBinRawItems pendingRawItems rawItems.isEmpty
      match emit limit (recycleBinLogicalItemsFromRawItems split.1) page with
      | .inl output => some output
      | .inr page =>
          if rawItems.isEmpty then some { items := page.items, nextCursor := "" }
          else listLoop fetch limit fuel queryCursor split.2 page

/-- The part of `ListObjects` behind the check of the bucket name.  A loop that does not end
    within one turn more than there are rows is `none`. -/
def listObjectsChecked (c : Tables k) (input : ListRecycleBinObjectsInput) :
    Except Err (Option ListRecycleBinObjectsOutput) := do
  let limit := if input.limit = 0 then defaultListLimit else input.limit
  ensure (1 ≤ limit ∧ limit ≤ maxListLimit)
    (.app 400 "invalid_request" "limit must be between 1 and 100")
  let cursor ← (decodeRecycleBinCursor input.cursor).mapError fun _ =>
    .app 400 "invalid_cursor" "cursor is invalid"
  let batchSize := if limit + 1 < defaultListLimit then defaultListLimit else limit + 1
  return listLoop (listRecycle c input.bucketName batchSize.toNat) limit.toNat
    ((orderedRows c input.bucketName).length + 1) cursor [] ⟨[], none⟩

/-- `RecycleBinService.ListObjects`. -/
def listObjects (c : Tables k) (input : ListRecycleBinObjectsInput) :
    Except Err (Option ListRecycleBinObjectsOutput) := do
  if trimSpace input.bucketName ≠ "" then validateBucketName input.bucketName
  listObjectsChecked c input

/-- Following the cursors until one is empty: the pages, or `none` when they do not end. -/
def followPages (c : Tables k) (bucketName : String) (limit : Int) :
    Nat → String → Except Err (Option (List (List RecycleBinObjectItem)))
  | 0, _ => .ok none
  | fuel + 1, cursor => do
      match ← listObjects c { bucketName := bucketName, limit := limit, cursor := cursor } with
      | none => return none
      | some output =>
          if output.nextCursor = "" then return some [output.items]
          let rest ← followPages c bucketName limit fuel output.nextCursor
          return rest.map fun pages => output.items :: pages

end RecycleListing
