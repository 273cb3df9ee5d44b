import LightOss.BatchPublication
import LightOss.StepSystem

/-! # Object services — requests and the keys they write

    The services in front of the metadata callbacks: what each request is checked
    for and which key it builds from the folder, file and relative names it gets.
    A request is its input together with the handles of its staged files; its
    effect is on the catalog alone.  File names and content types are the sanitized
    and normalized ones, a site and its domains what `buildSiteInput` returned.

    `requestSystem` runs them one after another from the empty tables; what holds of
    all keys a bucket ever has is proved over its runs. -/

namespace ObjectServices

open KeyedTable Fallible LedgerRows Catalog Validation MetadataServices BatchPublication

variable {k : Collation}

/-- How many files one request may bring. -/
def maxBatchUploadItems : Nat := 2000

/-- `ParseVisibility`: private when nothing is said. -/
def parseVisibility (value : String) : Except Err Visibility :=
  if trimSpace value = "public" then .ok .visibilityPublic
  else if trimSpace value = "" ∨ trimSpace value = "private" then .ok .visibilityPrivate
  else .error (.app 400 "invalid_visibility" "visibility must be public or private")

/-- The object row of one staged file. -/
def stagedObject (bucketName objectKey originalFilename contentType : String)
    (visibility : Visibility) (staged : StagedBlob) : Object where
  bucketName := bucketName
  objectKey := objectKey
  originalFilename := originalFilename
  storagePath := staged.storagePath
  size := int64 staged.size
  contentType := contentType
  etag := staged.etag
  visibility := visibility

/-! ## Uploads -/

/-- What `Upload` is given, the body aside. -/
structure UploadObjectInput where
  bucketName : String
  objectKey : String
  visibility : String
  allowOverwrite : Bool
  originalFilename : String
  contentType : String

/-- `ObjectService.Upload`. -/
def upload (c : Tables k) (input : UploadObjectInput) (staged : StagedBlob) (now : Time) :
    Except Err (Tables k) := do
  validateBucketName input.bucketName
  validateUserObjectKey input.objectKey
  let visibility ← parseVisibility input.visibility
  ensureBucketExists c input.bucketName
  ensure (input.allowOverwrite = true ∨ existsActive c input.bucketName input.objectKey = false)
    (.app 409 "object_exists" "object already exists; set X-Allow-Overwrite=true to overwrite")
  let (c, _) ← uploadMetadata (stagedObject input.bucketName input.objectKey
    input.originalFilename input.contentType visibility staged) input.allowOverwrite now c
  return c

/-- What `UploadBatch` is given, the bodies aside. -/
structure UploadObjectBatchInput where
  bucketName : String
  pfx : String
  visibility : String
  allowOverwrite : Bool
  items : List UploadObjectBatchItemInput

/-- `ObjectService.UploadBatch`. -/
def uploadBatch (c : Tables k) (input : UploadObjectBatchInput) (stagedBlobs : List StagedBlob)
    (now : Time) : Except Err (Tables k) := do
  validateBucketName input.bucketName
  validateFolderPrefix input.pfx
  ensure (input.items ≠ []) (invalidBatchManifest "manifest must contain at least one file")
  ensure (input.items.length ≤ maxBatchUploadItems)
    (invalidBatchManifest "manifest must contain at most 2000 files")
  let visibility ← parseVisibility input.visibility
  ensureBucketExists c input.bucketName
  let preparedItems ← prepareItems input.pfx [] input.items
  ensure (input.allowOverwrite = true
    ∨ listExistingActiveKeys c input.bucketName (preparedItems.map (·.objectKey)) = []) objectsExist
  let (c, _) ← uploadBatchMetadata input.bucketName
    (objectsToSave input.bucketName visibility preparedItems stagedBlobs) input.allowOverwrite now c
  return c

/-- What `CreateFolder` is given. -/
structure CreateFolderInput where
  bucketName : String
  pfx : String
  name : String

/-- `markerKey` of `CreateFolder`. -/
def createFolderKey (input : CreateFolderInput) : String :=
  input.pfx ++ input.name ++ "/" ++ folderMarkerFilename

/-- `ObjectService.CreateFolder`. -/
def createFolder (c : Tables k) (input : CreateFolderInput) (staged : StagedBlob) (now : Time) :
    Except Err (Tables k) := do
  validateBucketName input.bucketName
  validateFolderPrefix input.pfx
  validateFolderName input.name
  ensureBucketExists c input.bucketName
  ensure (input.pfx = "" ∨ existsActiveWithPrefix c input.bucketName input.pfx = true)
    (.app 404 "folder_not_found" "folder not found")
  let folderPath := input.pfx ++ input.name ++ "/"
  ensure (existsActiveWithPrefix c input.bucketName folderPath = false)
    (.app 409 "folder_exists" "folder already exists")
  let (c, _) ← createInternalMetadata (stagedObject input.bucketName (createFolderKey input)
    folderMarkerFilename "application/x-directory" .visibilityPrivate staged) now c
  return c

/-! ## Site publications -/

/-- The error of requests that cannot be read. -/
def invalidRequest (message : String) : Err := .app 400 "invalid_request" message

/-- `normalizePublishParentPrefix`: one leading slash goes, a trailing one comes. -/
def normalizePublishParentPrefix (value : String) : Except Err String := do
  let normalized := trimPrefix (trimSpace (slashed value)) "/"
  if normalized = "" then return ""
  else do
    let normalized := if hasSuffix normalized "/" then normalized else normalized ++ "/"
    validateFolderPrefix normalized
    return normalized

/-- `normalizePublishFileName`: the last component, checked as a key. -/
def normalizePublishFileName (value : String) : Except Err String := do
  let baseName := trimSpace (pathBase (trimSpace (slashed value)))
  ensure (¬ (baseName = "" ∨ baseName = "." ∨ baseName = "/"))
    (invalidRequest "file name is invalid")
  (validateUserObjectKey baseName).mapError fun _ => invalidRequest "file name is invalid"
  return baseName

/-- `sharedTopLevelFolderName`; `topLevelFolder` is that of the items so far. -/
def sharedTopLevelFolderName (topLevelFolder : String) :
    List UploadObjectBatchItemInput → Except Err String
  | [] => .ok topLevelFolder
  | item :: rest => do
      (validateUploadRelativePath item.relativePath).mapError invalidBatchManifestError
      let parts := segments item.relativePath
      ensure (2 ≤ parts.length)
        (invalidBatchManifest "manifest entry must include a top-level folder")
      let currentTopLevel := trimSpace (parts.headD "")
      ensure (currentTopLevel ≠ "") (invalidBatchManifest "manifest entry is invalid")
      ensure (topLevelFolder = "" ∨ currentTopLevel = topLevelFolder)
        (invalidBatchManifest "manifest entries must share the same top-level folder")
      sharedTopLevelFolderName currentTopLevel rest

/-- How the site publications report a failed transaction. -/
def sitePublishError (err : Err) : Err :=
  match err with
  | .duplicatedKey => .app 409 "domain_conflict" "domain is already bound to another site"
  | .foreignKey => .app 404 "bucket_not_found" "bucket not found"
  | .app status code message => .app status code message
  | .wrapped status code message cause => .wrapped status code message cause
  | err => .wrapped 500 "site_create_failed" "failed to create site" err

/-- What the site publications are given; the site is already built. -/
structure PublishSiteInput where
  bucketName : String
  parentPrefix : String
  site : Site
  domains : List String

/-- `SitePublishService.Publish`. -/
def publishSite (c : Tables k) (input : PublishSiteInput) (items : List UploadObjectBatchItemInput)
    (stagedBlobs : List StagedBlob) (now : Time) : Except Err (Tables k) := do
  ensure (items ≠ []) (invalidBatchManifest "manifest must contain at least one file")
  ensure (items.length ≤ maxBatchUploadItems)
    (invalidBatchManifest "manifest must contain at most 2000 files")
  ensure (input.domains ≠ []) (invalidRequest "domains is required")
  let parentPrefix ← normalizePublishParentPrefix input.parentPrefix
  let _ ← sharedTopLevelFolderName "" items
  validateBucketName input.bucketName
  ensureBucketExists c input.bucketName
  let preparedItems ← prepareItems parentPrefix [] items
  let (c, _) ← (publishSiteMetadata input.bucketName
    (objectsToSave input.bucketName .visibilityPublic preparedItems stagedBlobs) input.site
    input.domains now c).mapError sitePublishError
  return c

/-- `SitePublishService.PublishFile`. -/
def publishFile (c : Tables k) (input : PublishSiteInput) (filename contentType : String)
    (staged : StagedBlob) (now : Time) : Except Err (Tables k) := do
  ensure (input.domains ≠ []) (invalidRequest "domains is required")
  let parentPrefix ← normalizePublishParentPrefix input.parentPrefix
  let fileName ← normalizePublishFileName filename
  validateBucketName input.bucketName
  ensureBucketExists c input.bucketName
  let (c, _) ← (publishSiteFileMetadata (stagedObject input.bucketName (parentPrefix ++ fileName)
    filename contentType .visibilityPublic staged) input.site input.domains now c).mapError
      sitePublishError
  return c

/-- The error of a key without an object. -/
def objectNotFound : Err := .app 404 "object_not_found" "object not found"

/-- `ObjectService.GetMetadata`; `Open` and the signing of a link begin with it. -/
def getMetadata (c : Tables k) (bucketName objectKey : String) : Except Err Object := do
  validateBucketName bucketName
  validateObjectKey objectKey
  (findActive c bucketName objectKey).mapError fun _ => objectNotFound

/-- `ObjectService.UpdateVisibility`. -/
def updateVisibility (c : Tables k) (bucketName objectKey visibilityValue : String) (now : Time) :
    Except Err (Tables k) := do
  validateBucketName bucketName
  validateObjectKey objectKey
  let visibility ← parseVisibility visibilityValue
  (Catalog.updateVisibility c bucketName objectKey visibility now).mapError fun _ => objectNotFound

/-- `SitePublishService.PublishObject`. -/
def publishObject (c : Tables k) (input : PublishSiteInput) (objectKey : String) (now : Time) :
    Except Err (Tables k) := do
  validateBucketName input.bucketName
  validateUserObjectKey objectKey
  ensure (input.domains ≠ []) (invalidRequest "domains is required")
  let _ ← (findActive c input.bucketName objectKey).mapError fun _ => objectNotFound
  (do
    let c ← (Catalog.updateVisibility c input.bucketName objectKey .visibilityPublic now).mapError
      fun _ => objectNotFound
    createSite c input.site input.domains now).mapError sitePublishError

/-! ## Deletes and the recycle bin -/

/-- `ObjectService.Delete`. -/
def delete (c : Tables k) (bucketName objectKey : String) (deletedAt : Time)
    (deleteGroupID : String) : Except Err (Tables k) := do
  validateBucketName bucketName
  validateObjectKey objectKey
  deleteObject c bucketName objectKey deletedAt deleteGroupID

/-- `BucketService.Create`. -/
def createBucket (c : Tables k) (name : String) : Except Err (Tables k) := do
  validateBucketName name
  (Catalog.createBucket c { name := name }).mapError fun err =>
    match err with
    | .duplicatedKey => .app 409 "bucket_exists" "bucket already exists"
    | err => .wrapped 500 "bucket_create_failed" "failed to create bucket" err

/-- `BucketService.Delete`. -/
def deleteBucket (c : Tables k) (name : String) : Except Err (Tables k) := do
  validateBucketName name
  let (c, _) ← (deleteBucketMetadata name c).mapError
    (deleteError (.app 404 "bucket_not_found" "bucket not found") "bucket_delete_failed"
      "failed to delete bucket")
  return c

/-! ## Requests in any order -/

/-- The requests that write the catalog, with their input and the handles of their files. -/
inductive Request where
  | createBucket (name : String)
  | upload (input : UploadObjectInput) (staged : StagedBlob) (now : Time)
  | uploadBatch (input : UploadObjectBatchInput) (stagedBlobs : List StagedBlob) (now : Time)
  | createFolder (input : CreateFolderInput) (staged : StagedBlob) (now : Time)
  | publishSite (input : PublishSiteInput) (items : List UploadObjectBatchItemInput)
      (stagedBlobs : List StagedBlob) (now : Time)
  | publishFile (input : PublishSiteInput) (filename contentType : String) (staged : StagedBlob)
      (now : Time)
  | publishObject (input : PublishSiteInput) (objectKey : String) (now : Time)
  | updateVisibility (bucketName objectKey visibilityValue : String) (now : Time)
  | delete (bucketName objectKey : String) (deletedAt : Time) (deleteGroupID : String)
  | deleteFolder (bucketName folderPath : String) (isRecursive : Bool) (deletedAt : Time)
      (deleteGroupID : String)
  | restore (itemID : Nat) (updatedAt : Time)
  | purge (itemID : Nat)
  | deleteBucket (name : String)

/-- What the request does when its transaction commits. -/
def Request.run (c : Tables k) : Request → Except Err (Tables k)
  | .createBucket name => ObjectServices.createBucket c name
  | .upload input staged now => ObjectServices.upload c input staged now
  | .uploadBatch input stagedBlobs now => ObjectServices.uploadBatch c input stagedBlobs now
  | .createFolder input staged now => ObjectServices.createFolder c input staged now
  | .publishSite input items stagedBlobs now =>
      ObjectServices.publishSite c input items stagedBlobs now
  | .publishFile input filename contentType staged now =>
      ObjectServices.publishFile c input filename contentType staged now
  | .publishObject input objectKey now => ObjectServices.publishObject c input objectKey now
  | .updateVisibility bucketName objectKey visibilityValue now =>
      ObjectServices.updateVisibility c bucketName objectKey visibilityValue now
  | .delete bucketName objectKey deletedAt group =>
      ObjectServices.delete c bucketName objectKey deletedAt group
  | .deleteFolder bucketName folderPath isRecursive deletedAt group =>
      MetadataServices.deleteFolder c bucketName folderPath isRecursive deletedAt group
  | .restore itemID updatedAt => restoreObject c itemID updatedAt
  | .purge itemID => (purgeMetadata itemID c).map Prod.fst
  | .deleteBucket name => ObjectServices.deleteBucket c name

/-- The handles a request publishes. -/
def Request.stagedBlobs : Request → List StagedBlob
  | .upload _ staged _ => [staged]
  | .uploadBatch _ stagedBlobs _ => stagedBlobs
  | .createFolder _ staged _ => [staged]
  | .publishSite _ _ stagedBlobs _ => stagedBlobs
  | .publishFile _ _ _ staged _ => [staged]
  | _ => []

/-- One request after another, from the empty migrated tables; a request whose
    transaction fails, there or in the ledger, changes nothing. -/
def requestSystem (k : Collation) : StepSystem.System (Tables k) Request where
  start c := c = {}
  step c request c' := (∀ staged ∈ request.stagedBlobs, staged.storagePath ≠ "")
    ∧ (request.run c = .ok c' ∨ c' = c)

end ObjectServices
