import LightOss.KeyedTable
import LightOss.LedgerRows
import LightOss.LikePattern
import Mathlib.Data.List.Lex

/-! # The catalog — buckets, objects, recycle bin, sites

    The metadata tables with the unique keys and foreign keys of the migration, and
    the functions of their repositories.  The database compares the user's strings
    by the configured collation, so the catalog carries it as a parameter: `=` and
    the unique keys go through the sort key, `LIKE` through the character equality.
    Identifiers the server generates (row ids, delete group ids) are compared as
    they are. -/

namespace Catalog

open KeyedTable Fallible LedgerRows

/-- What a database collation decides. -/
structure Collation where
  sortKey : String → List Nat
  sameChar : Char → Char → Bool
  sameChar_refl : ∀ c, sameChar c c = true

namespace Collation

/-- `a = b`. -/
def eq (k : Collation) (a b : String) : Bool := k.sortKey a == k.sortKey b

/-- `ORDER BY`. -/
def le (k : Collation) (a b : String) : Bool := decide (k.sortKey a ≤ k.sortKey b)

/-- Strings compare byte for byte. -/
def binary : Collation where
  sortKey s := s.toList.map Char.toNat
  sameChar := (· == ·)
  sameChar_refl _ := beq_self_eq_true _

/-- Letters compare without their case: what `utf8mb4_unicode_ci` does to ASCII text. -/
def asciiCaseInsensitive : Collation where
  sortKey s := s.toList.map fun c => c.toLower.toNat
  sameChar c d := c.toLower == d.toLower
  sameChar_refl _ := beq_self_eq_true _

variable {k : Collation}

/-- Texts that are the same are equal to the database. -/
@[simp] theorem eq_refl (a : String) : k.eq a a = true := beq_self_eq_true _

theorem eq_comm (a b : String) : k.eq a b = k.eq b a := Bool.beq_comm

theorem eq_trans {a b c : String} (h1 : k.eq a b = true) (h2 : k.eq b c = true) :
    k.eq a c = true := by
  rw [eq, beq_iff_eq] at *
  exact h1.trans h2

/-- Collation-equal strings compare alike. -/
theorem eq_congr {a b : String} (h : k.eq a b = true) (c : String) : k.eq a c = k.eq b c := by
  rw [eq, beq_iff_eq] at h
  rw [eq, eq, h]

/-- Byte for byte, equal texts are the same. -/
@[simp] theorem eq_binary {a b : String} : binary.eq a b = true ↔ a = b := by
  rw [eq, beq_iff_eq]
  constructor
  · intro h
    have hinj : Function.Injective Char.toNat := fun _ _ hcd => Char.toNat_inj.mp hcd
    exact String.toList_inj.mp (List.map_injective_iff.mpr hinj h)
  · rintro rfl
    rfl

end Collation

/-- The two values of the column. -/
inductive Visibility where
  | visibilityPublic
  | visibilityPrivate
  deriving DecidableEq

/-- A row of `buckets`. -/
structure Bucket where
  id : Nat := 0
  name : String
  createdAt : Time := 0
  updatedAt : Time := 0
  deriving DecidableEq

/-- A row of `objects`. -/
structure Object where
  id : Nat := 0
  bucketName : String
  objectKey : String
  originalFilename : String := ""
  storagePath : String
  size : Int
  contentType : String := "application/octet-stream"
  etag : String := ""
  fileFingerprint : Option String := none
  visibility : Visibility := .visibilityPrivate
  createdAt : Time := 0
  updatedAt : Time := 0
  deriving DecidableEq

/-- A row of `recycle_bin_objects`: an object, when it was deleted and in which group. -/
structure RecycleBinObject where
  id : Nat := 0
  deleteGroupID : String
  bucketName : String
  objectKey : String
  originalFilename : String := ""
  storagePath : String
  size : Int
  contentType : String := "application/octet-stream"
  etag : String := ""
  fileFingerprint : Option String := none
  visibility : Visibility := .visibilityPrivate
  createdAt : Time := 0
  deletedAt : Time := 0
  deriving DecidableEq

/-- A row of `sites`. -/
structure Site where
  id : Nat := 0
  bucketName : String
  rootPrefix : String
  enabled : Bool
  indexDocument : String
  errorDocument : String
  spaFallback : Bool
  createdAt : Time := 0
  updatedAt : Time := 0
  deriving DecidableEq

/-- A row of `site_domains`. -/
structure SiteDomain where
  id : Nat := 0
  siteID : Nat
  domain : String
  createdAt : Time := 0
  updatedAt : Time := 0
  deriving DecidableEq

/-! ## Unique keys -/

section Keys

variable (k : Collation)

/-- The primary key and the unique key on `name`. -/
def Bucket.clash (a b : Bucket) : Bool := a.id == b.id || k.eq a.name b.name

/-- `bucket_name = ? AND object_key = ?`. -/
def sameKey (bucketName objectKey : String) (o : Object) : Bool :=
  k.eq o.bucketName bucketName && k.eq o.objectKey objectKey

/-- `PRIMARY KEY (id)` and `UNIQUE (bucket_name, object_key)`. -/
def Object.clash (a b : Object) : Bool := a.id == b.id || sameKey k b.bucketName b.objectKey a

/-- Only the primary key: a key may be deleted more than once. -/
def RecycleBinObject.clash (a b : RecycleBinObject) : Bool := a.id == b.id

/-- The primary key. -/
def Site.clash (a b : Site) : Bool := a.id == b.id

/-- The primary key and the unique key on `domain`. -/
def SiteDomain.clash (a b : SiteDomain) : Bool := a.id == b.id || k.eq a.domain b.domain

instance : UniqueKey (Bucket.clash k) where
  refl a := by simp [Bucket.clash]
  comm a b := by rw [Bucket.clash, Bucket.clash, Bool.beq_comm, Collation.eq_comm]

instance : UniqueKey (Object.clash k) where
  refl a := by simp [Object.clash]
  comm a b := by
    rw [Object.clash, Object.clash, sameKey, sameKey, Bool.beq_comm,
      Collation.eq_comm a.bucketName, Collation.eq_comm a.objectKey]

instance : UniqueKey RecycleBinObject.clash where
  refl a := by simp [RecycleBinObject.clash]
  comm a b := Bool.beq_comm

instance : UniqueKey Site.clash where
  refl a := by simp [Site.clash]
  comm a b := Bool.beq_comm

instance : UniqueKey (SiteDomain.clash k) where
  refl a := by simp [SiteDomain.clash]
  comm a b := by rw [SiteDomain.clash, SiteDomain.clash, Bool.beq_comm, Collation.eq_comm]

end Keys

/-- The metadata tables and their auto-increment counters. -/
structure Tables (k : Collation) where
  buckets : Table (Bucket.clash k) := Table.empty
  objects : Table (Object.clash k) := Table.empty
  recycleBin : Table RecycleBinObject.clash := Table.empty
  sites : Table Site.clash := Table.empty
  siteDomains : Table (SiteDomain.clash k) := Table.empty
  nextBucketID : Nat := 1
  nextObjectID : Nat := 1
  nextRecycleID : Nat := 1
  nextSiteID : Nat := 1
  nextDomainID : Nat := 1

variable {k : Collation}

/-! ## `BucketRepository` -/

/-- `BucketRepository.Exists`; also the check of the foreign keys on `buckets(name)`. -/
def bucketExists (c : Tables k) (name : String) : Bool :=
  c.buckets.rows.any fun b => k.eq b.name name

/-- `BucketRepository.Create`. -/
def createBucket (c : Tables k) (bucket : Bucket) : Except Err (Tables k) :=
  match c.buckets.insert? { bucket with id := c.nextBucketID } with
  | some buckets => .ok { c with buckets := buckets, nextBucketID := c.nextBucketID + 1 }
  | none => .error .duplicatedKey

def lockByName (c : Tables k) (name : String) : Except Err Bucket :=
  orElseThrow (c.buckets.first? fun b => k.eq b.name name) .recordNotFound

/-- `ON DELETE CASCADE` of the three foreign keys on `buckets(name)` and of the one on
    `sites(id)`. -/
def deleteByName (c : Tables k) (name : String) : Bool × Tables k :=
  let gone := c.buckets.select fun b => k.eq b.name name
  let inGone (bucketName : String) : Bool := gone.any fun b => k.eq b.name bucketName
  let goneSites := c.sites.select fun s => inGone s.bucketName
  (!gone.isEmpty,
    { c with
      buckets := c.buckets.deleteWhere fun b => k.eq b.name name
      objects := c.objects.deleteWhere fun o => inGone o.bucketName
      recycleBin := c.recycleBin.deleteWhere fun r => inGone r.bucketName
      sites := c.sites.deleteWhere fun s => inGone s.bucketName
      siteDomains := c.siteDomains.deleteWhere fun d => goneSites.any fun s => s.id == d.siteID })

/-! ## `ObjectRepository` -/

/-- `INSERT INTO objects`. -/
def insertObject (c : Tables k) (object : Object) : Except Err (Tables k) :=
  if bucketExists c object.bucketName then
    match c.objects.insert? { object with id := c.nextObjectID } with
    | some objects => .ok { c with objects := objects, nextObjectID := c.nextObjectID + 1 }
    | none => .error .duplicatedKey
  else .error .foreignKey

/-- `FindActive`: the object under a key. -/
def findActive (c : Tables k) (bucketName objectKey : String) : Except Err Object :=
  orElseThrow (c.objects.first? (sameKey k bucketName objectKey)) .recordNotFound

def existsActive (c : Tables k) (bucketName objectKey : String) : Bool :=
  0 < c.objects.count (sameKey k bucketName objectKey)

/-- `bucket_name = ? AND object_key IN ?`. -/
def keyIn (k : Collation) (bucketName : String) (objectKeys : List String) (o : Object) : Bool :=
  k.eq o.bucketName bucketName && objectKeys.any fun key => k.eq o.objectKey key

/-- `ListExistingActiveKeys`, as the database spells them. -/
def listExistingActiveKeys (c : Tables k) (bucketName : String) (objectKeys : List String) :
    List String :=
  if objectKeys = [] then []
  else (c.objects.select (keyIn k bucketName objectKeys)).map (·.objectKey)

/-- `FindActiveByKeys`, with and without `FOR UPDATE`. -/
def findActiveByKeys (c : Tables k) (bucketName : String) (objectKeys : List String) :
    List Object :=
  if objectKeys = [] then [] else c.objects.select (keyIn k bucketName objectKeys)

/-- `escapeLikeValue`. -/
def escapeLikeValue (value : String) : String :=
  String.ofList (LikePattern.escapeValue '!' value.toList)

/-- The pattern of a prefix. -/
def likePrefixPattern (pfx : String) : String := escapeLikeValue pfx ++ "%"

/-- `applyObjectKeyPrefixFilter`: `object_key LIKE ? ESCAPE '!'`. -/
def prefixFilter (k : Collation) (pfx : String) (o : Object) : Bool :=
  pfx == ""
    || LikePattern.like k.sameChar '!' (likePrefixPattern pfx).toList o.objectKey.toList

/-- `ListActiveByPrefixOrdered`, with and without `FOR UPDATE`. -/
def listActiveByPrefixOrdered (c : Tables k) (bucketName pfx : String) : List Object :=
  (c.objects.select fun o => k.eq o.bucketName bucketName && prefixFilter k pfx o).mergeSort
    fun a b => k.le a.objectKey b.objectKey

def existsActiveWithPrefix (c : Tables k) (bucketName pfx : String) : Bool :=
  0 < c.objects.count fun o => k.eq o.bucketName bucketName && prefixFilter k pfx o

/-- `ListAllByBucket`, `ORDER BY id ASC`. -/
def listAllByBucket (c : Tables k) (bucketName : String) : List Object :=
  (c.objects.select fun o => k.eq o.bucketName bucketName).mergeSort fun a b => decide (a.id ≤ b.id)

/-- The columns of `DoUpdates`, taken from the new row. -/
def assignObject (object : Object) (now : Time) (row : Object) : Object :=
  { row with
    originalFilename := object.originalFilename
    storagePath := object.storagePath
    size := object.size
    contentType := object.contentType
    etag := object.etag
    fileFingerprint := object.fileFingerprint
    visibility := object.visibility
    createdAt := now
    updatedAt := now }

/-- One row of `INSERT … ON DUPLICATE KEY UPDATE`. -/
def upsertRow (now : Time) (c : Tables k) (object : Object) : Except Err (Tables k) :=
  if c.objects.rows.any (sameKey k object.bucketName object.objectKey) then
    .ok { c with
      objects := c.objects.updateWhere (sameKey k object.bucketName object.objectKey)
        (assignObject object now) fun _ _ => ⟨rfl, rfl⟩ }
  else insertObject c { object with createdAt := now, updatedAt := now }

/-- `Upsert`: the row is read back afterwards. -/
def upsert (c : Tables k) (object : Object) (now : Time) : Except Err (Tables k) := do
  let c ← upsertRow now c object
  let _ ← findActive c object.bucketName object.objectKey
  return c

/-- `Create`: an insert that a taken key refuses. -/
def create (c : Tables k) (object : Object) (now : Time) : Except Err (Tables k) :=
  insertObject c { object with createdAt := now, updatedAt := now }

/-- `UpsertBatch`: nothing is read back here. -/
def upsertBatch (c : Tables k) (objects : List Object) (batchSize : Nat) (now : Time) :
    Except Err (Tables k) :=
  (batches batchSize objects).foldlM (fun c batch => batch.foldlM (upsertRow now) c) c

def createBatch (c : Tables k) (objects : List Object) (batchSize : Nat) (now : Time) :
    Except Err (Tables k) :=
  (batches batchSize objects).foldlM
    (fun c batch => batch.foldlM (fun c object => create c object now) c) c

/-- `HardDeleteByIDs`, and `HardDeleteByID` for one id; the number of deleted rows. -/
def hardDeleteByIDs (c : Tables k) (ids : List Nat) : Nat × Tables k :=
  (c.objects.count fun o => decide (o.id ∈ ids),
    { c with objects := c.objects.deleteWhere fun o => decide (o.id ∈ ids) })

def hardDeleteByBucket (c : Tables k) (bucketName : String) : Tables k :=
  { c with objects := c.objects.deleteWhere fun o => k.eq o.bucketName bucketName }

/-- `UpdateVisibility`; that no row matches is an error. -/
def updateVisibility (c : Tables k) (bucketName objectKey : String) (visibility : Visibility)
    (now : Time) : Except Err (Tables k) := do
  ensure (0 < c.objects.count (sameKey k bucketName objectKey)) .recordNotFound
  return { c with
    objects := c.objects.updateWhere (sameKey k bucketName objectKey)
      (fun o => { o with visibility := visibility, updatedAt := now }) fun _ _ => ⟨rfl, rfl⟩ }

/-! ## `RecycleBinRepository` -/

/-- One row of `INSERT INTO recycle_bin_objects`. -/
def insertRecycle (c : Tables k) (item : RecycleBinObject) : Except Err (Tables k) :=
  if bucketExists c item.bucketName then
    match c.recycleBin.insert? { item with id := c.nextRecycleID } with
    | some recycleBin =>
        .ok { c with recycleBin := recycleBin, nextRecycleID := c.nextRecycleID + 1 }
    | none => .error .duplicatedKey
  else .error .foreignKey

/-- `RecycleBinRepository.CreateBatch`: one multi-row insert. -/
def createRecycleBatch (c : Tables k) (items : List RecycleBinObject) : Except Err (Tables k) :=
  items.foldlM insertRecycle c

/-- `RecycleBinRepository.Find`. -/
def findRecycle (c : Tables k) (id : Nat) : Except Err RecycleBinObject :=
  orElseThrow (c.recycleBin.first? fun r => r.id == id) .recordNotFound

/-- `ORDER BY id DESC`. -/
def listByDeleteGroupID (c : Tables k) (deleteGroupID : String) : List RecycleBinObject :=
  (c.recycleBin.select fun r => r.deleteGroupID == deleteGroupID).mergeSort
    fun a b => decide (b.id ≤ a.id)

/-- `ListAllByBucket`, `ORDER BY id ASC`. -/
def listAllRecycleByBucket (c : Tables k) (bucketName : String) : List RecycleBinObject :=
  (c.recycleBin.select fun r => k.eq r.bucketName bucketName).mergeSort
    fun a b => decide (a.id ≤ b.id)

/-- `HardDeleteByIDs`: how many rows went, and what is left. -/
def hardDeleteRecycleByIDs (c : Tables k) (ids : List Nat) : Nat × Tables k :=
  (c.recycleBin.count fun r => decide (r.id ∈ ids),
    { c with recycleBin := c.recycleBin.deleteWhere fun r => decide (r.id ∈ ids) })

/-- `HardDeleteByBucket`. -/
def hardDeleteRecycleByBucket (c : Tables k) (bucketName : String) : Tables k :=
  { c with recycleBin := c.recycleBin.deleteWhere fun r => k.eq r.bucketName bucketName }

/-! ## `SiteRepository` -/

/-- One row of `site_domains`; a domain belongs to one site only. -/
def insertSiteDomain (siteID : Nat) (now : Time) (c : Tables k) (domain : String) :
    Except Err (Tables k) :=
  match c.siteDomains.insert?
      { id := c.nextDomainID, siteID := siteID, domain := domain, createdAt := now,
        updatedAt := now } with
  | some siteDomains =>
      .ok { c with siteDomains := siteDomains, nextDomainID := c.nextDomainID + 1 }
  | none => .error .duplicatedKey

/-- `ReplaceDomains`: the old rows of the site go first. -/
def replaceDomains (c : Tables k) (siteID : Nat) (domains : List String) (now : Time) :
    Except Err (Tables k) :=
  domains.foldlM (insertSiteDomain siteID now)
    { c with siteDomains := c.siteDomains.deleteWhere fun d => d.siteID == siteID }

/-- `SiteRepository.Create`; its last query reads back the row it inserted. -/
def createSite (c : Tables k) (site : Site) (domains : List String) (now : Time) :
    Except Err (Tables k) :=
  if bucketExists c site.bucketName then
    match c.sites.insert? { site with id := c.nextSiteID, createdAt := now, updatedAt := now } with
    | some sites =>
        replaceDomains { c with sites := sites, nextSiteID := c.nextSiteID + 1 } c.nextSiteID
          domains now
    | none => .error .duplicatedKey
  else .error .foreignKey

/-- `SiteRepository.DeleteByBucket`. -/
def deleteSitesByBucket (c : Tables k) (bucketName : String) : Tables k :=
  let gone := c.sites.select fun s => k.eq s.bucketName bucketName
  { c with
    siteDomains := c.siteDomains.deleteWhere fun d => gone.any fun s => s.id == d.siteID
    sites := c.sites.deleteWhere fun s => k.eq s.bucketName bucketName }

end Catalog
