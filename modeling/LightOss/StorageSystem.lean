import LightOss.PublishLifecycle
import LightOss.StepSystem

/-! # The storage system — every transaction of the services, in any order

    A state is the database and a registry of what the services promise each other:
    which ids and paths were issued, which blobs were handed to `Publish` and which
    were given up.  A step is one transaction, called the way the services call it
    (`StorageOp.Allowed`); a failed transaction leaves the database as it was.

    Whatever the step, the rows of the ledger evolve by its footprint and then by
    nothing but dooming (`apply_evolves`): a publication activates first and releases
    what it replaced afterwards. -/

namespace StorageSystem

open KeyedTable Fallible LedgerRows BlobRepository LedgerSpecs LedgerMoves LedgerOps LedgerEvolution
open LedgerInvariant Catalog MetadataServices MetadataReferences StorageAudit PublishLifecycle
open StepSystem

/-! ## Publications -/

/-- The calls of `Publish`; `custom` is any other callback that keeps the contract. -/
inductive Publication where
  | upload (object : Object) (allowOverwrite : Bool) (staged : StagedBlob)
  | createInternal (object : Object) (staged : StagedBlob)
  | uploadBatch (bucketName : String) (objects : List Object) (allowOverwrite : Bool)
      (stagedBlobs : List StagedBlob)
  | publishSite (bucketName : String) (objects : List Object) (site : Site)
      (domains : List String) (stagedBlobs : List StagedBlob)
  | publishSiteFile (object : Object) (site : Site) (domains : List String) (staged : StagedBlob)
  | purge (itemID : Nat)
  | deleteBucket (name : String)
  | custom (stagedBlobs : List StagedBlob) (publishMetadata : Callback Collation.binary)

namespace Publication

/-- The handles that a publication hands to `Publish`. -/
def stagedBlobs : Publication → List StagedBlob
  | .upload _ _ staged => [staged]
  | .createInternal _ staged => [staged]
  | .uploadBatch _ _ _ stagedBlobs => stagedBlobs
  | .publishSite _ _ _ _ stagedBlobs => stagedBlobs
  | .publishSiteFile _ _ _ staged => [staged]
  | .purge _ => []
  | .deleteBucket _ => []
  | .custom stagedBlobs _ => stagedBlobs

/-- The callback that it hands over with them. -/
def publishMetadata (now : Time) : Publication → Callback Collation.binary
  | .upload object allowOverwrite _ => uploadMetadata object allowOverwrite now
  | .createInternal object _ => createInternalMetadata object now
  | .uploadBatch bucketName objects allowOverwrite _ =>
      uploadBatchMetadata bucketName objects allowOverwrite now
  | .publishSite bucketName objects site domains _ =>
      publishSiteMetadata bucketName objects site domains now
  | .publishSiteFile object site domains _ => publishSiteFileMetadata object site domains now
  | .purge itemID => purgeMetadata itemID
  | .deleteBucket name => deleteBucketMetadata name
  | .custom _ f => f

/-- The object row a service builds for a staged file. -/
structure Refers (object : Object) (staged : StagedBlob) : Prop where
  path : object.storagePath = staged.storagePath
  nonempty : staged.storagePath ≠ ""
  size : object.size = int64 staged.size

/-- What the service checked before it published: one row for each staged file, and a
    manifest without a repeated key. -/
def Accepted : Publication → Prop
  | .upload object _ staged => Refers object staged
  | .createInternal object staged => Refers object staged
  | .uploadBatch bucketName objects _ stagedBlobs =>
      List.Forall₂ Refers objects stagedBlobs ∧ DistinctKeys Collation.binary bucketName objects
  | .publishSite bucketName objects _ _ stagedBlobs =>
      List.Forall₂ Refers objects stagedBlobs ∧ DistinctKeys Collation.binary bucketName objects
  | .publishSiteFile object _ _ staged => Refers object staged
  | .purge _ => True
  | .deleteBucket _ => True
  | .custom stagedBlobs f => Disciplined f (stagedRefs stagedBlobs)

/-- The reference of a row for a handle is that of the handle. -/
theorem objectRef_refers {object : Object} {staged : StagedBlob} (h : Refers object staged) :
    objectRef object = stagedRefs [staged] := by
  rw [objectRef, fileRef, h.path, if_neg h.nonempty, h.size]
  rfl

theorem objectRefs_refers {objects : List Object} {stagedBlobs : List StagedBlob}
    (h : List.Forall₂ Refers objects stagedBlobs) :
        objectRefs objects = stagedRefs stagedBlobs := by
  induction h with
  | nil => rfl
  | cons hfirst _ ih =>
      rw [objectRefs] at ih
      rw [objectRefs, List.map_cons, List.sum_cons, ih, objectRef_refers hfirst]
      exact Multiset.coe_add _ _

/-- Every accepted publication reports what it gives up. -/
theorem disciplined (p : Publication) (h : p.Accepted) (now : Time) :
    Disciplined (p.publishMetadata now) (stagedRefs p.stagedBlobs) := by
  cases p with
  | upload object allowOverwrite staged =>
      have hrefs := objectRef_refers h
      exact hrefs ▸ upload_disciplined object allowOverwrite now
  | createInternal object staged =>
      have hrefs := objectRef_refers h
      exact hrefs ▸ createInternal_disciplined object now
  | uploadBatch bucketName objects allowOverwrite stagedBlobs =>
      have hrefs := objectRefs_refers h.1
      exact hrefs ▸ uploadBatch_disciplined h.2 allowOverwrite now
  | publishSite bucketName objects site domains stagedBlobs =>
      have hrefs := objectRefs_refers h.1
      exact hrefs ▸ publishSite_disciplined h.2 site domains now
  | publishSiteFile object site domains staged =>
      have hrefs := objectRef_refers h
      exact hrefs ▸ publishSiteFile_disciplined object site domains now
  | purge itemID => exact purge_disciplined itemID
  | deleteBucket name => exact deleteBucket_disciplined name
  | custom stagedBlobs f => exact h

end Publication

/-! ## Writes that only move metadata -/

/-- The transactions that touch the catalog alone. -/
inductive CatalogWrite where
  | createBucket (bucket : Bucket)
  | updateVisibility (bucketName objectKey : String) (visibility : Visibility) (now : Time)
  | deleteObject (bucketName objectKey : String) (deletedAt : Time) (deleteGroupID : String)
  | deleteFolder (bucketName folderPath : String) (isRecursive : Bool) (deletedAt : Time)
      (deleteGroupID : String)
  | restoreObject (itemID : Nat) (updatedAt : Time)
  | createSite (site : Site) (domains : List String) (now : Time)

/-- Each transaction under its name. -/
def CatalogWrite.run (c : Tables Collation.binary) :
    CatalogWrite → Except Err (Tables Collation.binary)
  | .createBucket bucket => Catalog.createBucket c bucket
  | .updateVisibility bucketName objectKey visibility now =>
      Catalog.updateVisibility c bucketName objectKey visibility now
  | .deleteObject bucketName objectKey deletedAt group =>
      MetadataServices.deleteObject c bucketName objectKey deletedAt group
  | .deleteFolder bucketName folderPath isRecursive deletedAt group =>
      MetadataServices.deleteFolder c bucketName folderPath isRecursive deletedAt group
  | .restoreObject itemID updatedAt => MetadataServices.restoreObject c itemID updatedAt
  | .createSite site domains now => Catalog.createSite c site domains now

/-- No transaction of the catalog gains or loses a reference. -/
theorem references_catalogWrite {c c' : Tables Collation.binary} {w : CatalogWrite}
    (h : w.run c = .ok c') : references c' = references c := by
  cases w with
  | createBucket bucket => exact references_createBucket h
  | updateVisibility bucketName objectKey visibility now => exact references_updateVisibility h
  | deleteObject bucketName objectKey deletedAt group => exact references_deleteObject h
  | deleteFolder bucketName folderPath isRecursive deletedAt group =>
      exact references_deleteFolder h
  | restoreObject itemID updatedAt => exact references_restoreObject h
  | createSite site domains now => exact references_of_kept (CatalogSpecs.createSite_ok h)

/-! ## The registry -/

/-- What was issued and promised so far.  `created` holds every row `Stage` and
    `StageKnownBatch` made up, whether or not its insert went through. -/
structure Registry where
  created : List StorageBlob := []
  issuedIDs : List String := []
  issuedPaths : List String := []
  published : List String := []
  aborted : List String := []

namespace Registry

/-- The staging paths of the rows. -/
def stagingPaths (blobs : List StorageBlob) : List String := blobs.filterMap (·.stagingPath)

/-- Rows of the ledger get their ids and paths. -/
def issue (g : Registry) (blobs : List StorageBlob) : Registry :=
  { g with
    created := blobs ++ g.created
    issuedIDs := blobs.map (·.id) ++ g.issuedIDs
    issuedPaths := blobs.map (·.storagePath) ++ (stagingPaths blobs ++ g.issuedPaths) }

/-- An orphan's id is new; its path is one that some earlier blob may have had. -/
def adopt (g : Registry) (blob : StorageBlob) : Registry :=
  { g with
    issuedIDs := blob.id :: g.issuedIDs
    issuedPaths := blob.storagePath :: g.issuedPaths }

/-- What a ledger call issues. -/
def note (g : Registry) : LedgerOp → Registry
  | .createStaging blob _ _ => g.issue [blob]
  | .createStagingBatch blobs _ _ _ => g.issue blobs
  | .registerOrphan blob => g.adopt blob
  | _ => g

end Registry

/-- New rows of an uploader: staging rows with fresh ids and fresh, distinct paths. -/
structure NewBlobs (g : Registry) (blobs : List StorageBlob) : Prop where
  staging : ∀ b ∈ blobs, NewStaging b
  ids : (blobs.map (·.id)).Nodup
  freshIDs : ∀ b ∈ blobs, b.id ∉ g.issuedIDs
  nonempty : ∀ b ∈ blobs, b.storagePath ≠ ""
  storagePaths : ∀ b ∈ blobs, b.storagePath ∉ g.issuedPaths
  stagingPaths : ∀ b ∈ blobs, ∀ p ∈ b.stagingPath, p ∉ g.issuedPaths
  apart : ∀ b ∈ blobs, ∀ c ∈ blobs, b.stagingPath ≠ some c.storagePath
  distinct : ∀ b ∈ blobs, ∀ c ∈ blobs, c.stagingPath = b.stagingPath → c = b

/-- An orphan row for a file that no blob row manages. -/
structure NewOrphan (g : Registry) (l : Ledger) (blob : StorageBlob) : Prop where
  status : blob.status = .orphaned
  stagingPath : blob.stagingPath = none
  lease : blob.stagingLeaseExpiresAt = none
  refCount : blob.refCount = 0
  freshID : blob.id ∉ g.issuedIDs
  nonempty : blob.storagePath ≠ ""
  unowned : ∀ b ∈ l.blobs.rows, b.storagePath ≠ blob.storagePath
    ∧ b.stagingPath ≠ some blob.storagePath

/-- The handle is one that `Stage` or `StageKnownBatch` returned and nobody aborted. -/
structure Publishable (g : Registry) (staged : StagedBlob) : Prop where
  created : ∃ c ∈ g.created, c.id = staged.id ∧ c.storagePath = staged.storagePath
  size : staged.size < 2 ^ 63
  kept : staged.id ∉ g.aborted

/-! ## States and steps -/

/-- The database and the registry. -/
structure State where
  db : Database Collation.binary
  registry : Registry := {}

/-- A freshly migrated database. -/
def State.initial : State := { db := Database.migrated Collation.binary }

/-- A transaction of the services, or an uploader's decision to give up. -/
inductive StorageOp where
  | ledger (op : LedgerOp)
  | publish (p : Publication) (now : Time)
  | confirm (stagedBlobs : List StagedBlob) (now : Time)
  | abort (ids : List String)
  | catalog (w : CatalogWrite)

/-- How the services call the repository.  Activation, release of references and sealing
    of a publication only happen inside `publish` and `confirm`. -/
def AllowedLedgerOp (s : State) : LedgerOp → Prop
  | .createStaging blob _ _ => NewBlobs s.registry [blob] ∧ blob.size = 0
  | .createStagingBatch blobs _ _ _ => NewBlobs s.registry blobs
  | .enqueueCleanup requests _ _ => ∀ r ∈ requests, r.blobID ∈ s.registry.aborted
      ∧ ∃ c ∈ s.registry.created, c.id = r.blobID ∧ c.storagePath = r.storagePath
  | .registerOrphan blob => NewOrphan s.registry s.db.ledger blob
  | .activate _ _ => False
  | .releaseReferences _ _ _ => False
  | .sealStaging _ _ => False
  | _ => True

/-- How the services call it. -/
def StorageOp.Allowed (s : State) : StorageOp → Prop
  | .ledger op => AllowedLedgerOp s op
  | .publish p _ => p.Accepted ∧ ∀ staged ∈ p.stagedBlobs, Publishable s.registry staged
  | .confirm _ _ => True
  | .abort ids => ∀ id ∈ ids, id ∉ s.registry.published
  | .catalog _ => True

/-- What it leaves; an error leaves the database as it was. -/
def StorageOp.apply (s : State) : StorageOp → State
  | .ledger op =>
      { db := { s.db with ledger := op.apply s.db.ledger }, registry := s.registry.note op }
  | .publish p now =>
      { db := commitOr s.db (publishTransaction s.db p.stagedBlobs (p.publishMetadata now) now)
        registry := { s.registry with
          published := p.stagedBlobs.map (·.id) ++ s.registry.published } }
  | .confirm stagedBlobs now =>
      { s with db := { s.db with
          ledger := commitOr s.db.ledger
            ((confirmPublishOutcome s.db.ledger stagedBlobs now).map Prod.snd) } }
  | .abort ids => { s with registry := { s.registry with aborted := ids ++ s.registry.aborted } }
  | .catalog w =>
      { s with db := { s.db with catalog := commitOr s.db.catalog (w.run s.db.catalog) } }

/-- The system from the empty migrated database. -/
def storageSystem : System State StorageOp where
  start s := s = State.initial
  step s op s' := op.Allowed s ∧ s' = op.apply s

/-- An allowed step from a reachable state. -/
theorem reachable_apply {s : State} {op : StorageOp} (h : Reachable storageSystem s)
    (hop : op.Allowed s) : Reachable storageSystem (op.apply s) := h.step ⟨hop, rfl⟩

/-! ## What a step does to the rows -/

/-- The footprint of a step; a publication drops references afterwards. -/
def StorageOp.footprint (s : State) : StorageOp → Footprint
  | .ledger op => LedgerOp.footprint s.db.ledger op
  | .publish p _ => { activations := activationsOf p.stagedBlobs }
  | _ => {}

/-- Every step evolves the rows: by its footprint, then by nothing but dooming. -/
theorem apply_evolves (s : State) (op : StorageOp) :
    ∃ m, Evolution (StorageOp.footprint s op) s.db.ledger m
      ∧ Evolution {} m (op.apply s).db.ledger := by
  cases op with
  | ledger op =>
      rcases apply_cases s.db.ledger op with hrun | hsame
      · exact ⟨_, run_evolves hrun, .refl _ _⟩
      · refine ⟨s.db.ledger, .refl _ _, ?_⟩
        rw [StorageOp.apply, hsame]
        exact .refl _ _
  | publish p now =>
      rw [StorageOp.apply]
      cases hp : publishTransaction s.db p.stagedBlobs (p.publishMetadata now) now with
      | error err => exact ⟨_, .refl _ _, .refl _ _⟩
      | ok db' =>
          -- activation first, then the release of what was replaced
          obtain ⟨found, m, releasedPaths, hpub⟩ := publishTransaction_ok hp
          exact ⟨m, evolution_published hpub⟩
  | confirm stagedBlobs now =>
      rw [StorageOp.apply]
      cases hc : confirmPublishOutcome s.db.ledger stagedBlobs now with
      | error err => exact ⟨_, .refl _ _, .refl _ _⟩
      | ok r =>
          obtain ⟨outcome, l'⟩ := r
          rcases confirmPublishOutcome_ok hc with ⟨-, hsame, -⟩ | ⟨-, -, hsealed⟩
          · refine ⟨_, .refl _ _, ?_⟩
            show Evolution {} s.db.ledger l'
            rw [hsame]
            exact .refl _ _
          · exact ⟨_, .refl _ _, evolution_sealed hsealed⟩
  | abort ids => exact ⟨_, .refl _ _, .refl _ _⟩
  | catalog w => exact ⟨_, .refl _ _, .refl _ _⟩

end StorageSystem
