import LightOss.KeyedTable
import LightOss.Fallible

/-! # Ledger rows — `storage_blobs`, `storage_cleanup_jobs`, the quota row

    The three tables the storage ledger consists of, with the constraints of the
    migration: a blob row is unique by id and by storage path, a cleanup job by id
    and by blob, a job references its blob (`ON DELETE CASCADE`), and there is one
    quota row.  Sizes and counters are `BIGINT UNSIGNED`: the database refuses an
    expression that leaves the range instead of wrapping it. -/

namespace LedgerRows

open KeyedTable Fallible

/-- An instant in nanoseconds since the Unix epoch, UTC. -/
abbrev Time := Int

/-- A `time.Duration` in nanoseconds. -/
abbrev Duration := Int

/-- `^uint64(0)`. -/
def maxUint64 : Nat := 2 ^ 64 - 1

/-- What a repository or service call can return as an error. -/
inductive Err where
  | recordNotFound
  | duplicatedKey
  | foreignKey
  | outOfRange (column : String)
  | storageQuotaExceeded
  | storageQuotaBelowUsage
  | errorf (text : String)
  | app (status : Nat) (code message : String)
  | wrapped (status : Nat) (code message : String) (cause : Err)
  deriving DecidableEq

/-- `column + n` on a `BIGINT UNSIGNED` column. -/
def u64Add (column : String) (a n : Nat) : Except Err Nat :=
  if a + n ≤ maxUint64 then .ok (a + n) else .error (.outOfRange column)

/-- `column - n` on a `BIGINT UNSIGNED` column. -/
def u64Sub (column : String) (a n : Nat) : Except Err Nat :=
  if n ≤ a then .ok (a - n) else .error (.outOfRange column)

theorem u64Add_eq_ok {column : String} {a n r : Nat} :
    u64Add column a n = .ok r ↔ a + n ≤ maxUint64 ∧ r = a + n := by
  unfold u64Add
  split <;> simp_all [eq_comm]

theorem u64Sub_eq_ok {column : String} {a n r : Nat} :
    u64Sub column a n = .ok r ↔ n ≤ a ∧ r = a - n := by
  unfold u64Sub
  split <;> simp_all [eq_comm]

/-- The four values of the `status` column. -/
inductive StorageBlobStatus where
  | staging
  | active
  | pendingDelete
  | orphaned
  deriving DecidableEq

/-- As the column and the error texts write them. -/
def StorageBlobStatus.text : StorageBlobStatus → String
  | .staging => "staging"
  | .active => "active"
  | .pendingDelete => "pending_delete"
  | .orphaned => "orphaned"

/-- A row of `storage_blobs`. -/
structure StorageBlob where
  id : String
  storagePath : String
  stagingPath : Option String := none
  size : Nat := 0
  refCount : Nat := 0
  status : StorageBlobStatus
  stagingLeaseExpiresAt : Option Time := none
  createdAt : Time := 0
  deriving DecidableEq

/-- `blob.StagingPath != nil && *blob.StagingPath != ""`. -/
def StorageBlob.hasStagingPath (b : StorageBlob) : Bool :=
  match b.stagingPath with
  | some p => p != ""
  | none => false

/-- The column of the quota row that pays for a blob: the bytes of a blob that
    still has a staging path are reserved, all others are used. -/
def StorageBlob.reservedSize (b : StorageBlob) : Nat := if b.hasStagingPath then b.size else 0

/-- What the row adds to `used_bytes`: nothing while it still has a staging path. -/
def StorageBlob.usedSize (b : StorageBlob) : Nat := if b.hasStagingPath then 0 else b.size

/-- A staging row is reserved, not used. -/
theorem StorageBlob.usedSize_of_staging {b : StorageBlob} (h : b.hasStagingPath = true) :
    b.usedSize = 0 := if_pos h

theorem StorageBlob.reservedSize_of_staging {b : StorageBlob} (h : b.hasStagingPath = true) :
    b.reservedSize = b.size := if_pos h

/-- `PRIMARY KEY (id)` and `UNIQUE (storage_path)`. -/
def StorageBlob.clash (a b : StorageBlob) : Bool :=
  a.id == b.id || a.storagePath == b.storagePath

instance : UniqueKey StorageBlob.clash where
  refl a := by simp [StorageBlob.clash]
  comm a b := by simp [StorageBlob.clash, Bool.beq_comm]

theorem StorageBlob.clash_of_id {a b : StorageBlob} (h : a.id = b.id) :
    StorageBlob.clash a b = true := by
  simp [StorageBlob.clash, h]

theorem StorageBlob.clash_of_path {a b : StorageBlob} (h : a.storagePath = b.storagePath) :
    StorageBlob.clash a b = true := by
  simp [StorageBlob.clash, h]

/-- A row of `storage_cleanup_jobs`; the lease columns are null while no worker has it. -/
structure StorageCleanupJob where
  id : Nat := 0
  blobID : String
  storagePath : String
  retryCount : Nat := 0
  nextRetryAt : Time
  lastError : String
  leaseOwner : Option String := none
  leaseExpiresAt : Option Time := none
  deriving DecidableEq

/-- `PRIMARY KEY (id)` and `UNIQUE (blob_id)`. -/
def StorageCleanupJob.clash (a b : StorageCleanupJob) : Bool :=
  a.id == b.id || a.blobID == b.blobID

instance : UniqueKey StorageCleanupJob.clash where
  refl a := by simp [StorageCleanupJob.clash]
  comm a b := by simp [StorageCleanupJob.clash, Bool.beq_comm]

theorem StorageCleanupJob.clash_of_id {a b : StorageCleanupJob} (h : a.id = b.id) :
    StorageCleanupJob.clash a b = true := by
  simp [StorageCleanupJob.clash, h]

/-- The row of `system_storage_quotas` with `systemStorageQuotaRowID`: the migration
    inserts it and no code deletes it. -/
structure SystemStorageQuota where
  maxBytes : Nat
  usedBytes : Nat := 0
  reservedBytes : Nat := 0
  reconciledAt : Option Time := none
  storageID : Option String := none
  deriving DecidableEq

/-- The tables behind `StorageBlobRepository` and `StorageQuotaRepository`;
    `nextJobID` is the auto-increment counter of `storage_cleanup_jobs`. -/
structure Ledger where
  quota : SystemStorageQuota
  blobs : Table StorageBlob.clash
  jobs : Table StorageCleanupJob.clash
  nextJobID : Nat

/-- The ledger of a freshly migrated database. -/
def Ledger.migrated : Ledger where
  quota := { maxBytes := 10737418240 }
  blobs := Table.empty
  jobs := Table.empty
  nextJobID := 1

namespace Ledger

/-- `UPDATE storage_blobs SET f WHERE p`; no statement assigns the key columns. -/
def updateBlobs (l : Ledger) (p : StorageBlob → Bool) (f : StorageBlob → StorageBlob)
    (hf : KeepsKey StorageBlob.clash f := by exact fun _ _ => ⟨rfl, rfl⟩) : Ledger :=
  { l with blobs := l.blobs.updateWhere p f hf }

/-- `UPDATE storage_cleanup_jobs SET f WHERE p`. -/
def updateJobs (l : Ledger) (p : StorageCleanupJob → Bool)
    (f : StorageCleanupJob → StorageCleanupJob)
    (hf : KeepsKey StorageCleanupJob.clash f := by exact fun _ _ => ⟨rfl, rfl⟩) : Ledger :=
  { l with jobs := l.jobs.updateWhere p f hf }

/-- `INSERT INTO storage_blobs`. -/
def createBlob (l : Ledger) (blob : StorageBlob) : Except Err Ledger :=
  match l.blobs.insert? blob with
  | some blobs => .ok { l with blobs := blobs }
  | none => .error .duplicatedKey

/-- `DELETE FROM storage_blobs WHERE p`; the foreign key takes the jobs along. -/
def deleteBlobs (l : Ledger) (p : StorageBlob → Bool) : Ledger :=
  { l with
    blobs := l.blobs.deleteWhere p
    jobs := l.jobs.deleteWhere fun j => (l.blobs.select p).any fun b => b.id == j.blobID }

/-- `INSERT INTO storage_cleanup_jobs … ON DUPLICATE KEY UPDATE onConflict`: the
    conflict is on `blob_id`, a new row gets the next auto-increment id. -/
def createJob (l : Ledger) (job : StorageCleanupJob)
    (onConflict : StorageCleanupJob → StorageCleanupJob)
    (hf : KeepsKey StorageCleanupJob.clash onConflict) : Except Err Ledger :=
  if l.blobs.rows.any fun b => b.id == job.blobID then
    if l.jobs.rows.any fun j => j.blobID == job.blobID then
      .ok { l with jobs := l.jobs.updateWhere (fun j => j.blobID == job.blobID) onConflict hf }
    else
      match l.jobs.insert? { job with id := l.nextJobID } with
      | some jobs => .ok { l with jobs := jobs, nextJobID := l.nextJobID + 1 }
      | none => .error .duplicatedKey
  else .error .foreignKey

/-- `clause.OnConflict{Columns: blob_id, DoNothing: true}`. -/
def createJobDoNothing (l : Ledger) (job : StorageCleanupJob) : Except Err Ledger :=
  l.createJob job id fun _ _ => ⟨rfl, rfl⟩

end Ledger

end LedgerRows
