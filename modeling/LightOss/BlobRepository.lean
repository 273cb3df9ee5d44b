import LightOss.LedgerRows

/-! # The blob repository — every statement that moves ledger bytes

    `StorageBlobRepository`, function by function, in the order of its files
    (`storage_blob_repository`, `…_ledger_…`, `…_release_…`, `…_reconciliation_…`,
    `storage_cleanup_job_repository`) and `UpdateMaxBytes` of the quota repository.

    A function whose statements run in one transaction is a map
    `Ledger → Except Err Ledger`: an error is the rollback.  `RenewStagingLease` is
    the only one that issues several statements outside a transaction, so it also
    returns the ledger when it fails.  What each of them may do to the ledger is said
    once in `LedgerSpecs`; later modules do not unfold these definitions. -/

namespace BlobRepository

open KeyedTable Fallible LedgerRows

/-- `normalizeStorageBlobBatchSize`. -/
def normalizeStorageBlobBatchSize (batchSize : Int) : Nat :=
  if batchSize ≤ 0 then 100 else batchSize.toNat

theorem normalizeStorageBlobBatchSize_pos (batchSize : Int) :
    0 < normalizeStorageBlobBatchSize batchSize := by
  rw [normalizeStorageBlobBatchSize]
  split <;> omega

/-- A staged blob and the size its file turned out to have. -/
structure StorageBlobActivation where
  id : String
  actualSize : Nat

/-- The guarded `UPDATE … SET reserved_bytes = reserved_bytes + ?` of `Reserve` and
    `createStagingBatch`; the conjuncts of the `WHERE` clause are tested left to
    right, so no subtraction leaves the range. -/
def reserveQuota (l : Ledger) (bytes : Nat) : Except Err Ledger :=
  if l.quota.usedBytes ≤ l.quota.maxBytes
      ∧ l.quota.reservedBytes ≤ l.quota.maxBytes - l.quota.usedBytes
      ∧ bytes ≤ l.quota.maxBytes - l.quota.usedBytes - l.quota.reservedBytes then do
    let reserved ← u64Add "reserved_bytes" l.quota.reservedBytes bytes
    return { l with quota := { l.quota with reservedBytes := reserved } }
  else .error .storageQuotaExceeded

/-- The guarded `UPDATE … SET reserved_bytes = reserved_bytes - ?` of the release
    functions. -/
def releaseQuota (l : Ledger) (bytes : Nat) (inconsistent : Err) : Except Err Ledger :=
  if bytes ≤ l.quota.reservedBytes then do
    let reserved ← u64Sub "reserved_bytes" l.quota.reservedBytes bytes
    return { l with quota := { l.quota with reservedBytes := reserved } }
  else .error inconsistent

/-! ## `RenewStagingLease` -/

/-- The distinct ids in order; the empty id is an error. -/
def leaseIDs : List String → List String → Except Err (List String)
  | _, [] => .ok []
  | seen, blobID :: rest =>
      if blobID = "" then .error (.errorf "staging lease blob id is required")
      else if blobID ∈ seen then leaseIDs seen rest
      else do
        let ids ← leaseIDs (blobID :: seen) rest
        return blobID :: ids

/-- One `UPDATE … SET staging_lease_expires_at WHERE id IN batch AND status =
    'staging'`. -/
def renewLeaseBatch (l : Ledger) (batch : List String) (expiresAt : Time) : Ledger :=
  l.updateBlobs (fun b => decide (b.id ∈ batch ∧ b.status = .staging))
    (fun b => { b with stagingLeaseExpiresAt := some expiresAt })

/-- The loop of `RenewStagingLease`: the first batch that misses a row stops it, with that
    batch already renewed. -/
def renewLeaseBatches (expiresAt : Time) : Ledger → List (List String) → Ledger × Except Err Unit
  | l, [] => (l, .ok ())
  | l, batch :: rest =>
      if l.blobs.count (fun b => decide (b.id ∈ batch ∧ b.status = .staging)) = batch.length then
        renewLeaseBatches expiresAt (renewLeaseBatch l batch expiresAt) rest
      else
        (renewLeaseBatch l batch expiresAt,
          .error (.errorf "staging lease batch changed concurrently"))

/-- `RenewStagingLease` at database time `now`. -/
def renewStagingLease (l : Ledger) (blobIDs : List String) (lease : Duration)
    (batchSize : Int) (now : Time) : Ledger × Except Err Unit :=
  if blobIDs = [] then (l, .ok ())
  else if lease ≤ 0 then (l, .error (.errorf "staging lease must be greater than zero"))
  else
    match leaseIDs [] blobIDs with
    | .error err => (l, .error err)
    | .ok ids =>
        renewLeaseBatches (now + lease) l (batches (normalizeStorageBlobBatchSize batchSize) ids)

/-- `RenewStagingLease` inside a transaction. -/
def renewStagingLeaseTx (l : Ledger) (blobIDs : List String) (lease : Duration)
    (batchSize : Int) (now : Time) : Except Err Ledger :=
  match renewStagingLease l blobIDs lease batchSize now with
  | (l', .ok ()) => .ok l'
  | (_, .error err) => .error err

/-! ## `CreateStaging`, `CreateStagingWithLease`, `CreateStagingBatchWithLease` -/

/-- `CreateStaging`: a row and nothing else. -/
def createStaging (l : Ledger) (blob : StorageBlob) : Except Err Ledger := l.createBlob blob

/-- `CreateStagingWithLease`: the row and its lease in one transaction. -/
def createStagingWithLease (l : Ledger) (blob : StorageBlob) (lease : Duration)
    (now : Time) : Except Err Ledger := do
  let l ← l.createBlob blob
  renewStagingLeaseTx l [blob.id] lease 1 now

/-- `totalReserved` of `createStagingBatch`. -/
def totalReserved : Nat → List StorageBlob → Except Err Nat
  | total, [] => .ok total
  | total, blob :: rest =>
      if maxUint64 - total < blob.size then
        .error (.errorf "storage blob reservation size overflow")
      else totalReserved (total + blob.size) rest

/-- `CreateInBatches(&blobs, batchSize)`. -/
def createBlobsInBatches (l : Ledger) (blobs : List StorageBlob) (batchSize : Nat) :
    Except Err Ledger :=
  (batches batchSize blobs).foldlM (fun l batch => batch.foldlM Ledger.createBlob l) l

/-- `CreateStagingBatch`: the bytes of all rows are reserved at once, before the rows. -/
def createStagingBatch (l : Ledger) (blobs : List StorageBlob) (batchSize : Int)
    (lease : Duration) (now : Time) : Except Err Ledger :=
  if blobs = [] then .ok l
  else do
    let batchSize := normalizeStorageBlobBatchSize batchSize
    let total ← totalReserved 0 blobs
    let l ← (if 0 < total then reserveQuota l total else .ok l)
    let l ← createBlobsInBatches l blobs batchSize
    if lease ≤ 0 then .ok l
    else renewStagingLeaseTx l (blobs.map (·.id)) lease batchSize now

/-- `CreateStagingBatchWithLease`: a lease is required here. -/
def createStagingBatchWithLease (l : Ledger) (blobs : List StorageBlob) (batchSize : Int)
    (lease : Duration) (now : Time) : Except Err Ledger :=
  if lease ≤ 0 then .error (.errorf "staging lease must be greater than zero")
  else createStagingBatch l blobs batchSize lease now

/-! ## `Reserve` -/

/-- `Reserve`: the quota and the size of the row grow together. -/
def reserve (l : Ledger) (blobID : String) (bytes : Nat) : Except Err Ledger :=
  if bytes = 0 then .ok l
  else do
    let blob ← orElseThrow
      (l.blobs.first? fun b => decide (b.id = blobID ∧ b.status = .staging)) .recordNotFound
    let l ← reserveQuota l bytes
    let size ← u64Add "size" blob.size bytes
    return l.updateBlobs (fun b => decide (b.id = blobID ∧ b.status = .staging))
      (fun b => { b with size := size })

/-! ## `ActivateStaging`, `ActivateStagingBatch` -/

/-- `UPDATE … SET reserved_bytes = reserved_bytes - ?, used_bytes = used_bytes + ?
    WHERE reserved_bytes >= ?`; `Updates` also refreshes `updated_at`, so a row that
    matches is a row that is affected. -/
def moveReservedToUsed (l : Ledger) (reservedBytes actualBytes : Nat) (inconsistent : Err) :
    Except Err Ledger := do
  ensure (reservedBytes ≤ l.quota.reservedBytes) inconsistent
  let reserved ← u64Sub "reserved_bytes" l.quota.reservedBytes reservedBytes
  let used ← u64Add "used_bytes" l.quota.usedBytes actualBytes
  return { l with quota := { l.quota with reservedBytes := reserved, usedBytes := used } }

/-- The last statement does not look at the number of rows it changes. -/
def activateStaging (l : Ledger) (blobID : String) (actualSize : Nat) : Except Err Ledger := do
  let blob ← orElseThrow (l.blobs.first? fun b => b.id == blobID) .recordNotFound
  ensure (blob.status = .staging)
    (.errorf s!"cannot activate blob {blob.id} in status {blob.status.text}")
  ensure (actualSize ≤ blob.size)
    (.errorf s!"blob {blob.id} size {actualSize} exceeds reserved bytes {blob.size}")
  let l ← moveReservedToUsed l blob.size actualSize
    (.errorf s!"storage quota reservation for blob {blob.id} is inconsistent")
  return l.updateBlobs (fun b => decide (b.id = blob.id ∧ b.status = .staging)) fun b =>
    { b with
      size := actualSize
      refCount := 1
      status := .active
      stagingPath := none
      stagingLeaseExpiresAt := none }

/-- Every id is given, and given once. -/
def checkActivations : List String → List StorageBlobActivation → Except Err Unit
  | _, [] => .ok ()
  | seen, activation :: rest =>
      if activation.id = "" then .error (.errorf "storage blob activation id is required")
      else if activation.id ∈ seen then
        .error (.errorf s!"storage blob activation {activation.id} is duplicated")
      else checkActivations (activation.id :: seen) rest

/-- The locking reads `SELECT … WHERE id IN batch FOR UPDATE`, batch by batch.  The
    ids are distinct, so the map the code collects them in has one entry a row. -/
def findBlobsByID (l : Ledger) (ids : List String) (batchSize : Nat) : List StorageBlob :=
  (batches batchSize ids).flatMap fun batch => l.blobs.select fun b => decide (b.id ∈ batch)

/-- `totalReserved` and `totalActual` of `ActivateStagingBatch`. -/
def activationTotals (blobs : List StorageBlob) :
    Nat → Nat → List StorageBlobActivation → Except Err (Nat × Nat)
  | reserved, actual, [] => .ok (reserved, actual)
  | reserved, actual, activation :: rest => do
      let blob ← orElseThrow (blobs.find? fun b => b.id == activation.id)
        (.errorf "cannot activate blob  in status ")
      ensure (blob.status = .staging)
        (.errorf s!"cannot activate blob {blob.id} in status {blob.status.text}")
      ensure (activation.actualSize ≤ blob.size)
        (.errorf s!"blob {blob.id} size {activation.actualSize} exceeds reserved bytes {blob.size}")
      ensure (¬ (maxUint64 - reserved < blob.size ∨ maxUint64 - actual < activation.actualSize))
        (.errorf "storage blob activation size overflow")
      activationTotals blobs (reserved + blob.size) (actual + activation.actualSize) rest

/-- `CASE id WHEN ? THEN ? … END`. -/
def activatedSize (batch : List StorageBlobActivation) (b : StorageBlob) : Nat :=
  match batch.find? fun activation => activation.id == b.id with
  | some activation => activation.actualSize
  | none => 0

/-- One batch of `ActivateStagingBatch`; a row that left `staging` meanwhile is missed and
    counted. -/
def activateBatch (l : Ledger) (batch : List StorageBlobActivation) : Except Err Ledger := do
  let p : StorageBlob → Bool := fun b =>
    decide (b.id ∈ batch.map (·.id) ∧ b.status = .staging)
  ensure (l.blobs.count p = batch.length)
    (.errorf "storage blob batch activation is inconsistent")
  return l.updateBlobs p fun b =>
    { b with
      size := activatedSize batch b
      refCount := 1
      status := .active
      stagingPath := none
      stagingLeaseExpiresAt := none }

/-- `ActivateStagingBatch`: what was reserved is released, and what is there is used. -/
def activateStagingBatch (l : Ledger) (activations : List StorageBlobActivation)
    (batchSize : Int) : Except Err Ledger :=
  if activations = [] then .ok l
  else do
    let batchSize := normalizeStorageBlobBatchSize batchSize
    checkActivations [] activations
    let ids := activations.map (·.id)
    let blobs := findBlobsByID l ids batchSize
    ensure (blobs.length = ids.length) .recordNotFound
    let (reserved, actual) ← activationTotals blobs 0 0 activations
    let l ← moveReservedToUsed l reserved actual
      (.errorf "storage quota batch reservation is inconsistent")
    (batches batchSize activations).foldlM activateBatch l

/-! ## `ReleaseReferences` -/

/-- `countStoragePaths`: how often a path is released. -/
def countStoragePaths (paths : List String) (storagePath : String) : Nat :=
  (paths.filter (· ≠ "")).count storagePath

/-- The keys of `countStoragePaths` after `sort.Strings`. -/
def sortedStoragePaths (paths : List String) : List String :=
  (paths.filter (· ≠ "")).dedup.mergeSort (fun a b => decide (a ≤ b))

/-- The blobs of the paths, in batches. -/
def findBlobsByPath (l : Ledger) (paths : List String) (batchSize : Nat) : List StorageBlob :=
  (batches batchSize paths).flatMap fun batch =>
    l.blobs.select fun b => decide (b.storagePath ∈ batch)

/-- What `ReleaseReferences` writes to one row. -/
structure ReferenceUpdate where
  id : String
  refCount : Nat
  status : StorageBlobStatus

/-- The planned row updates and cleanup jobs, path by path. -/
def referenceUpdates (blobs : List StorageBlob) (storagePaths : List String) (now : Time) :
    List String → Except Err (List ReferenceUpdate × List StorageCleanupJob)
  | [] => .ok ([], [])
  | storagePath :: rest => do
      let blob ← orElseThrow (blobs.find? fun b => b.storagePath == storagePath)
        (.errorf "storage blob  reference count is inconsistent")
      let count := countStoragePaths storagePaths storagePath
      ensure (¬ (blob.status ≠ .active ∨ blob.refCount < count))
        (.errorf s!"storage blob {blob.id} reference count is inconsistent")
      let remaining := blob.refCount - count
      let (updates, jobs) ← referenceUpdates blobs storagePaths now rest
      if remaining = 0 then
        return (⟨blob.id, remaining, .pendingDelete⟩ :: updates,
          { blobID := blob.id
            storagePath := blob.storagePath
            nextRetryAt := now
            lastError := "" } :: jobs)
      else return (⟨blob.id, remaining, .active⟩ :: updates, jobs)

/-- The two `CASE id` assignments of one batch. -/
def applyReferenceUpdate (batch : List ReferenceUpdate) (b : StorageBlob) : StorageBlob :=
  match batch.find? fun update => update.id == b.id with
  | some update => { b with refCount := update.refCount, status := update.status }
  | none => b

theorem applyReferenceUpdate_keepsKey (batch : List ReferenceUpdate) :
    KeepsKey StorageBlob.clash (applyReferenceUpdate batch) := by
  intro a b
  rw [applyReferenceUpdate]
  split <;> exact ⟨rfl, rfl⟩

/-- One batch of these updates; a row that is no longer active is missed and counted. -/
def referenceBatch (l : Ledger) (batch : List ReferenceUpdate) : Except Err Ledger := do
  let p : StorageBlob → Bool := fun b =>
    decide (b.id ∈ batch.map (·.id) ∧ b.status = .active)
  ensure (l.blobs.count p = batch.length)
    (.errorf "storage blob reference batch changed concurrently")
  return l.updateBlobs p (applyReferenceUpdate batch) (applyReferenceUpdate_keepsKey batch)

/-- The job upsert of `ReleaseReferences`: a job that is there starts afresh. -/
def createReleasedJob (now : Time) (l : Ledger) (job : StorageCleanupJob) : Except Err Ledger :=
  l.createJob job
    (fun j =>
      { j with nextRetryAt := now, lastError := "", leaseOwner := none, leaseExpiresAt := none })
    fun _ _ => ⟨rfl, rfl⟩

/-- `ReleaseReferences` from its locking reads on; `paths` are the distinct paths. -/
def releasePaths (l : Ledger) (storagePaths paths : List String) (now : Time)
    (batchSize : Nat) : Except Err Ledger := do
  let blobs := findBlobsByPath l paths batchSize
  ensure (blobs.length = paths.length) .recordNotFound
  let (updates, jobs) ← referenceUpdates blobs storagePaths now paths
  let l ← (batches batchSize updates).foldlM referenceBatch l
  (batches batchSize jobs).foldlM (fun l batch => batch.foldlM (createReleasedJob now) l) l

/-- `ReleaseReferences`: the paths are taken in sorted order, empty ones aside. -/
def releaseReferences (l : Ledger) (storagePaths : List String) (now : Time)
    (batchSize : Int) : Except Err Ledger :=
  if sortedStoragePaths storagePaths = [] then .ok l
  else releasePaths l storagePaths (sortedStoragePaths storagePaths) now
    (normalizeStorageBlobBatchSize batchSize)

/-! ## `ReleaseStaging`, `ReleaseStagingBatch` -/

/-- `ReleaseStaging`: a row that is gone already is no error. -/
def releaseStaging (l : Ledger) (blobID : String) : Except Err Ledger :=
  match l.blobs.first? fun b => b.id == blobID with
  | none => .ok l
  | some blob => do
      ensure (blob.status = .staging)
        (.errorf s!"cannot release blob {blob.id} in status {blob.status.text}")
      let l ← (if 0 < blob.size then
          releaseQuota l blob.size
            (.errorf s!"storage quota reservation for blob {blob.id} is inconsistent")
        else .ok l)
      return l.deleteBlobs fun b => b.id == blob.id

/-- `ids` of `ReleaseStagingBatch`: no empty id, none twice. -/
def distinctIDs : List String → List String → List String
  | _, [] => []
  | seen, blobID :: rest =>
      if blobID = "" ∨ blobID ∈ seen then distinctIDs seen rest
      else blobID :: distinctIDs (blobID :: seen) rest

/-- `totalReserved` and `foundIDs` of `ReleaseStagingBatch`. -/
def releasedTotals : Nat → List StorageBlob → Except Err (Nat × List String)
  | total, [] => .ok (total, [])
  | total, blob :: rest => do
      ensure (blob.status = .staging)
        (.errorf s!"cannot release blob {blob.id} in status {blob.status.text}")
      ensure (¬ maxUint64 - total < blob.size) (.errorf "storage blob release size overflow")
      let (total, foundIDs) ← releasedTotals (total + blob.size) rest
      return (total, blob.id :: foundIDs)

/-- One batch of the deletes below. -/
def deleteBatch (l : Ledger) (batch : List String) : Except Err Ledger := do
  let p : StorageBlob → Bool := fun b => decide (b.id ∈ batch)
  ensure (l.blobs.count p = batch.length)
    (.errorf "storage blob batch release is inconsistent")
  return l.deleteBlobs p

/-- `ReleaseStagingBatch`: missing rows are skipped, rows in another state refuse the batch. -/
def releaseStagingBatch (l : Ledger) (blobIDs : List String) (batchSize : Int) :
    Except Err Ledger :=
  if blobIDs = [] then .ok l
  else do
    let batchSize := normalizeStorageBlobBatchSize batchSize
    let blobs := findBlobsByID l (distinctIDs [] blobIDs) batchSize
    let (total, foundIDs) ← releasedTotals 0 blobs
    if foundIDs = [] then .ok l
    else do
      let l ← (if 0 < total then
          releaseQuota l total (.errorf "storage quota batch reservation is inconsistent")
        else .ok l)
      (batches batchSize foundIDs).foldlM deleteBatch l

/-! ## Reconciliation: expiry, sealing, orphans -/

/-- `status = 'staging' AND created_at <= before AND (lease IS NULL OR lease <= now)`. -/
def stagingExpired (before now : Time) (b : StorageBlob) : Bool :=
  decide (b.status = .staging ∧ b.createdAt ≤ before
    ∧ ∀ t ∈ b.stagingLeaseExpiresAt, t ≤ now)

/-- `ORDER BY created_at ASC, id ASC`. -/
def createdBefore (a b : StorageBlob) : Bool :=
  decide (a.createdAt < b.createdAt ∨ (a.createdAt = b.createdAt ∧ a.id ≤ b.id))

/-- `SET status = 'pending_delete', staging_lease_expires_at = NULL`. -/
def sealed (b : StorageBlob) : StorageBlob :=
  { b with status := .pendingDelete, stagingLeaseExpiresAt := none }

/-- `ExpireStagingForCleanup` for the expired rows `blobs` it selected. -/
def expireBlobs (l : Ledger) (blobs : List StorageBlob) (before : Time) (limit : Nat)
    (now : Time) : Except Err (Nat × Ledger) := do
  let jobs : List StorageCleanupJob := blobs.map fun blob =>
    { blobID := blob.id
      storagePath := blob.storagePath
      nextRetryAt := now
      lastError := "staging reservation expired" }
  let p : StorageBlob → Bool := fun b =>
    decide (b.id ∈ blobs.map (·.id)) && stagingExpired before now b
  ensure (l.blobs.count p = blobs.length)
    (.errorf "expired staging batch changed concurrently")
  let l ← (batches limit jobs).foldlM (fun l batch => batch.foldlM Ledger.createJobDoNothing l)
    (l.updateBlobs p sealed)
  return (blobs.length, l)

/-- The number of sealed rows and the new ledger. -/
def expireStagingForCleanup (l : Ledger) (before : Time) (limit : Int) (now : Time) :
    Except Err (Nat × Ledger) :=
  let limit := normalizeStorageBlobBatchSize limit
  let blobs := ((l.blobs.select (stagingExpired before now)).mergeSort createdBefore).take limit
  if blobs = [] then .ok (0, l) else expireBlobs l blobs before limit now

/-- One batch of `SealStagingForCleanupBatch`. -/
def sealBatch (l : Ledger) (batch : List String) : Except Err Ledger := do
  let p : StorageBlob → Bool := fun b =>
    decide (b.id ∈ batch ∧ b.status = .staging ∧ b.refCount = 0)
  ensure (l.blobs.count p = batch.length)
    (.errorf "staging cleanup batch changed concurrently")
  return l.updateBlobs p sealed

/-- `SealStagingForCleanupBatch`: the rows become `pending_delete`, their jobs come
    separately. -/
def sealStagingForCleanupBatch (l : Ledger) (blobIDs : List String) (batchSize : Int) :
    Except Err Ledger :=
  (batches (normalizeStorageBlobBatchSize batchSize) blobIDs).foldlM sealBatch l

/-- `used_bytes + ?` is unguarded here: only the column range stops it. -/
def registerOrphan (l : Ledger) (blob : StorageBlob) : Except Err Ledger := do
  let l ← l.createBlob blob
  let used ← u64Add "used_bytes" l.quota.usedBytes blob.size
  return { l with quota := { l.quota with usedBytes := used } }

/-- The job upsert of `ScheduleOrphanCleanup`. -/
def scheduleJob (l : Ledger) (blob : StorageBlob) (now : Time) : Except Err Ledger :=
  l.createJob
    { blobID := blob.id, storagePath := blob.storagePath, nextRetryAt := now, lastError := "" }
    (fun j =>
      { j with
        storagePath := blob.storagePath
        nextRetryAt := now
        lastError := ""
        leaseOwner := none
        leaseExpiresAt := none })
    fun _ _ => ⟨rfl, rfl⟩

/-- `ScheduleOrphanCleanup`: an orphan gets its job, once. -/
def scheduleOrphanCleanup (l : Ledger) (id : String) (now : Time) : Except Err Ledger := do
  let blob ← orElseThrow (l.blobs.first? fun b => b.id == id) .recordNotFound
  ensure (blob.refCount = 0)
    (.errorf s!"cannot schedule referenced storage blob {blob.id} for cleanup")
  match blob.status with
  | .orphaned =>
      ensure (blob.hasStagingPath = false)
        (.errorf s!"cannot schedule orphaned storage blob {blob.id} with a staging path")
      let p : StorageBlob → Bool := fun b =>
        decide (b.id = blob.id ∧ b.status = .orphaned ∧ b.refCount = 0)
      ensure (l.blobs.count p = 1)
        (.errorf s!"orphaned storage blob {blob.id} changed concurrently")
      scheduleJob (l.updateBlobs p fun b => { b with status := .pendingDelete }) blob now
  | .pendingDelete => scheduleJob l blob now
  | status =>
      .error (.errorf
        s!"cannot schedule storage blob {blob.id} in status {status.text} for orphan cleanup")

/-! ## Cleanup jobs -/

/-- `EnqueueCleanupBatch`. -/
def enqueueCleanupBatch (l : Ledger) (jobs : List StorageCleanupJob) (batchSize : Int) :
    Except Err Ledger :=
  (batches (normalizeStorageBlobBatchSize batchSize) jobs).foldlM
    (fun l batch => batch.foldlM Ledger.createJobDoNothing l) l

/-- `next_retry_at <= now AND (lease_expires_at IS NULL OR lease_expires_at <= now)`. -/
def claimable (now : Time) (j : StorageCleanupJob) : Bool :=
  decide (j.nextRetryAt ≤ now ∧ ∀ t ∈ j.leaseExpiresAt, t ≤ now)

/-- `ORDER BY next_retry_at ASC, id ASC`. -/
def retriedBefore (a b : StorageCleanupJob) : Bool :=
  decide (a.nextRetryAt < b.nextRetryAt ∨ (a.nextRetryAt = b.nextRetryAt ∧ a.id ≤ b.id))

/-- `ListClaimCandidates`: jobs that are due and not leased. -/
def listClaimCandidates (l : Ledger) (now : Time) (limit : Nat) : List StorageCleanupJob :=
  ((l.jobs.select (claimable now)).mergeSort retriedBefore).take limit

/-- Whether one row was claimed, and the new ledger. -/
def claimCleanupJob (l : Ledger) (id : Nat) (owner : String) (now leaseUntil : Time) :
    Bool × Ledger :=
  let p : StorageCleanupJob → Bool := fun j => decide (j.id = id) && claimable now j
  (l.jobs.count p == 1,
    l.updateJobs p fun j => { j with leaseOwner := some owner, leaseExpiresAt := some leaseUntil })

/-- `id = ? AND lease_owner = ?`: the fence of every worker statement. -/
def ownedBy (id : Nat) (owner : String) (j : StorageCleanupJob) : Bool :=
  decide (j.id = id ∧ j.leaseOwner = some owner)

/-- The row count of the `UPDATE`, else of the `SELECT`, is the number of matches. -/
def renewCleanupJobLease (l : Ledger) (id : Nat) (owner : String) (leaseUntil : Time) :
    Bool × Ledger :=
  (l.jobs.count (ownedBy id owner) == 1,
    l.updateJobs (ownedBy id owner) fun j => { j with leaseExpiresAt := some leaseUntil })

/-- `FindClaimedCleanupJob`: the job, if the worker still holds it. -/
def findClaimedCleanupJob (l : Ledger) (id : Nat) (owner : String) :
    Except Err StorageCleanupJob :=
  orElseThrow (l.jobs.first? (ownedBy id owner)) .recordNotFound

def findByID (l : Ledger) (id : String) : Except Err StorageBlob :=
  orElseThrow (l.blobs.first? fun b => b.id == id) .recordNotFound

/-- `FailCleanupJob`: the lease is given back, and the job waits for its next turn. -/
def failCleanupJob (l : Ledger) (id : Nat) (owner errMessage : String) (nextRetryAt : Time) :
    Except Err Ledger := do
  ensure (l.jobs.count (ownedBy id owner) = 1) .recordNotFound
  return l.updateJobs (ownedBy id owner) fun j =>
    { j with
      retryCount := j.retryCount + 1
      nextRetryAt := nextRetryAt
      lastError := errMessage
      leaseOwner := none
      leaseExpiresAt := none }

/-- `UPDATE … SET column = column - ? WHERE column >= ?`, for the column that pays
    for the blob. -/
def refundBlob (l : Ledger) (blob : StorageBlob) : Except Err Ledger :=
  let inconsistent := .errorf s!"storage quota usage for blob {blob.id} is inconsistent"
  if blob.hasStagingPath then releaseQuota l blob.size inconsistent
  else if blob.size ≤ l.quota.usedBytes then do
    let used ← u64Sub "used_bytes" l.quota.usedBytes blob.size
    return { l with quota := { l.quota with usedBytes := used } }
  else .error inconsistent

/-- `CompleteCleanupJob`: the bytes go back to the quota, and the row takes the job with it. -/
def completeCleanupJob (l : Ledger) (id : Nat) (owner : String) : Except Err Ledger := do
  let job ← orElseThrow (l.jobs.first? (ownedBy id owner)) .recordNotFound
  let blob ← orElseThrow (l.blobs.first? fun b => b.id == job.blobID) .recordNotFound
  ensure (¬ (blob.status = .active ∨ blob.refCount ≠ 0))
    (.errorf s!"cannot clean referenced blob {blob.id}")
  let l ← (if 0 < blob.size then refundBlob l blob else .ok l)
  return l.deleteBlobs fun b => b.id == blob.id

/-! ## `UpdateMaxBytes` -/

/-- The last conjunct adds two columns: the database refuses a sum out of range. -/
def updateMaxBytes (l : Ledger) (maxBytes : Nat) : Except Err Ledger :=
  if l.quota.usedBytes ≤ maxBytes ∧ l.quota.reservedBytes ≤ maxBytes then do
    let total ← u64Add "used_bytes + reserved_bytes" l.quota.usedBytes l.quota.reservedBytes
    if total ≤ maxBytes then return { l with quota := { l.quota with maxBytes := maxBytes } }
    else .error .storageQuotaBelowUsage
  else .error .storageQuotaBelowUsage

end BlobRepository
