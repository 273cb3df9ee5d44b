import LightOss.LedgerMoves

/-! # Ledger operations — one name for each repository call

    The calls of the blob and quota repositories as data, so that a run is a list
    of them.  Each is one database transaction: an error leaves the ledger as it
    was (`LedgerOp.apply`).  `RenewStagingLease` outside a transaction is the exception,
    and its partial effect is kept. -/

namespace LedgerOps

open KeyedTable Fallible LedgerRows BlobRepository LedgerSpecs LedgerMoves

/-- What the services put into a new cleanup job. -/
structure CleanupRequest where
  blobID : String
  storagePath : String
  lastError : String

/-- The row that the request asks for. -/
def CleanupRequest.job (now : Time) (r : CleanupRequest) : StorageCleanupJob where
  blobID := r.blobID
  storagePath := r.storagePath
  nextRetryAt := now
  lastError := r.lastError

/-- The calls of the two repositories, with what they are given. -/
inductive LedgerOp where
  | createStaging (blob : StorageBlob) (lease : Duration) (now : Time)
  | createStagingBatch (blobs : List StorageBlob) (batchSize : Int) (lease : Duration) (now : Time)
  | renewStagingLease (ids : List String) (lease : Duration) (batchSize : Int) (now : Time)
  | reserve (blobID : String) (bytes : Nat)
  | activate (activations : List StorageBlobActivation) (batchSize : Int)
  | releaseReferences (paths : List String) (now : Time) (batchSize : Int)
  | releaseStaging (blobID : String)
  | releaseStagingBatch (ids : List String) (batchSize : Int)
  | expireStaging (before : Time) (limit : Int) (now : Time)
  | sealStaging (ids : List String) (batchSize : Int)
  | enqueueCleanup (requests : List CleanupRequest) (now : Time) (batchSize : Int)
  | registerOrphan (blob : StorageBlob)
  | scheduleOrphanCleanup (id : String) (now : Time)
  | claim (id : Nat) (owner : String) (now leaseUntil : Time)
  | renewCleanupLease (id : Nat) (owner : String) (leaseUntil : Time)
  | fail (id : Nat) (owner message : String) (nextRetryAt : Time)
  | complete (id : Nat) (owner : String)
  | updateMaxBytes (maxBytes : Nat)

/-- The result of the call; `claim` and the lease renewals report their row count to
    the caller and never fail here. -/
def LedgerOp.run (l : Ledger) : LedgerOp → Except Err Ledger
  | .createStaging blob lease now => createStagingWithLease l blob lease now
  | .createStagingBatch blobs n lease now => createStagingBatchWithLease l blobs n lease now
  | .renewStagingLease ids lease n now => .ok (BlobRepository.renewStagingLease l ids lease n now).1
  | .reserve blobID bytes => BlobRepository.reserve l blobID bytes
  | .activate activations n => activateStagingBatch l activations n
  | .releaseReferences paths now n => BlobRepository.releaseReferences l paths now n
  | .releaseStaging blobID => BlobRepository.releaseStaging l blobID
  | .releaseStagingBatch ids n => BlobRepository.releaseStagingBatch l ids n
  | .expireStaging before limit now => (expireStagingForCleanup l before limit now).map Prod.snd
  | .sealStaging ids n => sealStagingForCleanupBatch l ids n
  | .enqueueCleanup requests now n => enqueueCleanupBatch l (requests.map (·.job now)) n
  | .registerOrphan blob => BlobRepository.registerOrphan l blob
  | .scheduleOrphanCleanup id now => BlobRepository.scheduleOrphanCleanup l id now
  | .claim id owner now leaseUntil => .ok (claimCleanupJob l id owner now leaseUntil).2
  | .renewCleanupLease id owner leaseUntil => .ok (renewCleanupJobLease l id owner leaseUntil).2
  | .fail id owner message nextRetryAt => failCleanupJob l id owner message nextRetryAt
  | .complete id owner => completeCleanupJob l id owner
  | .updateMaxBytes maxBytes => BlobRepository.updateMaxBytes l maxBytes

/-- The ledger after the call. -/
def LedgerOp.apply (l : Ledger) (op : LedgerOp) : Ledger := commitOr l (op.run l)

/-- A call that succeeds leaves its new ledger. -/
theorem apply_of_ok {l l' : Ledger} {op : LedgerOp} (h : op.run l = .ok l') : op.apply l = l' := by
  rw [LedgerOp.apply, h, commitOr_ok]

/-- A call that fails leaves the old one. -/
theorem apply_of_error {l : Ledger} {op : LedgerOp} {err : Err} (h : op.run l = .error err) :
    op.apply l = l := by
  rw [LedgerOp.apply, h, commitOr_error]

/-- Either the call failed and nothing happened, or it returned the new ledger. -/
theorem apply_cases (l : Ledger) (op : LedgerOp) :
    op.run l = .ok (op.apply l) ∨ op.apply l = l := by
  cases h : op.run l with
  | ok l' => exact Or.inl (congrArg _ (apply_of_ok h).symm)
  | error err => exact Or.inr (apply_of_error h)

/-- Expiry, without the number that it reports. -/
theorem expire_ok {l l' : Ledger} {before now : Time} {limit : Int}
    (h : (expireStagingForCleanup l before limit now).map Prod.snd = .ok l') :
    ∃ p jobs, (∀ b, p b = true → stagingExpired before now b = true) ∧ Sealed l p jobs l' := by
  cases he : expireStagingForCleanup l before limit now with
  | error err => rw [he] at h; exact nomatch h
  | ok r =>
      obtain ⟨n, m⟩ := r
      rw [he] at h
      cases h
      exact expireStagingForCleanup_ok he

theorem enqueue_ok {l l' : Ledger} {requests : List CleanupRequest} {now : Time} {n : Int}
    (h : enqueueCleanupBatch l (requests.map (·.job now)) n = .ok l') :
    Enqueued l (requests.map (·.job now)) l' := by
  refine enqueueCleanupBatch_ok ?_ h
  intro j hj
  obtain ⟨r, -, rfl⟩ := List.mem_map.mp hj
  rfl

end LedgerOps
