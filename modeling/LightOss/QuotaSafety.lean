import LightOss.LedgerOps
import LightOss.StepSystem

/-! # Quota safety — the counters stay under the limit

    Every call moves `used_bytes + reserved_bytes` in one of three ways: down or not
    at all, up behind the reservation guard, or up unguarded in `RegisterOrphan`
    (`Guarded`, `run_guarded`).  From that one step lemma follow the bound over whole
    runs, the range of the `BIGINT UNSIGNED` arithmetic (`run_failsOnly`), and what
    happens once orphans pushed the sum over the limit. -/

namespace QuotaSafety

open KeyedTable Fallible LedgerRows BlobRepository LedgerSpecs LedgerMoves LedgerOps StepSystem

variable {l l' : Ledger}

/-- `used_bytes + reserved_bytes`. -/
def total (l : Ledger) : Nat := l.quota.usedBytes + l.quota.reservedBytes

@[simp] theorem total_withQuota (l : Ledger) (used reserved : Nat) :
    total (withQuota l used reserved) = used + reserved := rfl

theorem total_of_quota (h : l'.quota = l.quota) : total l' = total l := by
  rw [total, total, h]

/-- The only unguarded addition. -/
def LedgerOp.registersOrphan : LedgerOp → Bool
  | .registerOrphan _ => true
  | _ => false

/-- The call asks for `bytes` more reserved bytes. -/
def LedgerOp.Reserves (bytes : Nat) : LedgerOp → Prop
  | .reserve _ n => n = bytes
  | .createStagingBatch blobs _ _ _ => (blobs.map (·.size)).sum = bytes
  | _ => False

/-- The arguments are what Go's `uint64` can hold. -/
def LedgerOp.InRange : LedgerOp → Prop
  | .updateMaxBytes maxBytes => maxBytes ≤ maxUint64
  | _ => True

/-! ## One step -/

/-- A guarded addition: what it adds fits under the limit that stays. -/
def Guarded (l l' : Ledger) : Prop :=
  l'.quota.maxBytes = l.quota.maxBytes ∧ (total l' ≤ total l ∨ total l' ≤ l.quota.maxBytes)

theorem guarded_of_quota (h : l'.quota = l.quota) : Guarded l l' :=
  ⟨by rw [h], Or.inl (Nat.le_of_eq (total_of_quota h))⟩

/-- New staging rows went through the guard. -/
theorem guarded_staged {blobs : List StorageBlob} {n : Nat} {t : Time}
    (h : Staged l blobs n t l') : Guarded l l' := by
  refine ⟨by rw [h.quota]; rfl, ?_⟩
  have htotal : total l' = total l + n := by
    have hq : total l' = total (withQuota l l.quota.usedBytes (l.quota.reservedBytes + n)) :=
      total_of_quota h.quota
    rw [hq, total_withQuota, total]
    omega
  rcases Nat.eq_zero_or_pos n with hzero | hpos
  · left
    omega
  · right
    rw [htotal]
    exact (h.fits hpos).1

/-- Activation releases at least what it uses. -/
theorem guarded_activation {as : List StorageBlobActivation} {found : List StorageBlob}
    (h : Activation l as found l') : Guarded l l' := by
  refine ⟨by rw [h.rewrites.quota]; rfl, Or.inl ?_⟩
  have hle : (as.map (·.actualSize)).sum ≤ (found.map (·.size)).sum := by
    rw [← h.sizes]
    exact List.sum_le_sum h.shrinks
  have htotal := total_of_quota h.rewrites.quota
  have := h.covered
  rw [htotal, total_withQuota, total]
  omega

theorem guarded_stagingReleased {p : StorageBlob → Bool} (h : StagingReleased l p l') :
    Guarded l l' := by
  refine ⟨by rw [h.dropped.quota]; rfl, Or.inl ?_⟩
  rw [total_of_quota h.dropped.quota, total_withQuota, total]
  omega

/-- Deleting a blob brings the sum down. -/
theorem guarded_completed {id : Nat} {owner : String} {blob : StorageBlob}
    (h : Completed l id owner blob l') : Guarded l l' := by
  refine ⟨by rw [h.dropped.quota]; rfl, Or.inl ?_⟩
  rw [total_of_quota h.dropped.quota, total_withQuota, total]
  omega

/-- **The step lemma.**  Except for `RegisterOrphan` and `UpdateMaxBytes` every call is
    guarded; `UpdateMaxBytes` keeps the counters and covers them. -/
theorem run_guarded {op : LedgerOp} (hop : LedgerOp.registersOrphan op = false)
    (h : op.run l = .ok l') :
    Guarded l l' ∨ ∃ m, op = .updateMaxBytes m ∧ total l' = total l ∧ total l' ≤ m
      ∧ l'.quota.maxBytes = m := by
  cases op with
  | createStaging blob lease now => exact Or.inl (guarded_staged (createStagingWithLease_ok h))
  | createStagingBatch blobs n lease now =>
      exact Or.inl (guarded_staged (createStagingBatchWithLease_ok h))
  | renewStagingLease ids lease n now =>
      cases h
      obtain ⟨_, hr, -⟩ := renewStagingLease_rewrites l ids lease n now
      exact Or.inl (guarded_of_quota hr.quota)
  | reserve blobID bytes =>
      rcases reserve_ok h with rfl | ⟨-, -, hmax, -, hr⟩
      · exact Or.inl (guarded_of_quota rfl)
      · refine Or.inl ⟨by rw [hr.quota]; rfl, Or.inr ?_⟩
        rw [total_of_quota hr.quota, total_withQuota]
        omega
  | activate as n =>
      obtain ⟨found, hf⟩ := activateStagingBatch_ok h
      exact Or.inl (guarded_activation hf)
  | releaseReferences paths now n =>
      obtain ⟨m, jobs, hm, he, -⟩ := (releaseReferences_ok h).moves
      exact Or.inl (guarded_of_quota (he.quota.trans hm.quota))
  | releaseStaging blobID =>
      obtain ⟨p, -, hp⟩ := releaseStaging_ok h
      exact Or.inl (guarded_stagingReleased hp)
  | releaseStagingBatch ids n =>
      obtain ⟨p, -, hp⟩ := releaseStagingBatch_ok h
      exact Or.inl (guarded_stagingReleased hp)
  | expireStaging before limit now =>
      obtain ⟨p, jobs, -, hs⟩ := expire_ok h
      obtain ⟨m, hm, he⟩ := hs.steps
      exact Or.inl (guarded_of_quota (he.quota.trans hm.quota))
  | sealStaging ids n =>
      exact Or.inl (guarded_of_quota (sealStagingForCleanupBatch_ok h).quota)
  | enqueueCleanup requests now n => exact Or.inl (guarded_of_quota (enqueue_ok h).quota)
  -- the one unguarded addition, left out by the hypothesis
  | registerOrphan blob => exact nomatch hop
  | scheduleOrphanCleanup id now =>
      obtain ⟨_, -, -, -, -, m, hm, he⟩ := scheduleOrphanCleanup_ok h
      exact Or.inl (guarded_of_quota (he.quota.trans hm.quota))
  | claim id owner now leaseUntil =>
      cases h
      exact Or.inl (guarded_of_quota (claimCleanupJob_touches l id owner now leaseUntil).quota)
  | renewCleanupLease id owner leaseUntil =>
      cases h
      exact Or.inl (guarded_of_quota (renewCleanupJobLease_touches l id owner leaseUntil).quota)
  | fail id owner message nextRetryAt =>
      exact Or.inl (guarded_of_quota (failCleanupJob_ok h).quota)
  | complete id owner =>
      obtain ⟨blob, hc⟩ := completeCleanupJob_ok h
      exact Or.inl (guarded_completed hc)
  | updateMaxBytes maxBytes =>
      obtain ⟨hle, -, rfl⟩ := updateMaxBytes_ok.mp h
      exact Or.inr ⟨maxBytes, rfl, rfl, hle, rfl⟩

/-! ## The range of the unsigned columns -/

/-- The error is not a refusal by the column range. -/
def NotRange (e : Err) : Prop := ∀ column, e ≠ .outOfRange column

theorem notRange_errorf (text : String) : NotRange (.errorf text) := nofun

theorem createBlob_failsOnly (l : Ledger) (blob : StorageBlob) :
    FailsOnly NotRange (l.createBlob blob) := by
  rw [Ledger.createBlob]
  split
  · exact failsOnly_ok _
  · exact failsOnly_error fun _ h => by cases h

theorem createJob_failsOnly (l : Ledger) (job : StorageCleanupJob)
    (f : StorageCleanupJob → StorageCleanupJob) (hf : KeepsKey StorageCleanupJob.clash f) :
    FailsOnly NotRange (l.createJob job f hf) := by
  rw [Ledger.createJob]
  split
  · split
    · exact failsOnly_ok _
    · split
      · exact failsOnly_ok _
      · exact failsOnly_error fun _ h => by cases h
  · exact failsOnly_error fun _ h => by cases h

theorem createJobs_failsOnly {f : Ledger → StorageCleanupJob → Except Err Ledger}
    (hf : ∀ l job, FailsOnly NotRange (f l job)) (bs : List (List StorageCleanupJob)) (l : Ledger) :
    FailsOnly NotRange (bs.foldlM (fun l batch => batch.foldlM f l) l) :=
  failsOnly_foldlM (fun l batch => failsOnly_foldlM hf batch l) bs l

theorem leaseIDs_failsOnly : ∀ (ids seen : List String),
    FailsOnly NotRange (leaseIDs seen ids) := by
  intro ids
  induction ids with
  | nil => intro seen; exact failsOnly_ok _
  | cons id rest ih =>
      intro seen
      rw [leaseIDs]
      split
      · exact failsOnly_error (notRange_errorf _)
      split
      · exact ih seen
      · exact failsOnly_bind (ih _) fun _ _ => failsOnly_ok _

theorem renewLeaseBatches_failsOnly (t : Time) : ∀ (bs : List (List String)) (l : Ledger),
    FailsOnly NotRange (renewLeaseBatches t l bs).2 := by
  intro bs
  induction bs with
  | nil => intro l; exact failsOnly_ok _
  | cons batch rest ih =>
      intro l
      rw [renewLeaseBatches]
      split
      · exact ih _
      · exact failsOnly_error (notRange_errorf _)

theorem renewStagingLeaseTx_failsOnly (l : Ledger) (ids : List String) (lease : Duration) (n : Int)
    (now : Time) : FailsOnly NotRange (renewStagingLeaseTx l ids lease n now) := by
  have hrun : FailsOnly NotRange (BlobRepository.renewStagingLease l ids lease n now).2 := by
    rw [BlobRepository.renewStagingLease]
    split
    · exact failsOnly_ok _
    split
    · exact failsOnly_error (notRange_errorf _)
    split
    · next err herr => exact failsOnly_error (leaseIDs_failsOnly _ _ err herr)
    · exact renewLeaseBatches_failsOnly _ _ _
  rw [renewStagingLeaseTx]
  split
  · exact failsOnly_ok _
  · next err heq => exact failsOnly_error (hrun err (by rw [heq]))

/-- The sum of a batch has a check of its own. -/
theorem totalReserved_failsOnly : ∀ (blobs : List StorageBlob) (n : Nat),
    FailsOnly NotRange (totalReserved n blobs) := by
  intro blobs
  induction blobs with
  | nil => intro n; exact failsOnly_ok _
  | cons blob rest ih =>
      intro n
      rw [totalReserved]
      split
      · exact failsOnly_error (notRange_errorf _)
      · exact ih _

/-- The reservation guard keeps the addition in range. -/
theorem reserveQuota_failsOnly (hmax : l.quota.maxBytes ≤ maxUint64) (bytes : Nat) :
    FailsOnly NotRange (reserveQuota l bytes) := by
  rw [reserveQuota]
  split
  · next hguard =>
      rw [u64Add, if_pos (by omega)]
      exact failsOnly_ok _
  · exact failsOnly_error fun _ h => by cases h

/-- The guard comes before the subtraction. -/
theorem releaseQuota_failsOnly (l : Ledger) (bytes : Nat) {err : Err} (herr : NotRange err) :
    FailsOnly NotRange (releaseQuota l bytes err) := by
  rw [releaseQuota]
  split
  · next hle =>
      rw [u64Sub, if_pos hle]
      exact failsOnly_ok _
  · exact failsOnly_error herr

/-- The sums of an activation have checks of their own. -/
theorem activationTotals_failsOnly (blobs : List StorageBlob) :
    ∀ (as : List StorageBlobActivation) (r a : Nat),
      FailsOnly NotRange (activationTotals blobs r a as) := by
  intro as
  induction as with
  | nil => intro r a; exact failsOnly_ok _
  | cons activation rest ih =>
      intro r a
      rw [activationTotals]
      refine failsOnly_bind (failsOnly_orElseThrow (notRange_errorf _)) fun blob _ => ?_
      refine failsOnly_bind (failsOnly_ensure (notRange_errorf _)) fun _ _ => ?_
      refine failsOnly_bind (failsOnly_ensure (notRange_errorf _)) fun _ _ => ?_
      exact failsOnly_bind (failsOnly_ensure (notRange_errorf _)) fun _ _ => ih _ _

theorem checkActivations_failsOnly : ∀ (as : List StorageBlobActivation) (seen : List String),
    FailsOnly NotRange (checkActivations seen as) := by
  intro as
  induction as with
  | nil => intro seen; exact failsOnly_ok _
  | cons activation rest ih =>
      intro seen
      rw [checkActivations]
      split
      · exact failsOnly_error (notRange_errorf _)
      split
      · exact failsOnly_error (notRange_errorf _)
      · exact ih _

/-- What is activated was reserved, so the move cannot leave the range while the sum
    of the counters is in it. -/
theorem moveReservedToUsed_failsOnly (hrange : total l ≤ maxUint64) {reserved actual : Nat}
    (hle : actual ≤ reserved) {err : Err} (herr : NotRange err) :
    FailsOnly NotRange (moveReservedToUsed l reserved actual err) := by
  rw [moveReservedToUsed]
  refine failsOnly_bind (failsOnly_ensure herr) fun _ hguard => ?_
  have hcovered := ensure_eq_ok.mp hguard
  rw [total] at hrange
  rw [u64Sub, if_pos hcovered, u64Add, if_pos (by omega)]
  exact failsOnly_ok _

/-- With counters in range the move from one to the other stays in range. -/
theorem activateStagingBatch_failsOnly (hrange : total l ≤ maxUint64)
    (as : List StorageBlobActivation) (n : Int) :
    FailsOnly NotRange (activateStagingBatch l as n) := by
  rw [activateStagingBatch]
  split
  · exact failsOnly_ok _
  refine failsOnly_bind (checkActivations_failsOnly as []) fun _ _ => ?_
  refine failsOnly_bind (failsOnly_ensure fun _ h => by cases h) fun _ _ => ?_
  refine failsOnly_bind (activationTotals_failsOnly _ as 0 0) fun totals htotals => ?_
  obtain ⟨reserved, actual⟩ := totals
  obtain ⟨found, hall, -, hr, ha⟩ := activationTotals_ok _ as 0 0 _ _ htotals
  have hle : actual ≤ reserved := by
    rw [hr, ha, Nat.zero_add, Nat.zero_add]
    exact List.Forall₂.sum_le_sum
      (List.forall₂_map_right_iff.mpr
        (List.forall₂_map_left_iff.mpr (hall.flip.imp fun _ _ h => h.2)))
  refine failsOnly_bind (moveReservedToUsed_failsOnly hrange hle (notRange_errorf _)) fun m _ => ?_
  refine failsOnly_foldlM (fun m batch => ?_) _ m
  rw [activateBatch]
  exact failsOnly_bind (failsOnly_ensure (notRange_errorf _)) fun _ _ => failsOnly_ok _

/-- Too many releases are reported as such. -/
theorem referenceUpdates_failsOnly (blobs : List StorageBlob) (storagePaths : List String)
    (now : Time) : ∀ paths, FailsOnly NotRange (referenceUpdates blobs storagePaths now paths) := by
  intro paths
  induction paths with
  | nil => exact failsOnly_ok _
  | cons path rest ih =>
      rw [referenceUpdates]
      refine failsOnly_bind (failsOnly_orElseThrow (notRange_errorf _)) fun blob _ => ?_
      refine failsOnly_bind (failsOnly_ensure (notRange_errorf _)) fun _ _ => ?_
      refine failsOnly_bind ih fun planned _ => ?_
      dsimp only
      split <;> exact failsOnly_ok _

theorem releaseReferences_failsOnly (l : Ledger) (paths : List String) (now : Time) (n : Int) :
    FailsOnly NotRange (BlobRepository.releaseReferences l paths now n) := by
  rw [BlobRepository.releaseReferences]
  split
  · exact failsOnly_ok _
  rw [releasePaths]
  refine failsOnly_bind (failsOnly_ensure fun _ h => by cases h) fun _ _ => ?_
  refine failsOnly_bind (referenceUpdates_failsOnly _ _ _ _) fun planned _ => ?_
  refine failsOnly_bind (failsOnly_foldlM (fun m batch => ?_) _ l) fun m _ =>
    createJobs_failsOnly (fun m job => createJob_failsOnly m job _ _) _ m
  rw [referenceBatch]
  exact failsOnly_bind (failsOnly_ensure (notRange_errorf _)) fun _ _ => failsOnly_ok _

/-- The guard comes before the subtraction. -/
theorem releaseStaging_failsOnly (l : Ledger) (blobID : String) :
    FailsOnly NotRange (BlobRepository.releaseStaging l blobID) := by
  rw [BlobRepository.releaseStaging]
  split
  · exact failsOnly_ok _
  refine failsOnly_bind (failsOnly_ensure (notRange_errorf _)) fun _ _ => ?_
  refine failsOnly_bind ?_ fun _ _ => failsOnly_ok _
  split
  · exact releaseQuota_failsOnly _ _ (notRange_errorf _)
  · exact failsOnly_ok _

/-- The sum of a batch has a check of its own. -/
theorem releasedTotals_failsOnly : ∀ (blobs : List StorageBlob) (n : Nat),
    FailsOnly NotRange (releasedTotals n blobs) := by
  intro blobs
  induction blobs with
  | nil => intro n; exact failsOnly_ok _
  | cons blob rest ih =>
      intro n
      rw [releasedTotals]
      refine failsOnly_bind (failsOnly_ensure (notRange_errorf _)) fun _ _ => ?_
      refine failsOnly_bind (failsOnly_ensure (notRange_errorf _)) fun _ _ => ?_
      exact failsOnly_bind (ih _) fun _ _ => failsOnly_ok _

theorem releaseStagingBatch_failsOnly (l : Ledger) (ids : List String) (n : Int) :
    FailsOnly NotRange (BlobRepository.releaseStagingBatch l ids n) := by
  rw [BlobRepository.releaseStagingBatch]
  split
  · exact failsOnly_ok _
  refine failsOnly_bind (releasedTotals_failsOnly _ _) fun released _ => ?_
  dsimp only
  split
  · exact failsOnly_ok _
  refine failsOnly_bind ?_ fun m _ => failsOnly_foldlM (fun m batch => ?_) _ m
  · split
    · exact releaseQuota_failsOnly _ _ (notRange_errorf _)
    · exact failsOnly_ok _
  · rw [deleteBatch]
    exact failsOnly_bind (failsOnly_ensure (notRange_errorf _)) fun _ _ => failsOnly_ok _

theorem expireStagingForCleanup_failsOnly (l : Ledger) (before : Time) (limit : Int) (now : Time) :
    FailsOnly NotRange (expireStagingForCleanup l before limit now) := by
  rw [expireStagingForCleanup]
  split
  · exact failsOnly_ok _
  rw [expireBlobs]
  refine failsOnly_bind (failsOnly_ensure (notRange_errorf _)) fun _ _ => ?_
  exact failsOnly_bind (createJobs_failsOnly (fun m job => createJob_failsOnly m job _ _) _ _)
    fun _ _ => failsOnly_ok _

theorem scheduleOrphanCleanup_failsOnly (l : Ledger) (id : String) (now : Time) :
    FailsOnly NotRange (BlobRepository.scheduleOrphanCleanup l id now) := by
  rw [BlobRepository.scheduleOrphanCleanup]
  refine failsOnly_bind (failsOnly_orElseThrow fun _ h => by cases h) fun blob _ => ?_
  refine failsOnly_bind (failsOnly_ensure (notRange_errorf _)) fun _ _ => ?_
  split
  · refine failsOnly_bind (failsOnly_ensure (notRange_errorf _)) fun _ _ => ?_
    refine failsOnly_bind (failsOnly_ensure (notRange_errorf _)) fun _ _ => ?_
    exact createJob_failsOnly _ _ _ _
  · exact createJob_failsOnly _ _ _ _
  · exact failsOnly_error (notRange_errorf _)

/-- The guard comes before the subtraction. -/
theorem completeCleanupJob_failsOnly (l : Ledger) (id : Nat) (owner : String) :
    FailsOnly NotRange (completeCleanupJob l id owner) := by
  rw [completeCleanupJob]
  refine failsOnly_bind (failsOnly_orElseThrow fun _ h => by cases h) fun job _ => ?_
  refine failsOnly_bind (failsOnly_orElseThrow fun _ h => by cases h) fun blob _ => ?_
  refine failsOnly_bind (failsOnly_ensure (notRange_errorf _)) fun _ _ => ?_
  refine failsOnly_bind ?_ fun _ _ => failsOnly_ok _
  split
  · rw [refundBlob]
    dsimp only
    split
    · exact releaseQuota_failsOnly _ _ (notRange_errorf _)
    split
    · next hle =>
        rw [u64Sub, if_pos hle]
        exact failsOnly_ok _
    · exact failsOnly_error (notRange_errorf _)
  · exact failsOnly_ok _

/-- With counters in range their sum is, too. -/
theorem updateMaxBytes_failsOnly (hrange : total l ≤ maxUint64) (maxBytes : Nat) :
    FailsOnly NotRange (BlobRepository.updateMaxBytes l maxBytes) := by
  rw [BlobRepository.updateMaxBytes]
  rw [total] at hrange
  split
  · rw [u64Add, if_pos hrange]
    refine failsOnly_bind (failsOnly_ok _) fun _ _ => ?_
    split
    · exact failsOnly_ok _
    · exact failsOnly_error fun _ h => by cases h
  · exact failsOnly_error fun _ h => by cases h

/-- A refusal by the column range that remains: `size + ?` of a staging row that the
    reserved bytes do not even cover. -/
def UncoveredSize (l : Ledger) (e : Err) : Prop :=
  ∀ column, e = .outOfRange column →
    column = "size" ∧ ∃ b ∈ l.blobs.rows, b.status = .staging ∧ l.quota.reservedBytes < b.size

/-- An error that is no range error is none of this kind either. -/
theorem uncoveredSize_of_notRange {e : Err} (h : NotRange e) : UncoveredSize l e :=
  fun column he => absurd he (h column)

/-- Only the size of a row that the quota does not cover can leave its column. -/
theorem reserve_failsOnly (hmax : l.quota.maxBytes ≤ maxUint64) (blobID : String) (bytes : Nat) :
    FailsOnly (UncoveredSize l) (BlobRepository.reserve l blobID bytes) := by
  rw [BlobRepository.reserve]
  split
  · exact failsOnly_ok _
  refine failsOnly_bind (failsOnly_orElseThrow fun _ h => by cases h) fun blob hblob => ?_
  refine failsOnly_bind
    ((reserveQuota_failsOnly hmax bytes).mono fun _ => uncoveredSize_of_notRange) fun m hm => ?_
  obtain ⟨hguard, -, -⟩ := reserveQuota_ok hm
  obtain ⟨hmem, hp⟩ := Table.first?_eq_some (orElseThrow_eq_ok.mp hblob)
  refine failsOnly_bind ?_ fun _ _ => failsOnly_ok _
  rw [u64Add]
  split
  · exact failsOnly_ok _
  · next hover =>
      refine failsOnly_error fun column hcol => ?_
      cases hcol
      exact ⟨rfl, blob, hmem, (of_decide_eq_true hp).2, by omega⟩

/-- While the sum of the counters is under the limit, no counter leaves its range. -/
theorem run_failsOnly (htotal : total l ≤ l.quota.maxBytes) (hmax : l.quota.maxBytes ≤ maxUint64)
    {op : LedgerOp} (hop : LedgerOp.registersOrphan op = false) :
    FailsOnly (UncoveredSize l) (op.run l) := by
  have hrange : total l ≤ maxUint64 := Nat.le_trans htotal hmax
  -- an error that is no refusal by the range is one of those allowed here
  have hlift : ∀ {x : Except Err Ledger}, FailsOnly NotRange x → FailsOnly (UncoveredSize l) x :=
    fun h => h.mono fun _ => uncoveredSize_of_notRange
  cases op with
  | createStaging blob lease now =>
      exact hlift (failsOnly_bind (createBlob_failsOnly l blob)
        fun m _ => renewStagingLeaseTx_failsOnly m _ _ _ _)
  | createStagingBatch blobs n lease now =>
      refine hlift ?_
      rw [LedgerOp.run, createStagingBatchWithLease]
      split
      · exact failsOnly_error (notRange_errorf _)
      rw [BlobRepository.createStagingBatch]
      split
      · exact failsOnly_ok _
      refine failsOnly_bind (totalReserved_failsOnly _ _) fun _ _ => ?_
      refine failsOnly_bind ?_ fun m _ => ?_
      · split
        · exact reserveQuota_failsOnly hmax _
        · exact failsOnly_ok _
      refine failsOnly_bind (failsOnly_foldlM
        (fun m batch => failsOnly_foldlM createBlob_failsOnly batch m) _ m) fun k _ => ?_
      exact renewStagingLeaseTx_failsOnly k _ _ _ _
  | renewStagingLease ids lease n now => exact failsOnly_ok _
  -- the one call that can leave the range: it adds to the size of a row
  | reserve blobID bytes => exact reserve_failsOnly hmax blobID bytes
  | activate as n => exact hlift (activateStagingBatch_failsOnly hrange as n)
  | releaseReferences paths now n => exact hlift (releaseReferences_failsOnly l paths now n)
  | releaseStaging blobID => exact hlift (releaseStaging_failsOnly l blobID)
  | releaseStagingBatch ids n => exact hlift (releaseStagingBatch_failsOnly l ids n)
  | expireStaging before limit now =>
      exact hlift (failsOnly_map (expireStagingForCleanup_failsOnly l before limit now))
  | sealStaging ids n =>
      refine hlift (failsOnly_foldlM (fun m batch => ?_) _ l)
      exact failsOnly_bind (failsOnly_ensure (notRange_errorf _)) fun _ _ => failsOnly_ok _
  | enqueueCleanup requests now n =>
      exact hlift (createJobs_failsOnly (fun m job => createJob_failsOnly m job _ _) _ l)
  | registerOrphan blob => cases hop
  | scheduleOrphanCleanup id now => exact hlift (scheduleOrphanCleanup_failsOnly l id now)
  | claim id owner now leaseUntil => exact failsOnly_ok _
  | renewCleanupLease id owner leaseUntil => exact failsOnly_ok _
  | fail id owner message nextRetryAt =>
      exact hlift
        (failsOnly_bind (failsOnly_ensure fun _ h => by cases h) fun _ _ => failsOnly_ok _)
  | complete id owner => exact hlift (completeCleanupJob_failsOnly l id owner)
  | updateMaxBytes maxBytes => exact hlift (updateMaxBytes_failsOnly hrange maxBytes)

/-! ## Runs -/

/-- Runs without `RegisterOrphan` from a ledger under its limit. -/
def quotaSystem : System Ledger LedgerOp where
  start l := total l ≤ l.quota.maxBytes ∧ l.quota.maxBytes ≤ maxUint64
  step l op l' := LedgerOp.InRange op ∧ LedgerOp.registersOrphan op = false ∧ l' = op.apply l

/-- The bound and the range of the limit are one invariant. -/
theorem quotaSystem_invariant (h : Reachable quotaSystem l) :
    total l ≤ l.quota.maxBytes ∧ l.quota.maxBytes ≤ maxUint64 := by
  refine Reachable.invariant
    (I := fun l => total l ≤ l.quota.maxBytes ∧ l.quota.maxBytes ≤ maxUint64) (fun _ h => h) ?_ h
  rintro l op l' - ⟨htotal, hmax⟩ ⟨hrange, hop, rfl⟩
  rcases apply_cases l op with hok | hsame
  · rcases run_guarded hop hok with ⟨hkeep, hle⟩ | ⟨m, rfl, hsum, hle, hm⟩
    · rw [hkeep]
      exact ⟨hle.elim (fun h => Nat.le_trans h htotal) id, hmax⟩
    · rw [hm]
      exact ⟨hle, hrange⟩
  · rw [hsame]
    exact ⟨htotal, hmax⟩

/-- A reservation of a positive size fits under the limit or fails. -/
theorem reservation_fits {op : LedgerOp} {bytes : Nat} (hpos : 0 < bytes)
    (hop : LedgerOp.Reserves bytes op) (h : op.run l = .ok l') :
    total l + bytes ≤ l.quota.maxBytes := by
  cases op with
  | reserve blobID n =>
      obtain rfl : n = bytes := hop
      rw [LedgerOp.run, BlobRepository.reserve, if_neg (Nat.ne_of_gt hpos)] at h
      obtain ⟨_, -, h⟩ := bind_eq_ok.mp h
      obtain ⟨_, hm, -⟩ := bind_eq_ok.mp h
      exact (reserveQuota_ok hm).1
  | createStagingBatch blobs n lease now =>
      obtain rfl : (blobs.map (·.size)).sum = bytes := hop
      exact ((createStagingBatchWithLease_ok h).fits hpos).1
  | _ => exact hop.elim

/-- **Quota safety.**  In every run without `RegisterOrphan` the sum of the counters
    stays under the limit and no counter leaves the range of its column; in any state
    the sum grows past the limit only through `RegisterOrphan`, no positive
    reservation succeeds past it, and `UpdateMaxBytes` takes exactly the limits that
    cover the sum. -/
theorem quota_safety :
    (∀ l, Reachable quotaSystem l →
      total l ≤ l.quota.maxBytes ∧ l.quota.maxBytes ≤ maxUint64
        ∧ ∀ op, LedgerOp.registersOrphan op = false → FailsOnly (UncoveredSize l) (op.run l))
    ∧ (∀ l op, LedgerOp.registersOrphan op = false →
      (op.apply l).quota.maxBytes < total (op.apply l) →
        total (op.apply l) ≤ total l ∧ (op.apply l).quota.maxBytes = l.quota.maxBytes)
    ∧ (∀ l op bytes, l.quota.maxBytes < total l → 0 < bytes → LedgerOp.Reserves bytes op →
      (∀ l', op.run l ≠ .ok l') ∧ op.apply l = l)
    ∧ ∀ l maxBytes,
      ((∃ l', updateMaxBytes l maxBytes = .ok l') → total l ≤ maxBytes)
        ∧ (¬ total l ≤ maxBytes → (LedgerOp.updateMaxBytes maxBytes).apply l = l)
        ∧ ∀ l', updateMaxBytes l maxBytes = .ok l' →
          l' = { l with quota := { l.quota with maxBytes := maxBytes } } := by
  refine ⟨?_, ?_, ?_, ?_⟩
  · intro l h
    obtain ⟨htotal, hmax⟩ := quotaSystem_invariant h
    exact ⟨htotal, hmax, fun op hop => run_failsOnly htotal hmax hop⟩
  · intro l op hop hover
    rcases apply_cases l op with hok | hsame
    · rcases run_guarded hop hok with ⟨hkeep, hle⟩ | ⟨m, -, -, hle, hm⟩
      · exact ⟨hle.resolve_right (by omega), hkeep⟩
      · omega
    · rw [hsame]
      exact ⟨Nat.le_refl _, rfl⟩
  · intro l op bytes hover hpos hop
    have hfails : ∀ l', op.run l ≠ .ok l' := by
      intro l' hok
      have := reservation_fits hpos hop hok
      omega
    exact ⟨hfails, (apply_cases l op).resolve_left (hfails _)⟩
  · intro l maxBytes
    refine ⟨fun ⟨l', hok⟩ => (updateMaxBytes_ok.mp hok).1, ?_, fun l' hok =>
      (updateMaxBytes_ok.mp hok).2.2⟩
    intro hunder
    refine (apply_cases l _).resolve_left fun hok => hunder ?_
    exact (updateMaxBytes_ok.mp hok).1

/-- Two staged blobs of three and four bytes under a limit lowered to seven. -/
def loweredLimit : Ledger :=
  let blobs : List StorageBlob :=
    [{ id := "a", storagePath := "objects/a", stagingPath := some ".staging/a", size := 3,
       status := .staging },
     { id := "b", storagePath := "objects/b", stagingPath := some ".staging/b", size := 4,
       status := .staging }]
  (LedgerOp.updateMaxBytes 7).apply
    ((LedgerOp.createStagingBatch blobs 100 60 0).apply Ledger.migrated)

/-- A limit lowered to what is used, and a reservation that is refused under a lower one. -/
theorem quota_safety_loweredLimit :
    loweredLimit.quota.maxBytes = 7 ∧ total loweredLimit = 7 ∧ total loweredLimit ≤ 7
      ∧ (LedgerOp.reserve "a" 1).apply
          { loweredLimit with quota := { loweredLimit.quota with maxBytes := 6 } }
        = { loweredLimit with quota := { loweredLimit.quota with maxBytes := 6 } } := by
  have hmax : loweredLimit.quota.maxBytes = 7 := by decide
  have htotal : total loweredLimit = 7 := by decide
  have hreach : Reachable quotaSystem loweredLimit :=
    .step (a := .updateMaxBytes 7)
      (.step (a := .createStagingBatch _ 100 60 0)
        (.start (s := Ledger.migrated) (by unfold quotaSystem; decide)) ⟨trivial, rfl, rfl⟩)
      ⟨by unfold LedgerOp.InRange; decide, rfl, rfl⟩
  refine ⟨hmax, htotal, hmax ▸ (quota_safety.1 _ hreach).1, ?_⟩
  exact (quota_safety.2.2.1 _ (.reserve "a" 1) 1 (by show 6 < total loweredLimit; omega)
    Nat.one_pos rfl).2

end QuotaSafety
