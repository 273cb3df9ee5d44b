import LightOss.LedgerExactness

/-! # Spared rows — what becomes of the row of an unfinished upload

    A staging row stays, with its paths and at least its size, until one of a few calls
    takes it: a publication or a confirmation that names it, an expiry that finds its
    lease run out, a release of its id, or the completion of a cleanup job for it
    (`Takes`, `run_spares`, `apply_spares`).  Beside it, a cleanup job keeps the blob it
    is for (`apply_jobsKept`). -/

namespace SparedRows

open KeyedTable Fallible LedgerRows BlobRepository LedgerSpecs LedgerMoves LedgerOps
open LedgerEvolution LedgerInvariant Catalog MetadataServices PublishLifecycle StorageSystem
open StorageAudit LedgerExactness

/-! ## Staging rows -/

/-- `b'` is the staging row `b` later. -/
structure Stays (b b' : StorageBlob) : Prop where
  id : b'.id = b.id
  storagePath : b'.storagePath = b.storagePath
  stagingPath : b'.stagingPath = b.stagingPath
  status : b'.status = .staging
  size : b.size ≤ b'.size

/-- The calls that may take a staging row. -/
def Takes (l : Ledger) (b : StorageBlob) : LedgerOp → Prop
  | .activate activations _ => b.id ∈ activations.map (·.id)
  | .releaseStaging blobID => b.id = blobID
  | .releaseStagingBatch ids _ => b.id ∈ ids
  | .expireStaging before _ now => stagingExpired before now b = true
  | .sealStaging ids _ => b.id ∈ ids
  | .complete _ _ => HasJob l b.id
  | _ => False

section Ledger

variable {l l' : Ledger} {b : StorageBlob}

theorem Stays.refl (hst : b.status = .staging) : Stays b b := ⟨rfl, rfl, rfl, hst, Nat.le_refl _⟩

/-- It is enough to look at what happens to the row. -/
theorem stays_map {g : StorageBlob → StorageBlob} (hrows : l'.blobs.rows = l.blobs.rows.map g)
    (hb : b ∈ l.blobs.rows) (hg : Stays b (g b)) : ∃ b' ∈ l'.blobs.rows, Stays b b' :=
  ⟨g b, hrows ▸ List.mem_map_of_mem hb, hg⟩

theorem stays_renewed (hst : b.status = .staging) (ids : List String) (t : Time) :
    Stays b (renewed ids t b) := by
  rw [renewed]
  split <;> exact ⟨rfl, rfl, rfl, hst, Nat.le_refl _⟩

theorem stays_sealed {p : StorageBlob → Bool} {jobs : List StorageCleanupJob}
    (hs : Sealed l p jobs l') (hb : b ∈ l.blobs.rows) (hst : b.status = .staging) :
    (∃ b' ∈ l'.blobs.rows, Stays b b') ∨ p b = true := by
  obtain ⟨m, hm, he⟩ := hs.steps
  cases hp : p b with
  | true => exact Or.inr rfl
  | false =>
      refine Or.inl (stays_map (he.blobs ▸ hm.rows) hb ?_)
      rw [hp, if_neg Bool.false_ne_true]
      exact .refl hst

/-- A delete takes the rows it deletes. -/
theorem stays_dropped {p : StorageBlob → Bool} {used reserved : Nat}
    (hd : Dropped (withQuota l used reserved) p l') (hb : b ∈ l.blobs.rows)
    (hst : b.status = .staging) : (∃ b' ∈ l'.blobs.rows, Stays b b') ∨ p b = true := by
  cases hp : p b with
  | true => exact Or.inr rfl
  | false => exact Or.inl ⟨b, hd.mem_rows.mpr ⟨hb, hp⟩, .refl hst⟩

/-- A release of references only looks at active rows. -/
theorem stays_released {paths : List String} (hr : Released l paths l') (hb : b ∈ l.blobs.rows)
    (hst : b.status = .staging) : ∃ b' ∈ l'.blobs.rows, Stays b b' := by
  obtain ⟨m, jobs, hm, he, -⟩ := hr.moves
  refine stays_map (he.blobs ▸ hm.rows) hb ?_
  rw [dereferenced]
  split
  · exact .refl hst
  · next hpos =>
      have hactive := (hr.active b hb (Nat.pos_of_ne_zero hpos)).1
      simp [hst] at hactive

/-- A publication takes the rows it names. -/
theorem stays_activation {as : List StorageBlobActivation} {found : List StorageBlob}
    (ha : Activation l as found l') (hb : b ∈ l.blobs.rows) (hst : b.status = .staging) :
    (∃ b' ∈ l'.blobs.rows, Stays b b') ∨ b.id ∈ as.map (·.id) := by
  by_cases hid : b.id ∈ as.map (·.id)
  · exact Or.inr hid
  · refine Or.inl (stays_map ha.rewrites.rows hb ?_)
    rw [activated, if_neg fun h => hid h.1]
    exact .refl hst

/-- **A staging row stays until a call takes it.** -/
theorem run_spares {op : LedgerOp} (h : op.run l = .ok l') (hb : b ∈ l.blobs.rows)
    (hst : b.status = .staging) : (∃ b' ∈ l'.blobs.rows, Stays b b') ∨ Takes l b op := by
  have hsame : l'.blobs = l.blobs → ∃ b' ∈ l'.blobs.rows, Stays b b' :=
    fun heq => ⟨b, heq ▸ hb, .refl hst⟩
  cases op with
  | createStaging blob lease now =>
      have hs := createStagingWithLease_ok h
      exact Or.inl ⟨_, hs.rows ▸ List.mem_map_of_mem (List.mem_append_left _ hb),
        stays_renewed hst _ _⟩
  | createStagingBatch blobs n lease now =>
      have hs := createStagingBatchWithLease_ok h
      exact Or.inl ⟨_, hs.rows ▸ List.mem_map_of_mem (List.mem_append_left _ hb),
        stays_renewed hst _ _⟩
  | renewStagingLease ids lease n now =>
      cases h
      obtain ⟨_, hr, -⟩ := renewStagingLease_rewrites l ids lease n now
      exact Or.inl (stays_map hr.rows hb (stays_renewed hst _ _))
  | reserve blobID bytes =>
      rcases reserve_ok h with rfl | ⟨-, -, -, -, hr⟩
      · exact Or.inl (hsame rfl)
      · refine Or.inl (stays_map hr.rows hb ?_)
        rw [grown]
        split
        · exact ⟨rfl, rfl, rfl, hst, Nat.le_add_right _ _⟩
        · exact .refl hst
  | activate as n =>
      obtain ⟨found, ha⟩ := activateStagingBatch_ok h
      exact stays_activation ha hb hst
  | releaseReferences paths now n => exact Or.inl (stays_released (releaseReferences_ok h) hb hst)
  | releaseStaging blobID =>
      obtain ⟨p, hp, hs⟩ := releaseStaging_ok h
      exact (stays_dropped hs.dropped hb hst).imp_right (hp b)
  | releaseStagingBatch ids n =>
      obtain ⟨p, hp, hs⟩ := releaseStagingBatch_ok h
      exact (stays_dropped hs.dropped hb hst).imp_right (hp b)
  | expireStaging before limit now =>
      obtain ⟨p, jobs, hp, hs⟩ := expire_ok h
      exact (stays_sealed hs hb hst).imp_right (hp b)
  -- sealed only when its id is in the call
  | sealStaging ids n =>
      have hr : Rewrites l (sealedIn ids) l' := sealStagingForCleanupBatch_ok h
      by_cases hid : b.id ∈ ids
      · exact Or.inr hid
      · refine Or.inl (stays_map hr.rows hb ?_)
        rw [sealedIn, if_neg fun h => hid h.1]
        exact .refl hst
  | enqueueCleanup requests now n => exact Or.inl (hsame (enqueue_ok h).blobs)
  | registerOrphan blob =>
      obtain ⟨-, -, -, -, hrows⟩ := registerOrphan_ok h
      exact Or.inl ⟨b, hrows ▸ List.mem_append_left _ hb, .refl hst⟩
  | scheduleOrphanCleanup id now =>
      obtain ⟨_, -, -, -, -, m, hm, he⟩ := scheduleOrphanCleanup_ok h
      refine Or.inl (stays_map (he.blobs ▸ hm.rows) hb ?_)
      rw [scheduled, if_neg fun h => by simp [hst] at h]
      exact .refl hst
  | claim id owner now leaseUntil =>
      cases h
      exact Or.inl (hsame (claimCleanupJob_touches l id owner now leaseUntil).blobs)
  | renewCleanupLease id owner leaseUntil =>
      cases h
      exact Or.inl (hsame (renewCleanupJobLease_touches l id owner leaseUntil).blobs)
  | fail id owner message nextRetryAt => exact Or.inl (hsame (failCleanupJob_ok h).blobs)
  -- the completed job was claimed and is for this row
  | complete id owner =>
      obtain ⟨blob, hc⟩ := completeCleanupJob_ok h
      refine (stays_dropped hc.dropped hb hst).imp_right fun hid => ?_
      obtain ⟨j, hj, -, -, hblob⟩ := hc.claimed
      exact ⟨j, hj, hblob.trans (beq_iff_eq.mp hid).symm⟩
  | updateMaxBytes maxBytes =>
      obtain ⟨-, -, rfl⟩ := updateMaxBytes_ok.mp h
      exact Or.inl (hsame rfl)

end Ledger

/-- The transactions that may take a staging row. -/
def TakenBy (s : State) (b : StorageBlob) : StorageOp → Prop
  | .ledger op => Takes s.db.ledger b op
  | .publish p _ => b.id ∈ p.stagedBlobs.map (·.id)
  | .confirm stagedBlobs _ => b.id ∈ stagedBlobs.map (·.id)
  | _ => False

section Storage

variable {s : State} {b : StorageBlob}

/-- **Every transaction**: a staging row stays, or the transaction is one that takes it. -/
theorem apply_spares (op : StorageOp) (hb : b ∈ s.db.ledger.blobs.rows)
    (hst : b.status = .staging) :
    (∃ b' ∈ (op.apply s).db.ledger.blobs.rows, Stays b b') ∨ TakenBy s b op := by
  cases op with
  | ledger op =>
      rcases apply_cases s.db.ledger op with hrun | hsame
      · exact run_spares hrun hb hst
      · refine Or.inl ⟨b, ?_, .refl hst⟩
        rw [StorageOp.apply, hsame]
        exact hb
  | publish p now =>
      rw [StorageOp.apply]
      cases hp : publishTransaction s.db p.stagedBlobs (p.publishMetadata now) now with
      | error err => exact Or.inl ⟨b, hb, .refl hst⟩
      | ok db' =>
          obtain ⟨found, m, releasedPaths, hpub⟩ := publishTransaction_ok hp
          -- spared by the activation, and then by the release of what was replaced
          rcases stays_activation hpub.activation hb hst with ⟨c, hc, hbc⟩ | hid
          · obtain ⟨b', hb', hcb⟩ := stays_released hpub.released hc hbc.status
            exact Or.inl ⟨b', hb', hcb.id.trans hbc.id, hcb.storagePath.trans hbc.storagePath,
              hcb.stagingPath.trans hbc.stagingPath, hcb.status, Nat.le_trans hbc.size hcb.size⟩
          · rw [activationsOf, List.map_map] at hid
            exact Or.inr hid
  | confirm stagedBlobs now =>
      rw [StorageOp.apply]
      cases hc : confirmPublishOutcome s.db.ledger stagedBlobs now with
      | error err => exact Or.inl ⟨b, hb, .refl hst⟩
      | ok r =>
          obtain ⟨outcome, l'⟩ := r
          rcases confirmPublishOutcome_ok hc with ⟨-, hsame, -⟩ | ⟨-, -, hsealed⟩
          · refine Or.inl ⟨b, ?_, .refl hst⟩
            show b ∈ l'.blobs.rows
            exact hsame ▸ hb
          · refine (stays_sealed hsealed hb hst).imp_right fun hp => ?_
            exact (of_decide_eq_true hp).1
  | abort ids => exact Or.inl ⟨b, hb, .refl hst⟩
  | catalog w => exact Or.inl ⟨b, hb, .refl hst⟩

/-- A successful `Reserve` adds its bytes to the row. -/
theorem reserve_grows {l l' : Ledger} {bytes : Nat} (h : reserve l b.id bytes = .ok l')
    (hb : b ∈ l.blobs.rows) (hst : b.status = .staging) :
    { b with size := b.size + bytes } ∈ l'.blobs.rows := by
  rw [reserve] at h
  split at h
  · next hzero =>
      cases h
      rw [hzero]
      exact hb
  obtain ⟨blob, hblob, h⟩ := bind_eq_ok.mp h
  obtain ⟨m, hm, h⟩ := bind_eq_ok.mp h
  obtain ⟨size, hsize, h⟩ := bind_eq_ok.mp h
  obtain ⟨hmem, hp⟩ := Table.first?_eq_some (orElseThrow_eq_ok.mp hblob)
  obtain ⟨hid, -⟩ : blob.id = b.id ∧ blob.status = .staging := by simpa using hp
  obtain rfl : blob = b := l.blobs.eq_of_clash hmem hb (StorageBlob.clash_of_id hid)
  obtain ⟨-, -, rfl⟩ := reserveQuota_ok hm
  obtain ⟨-, rfl⟩ := u64Add_eq_ok.mp hsize
  obtain rfl := pure_eq_ok.mp h
  refine (rewrites_updateBlobs _ _ _ _).mem.mpr ⟨blob, hb, if_pos ?_⟩
  exact decide_eq_true ⟨rfl, hst⟩

end Storage

/-! ## The blob of a job -/

/-- No job changes the blob it is for, and job ids are not reused. -/
structure JobsKept (l l' : Ledger) : Prop where
  nextJobID : l.nextJobID ≤ l'.nextJobID
  origin : ∀ j' ∈ l'.jobs.rows, (∃ j ∈ l.jobs.rows, j'.id = j.id ∧ j'.blobID = j.blobID)
    ∨ l.nextJobID ≤ j'.id

section Jobs

variable {l l' m : Ledger}

theorem JobsKept.of_subset (hnext : l'.nextJobID = l.nextJobID)
    (hjobs : ∀ j ∈ l'.jobs.rows, j ∈ l.jobs.rows) : JobsKept l l' :=
  ⟨Nat.le_of_eq hnext.symm, fun j hj => Or.inl ⟨j, hjobs j hj, rfl, rfl⟩⟩

theorem JobsKept.of_same (hnext : l'.nextJobID = l.nextJobID) (hjobs : l'.jobs = l.jobs) :
    JobsKept l l' := .of_subset hnext fun _ hj => hjobs ▸ hj

theorem JobsKept.of_enqueued {jobs : List StorageCleanupJob} (hjobs : m.jobs = l.jobs)
    (hnext : m.nextJobID = l.nextJobID) (he : Enqueued m jobs l') : JobsKept l l' where
  nextJobID := hnext ▸ he.nextJobID
  origin := by
    intro j' hj'
    rcases he.origin j' hj' with hold | ⟨-, ⟨j, hj, hid, hblob, -⟩ | ⟨hge, -⟩⟩
    · exact Or.inl ⟨j', hjobs ▸ hold, rfl, rfl⟩
    · exact Or.inl ⟨j, hjobs ▸ hj, hid, hblob⟩
    · exact Or.inr (hnext ▸ hge)

theorem JobsKept.of_touched (ht : JobsTouched l l') : JobsKept l l' where
  nextJobID := Nat.le_of_eq ht.nextJobID.symm
  origin := by
    intro j' hj'
    obtain ⟨g, hrows, hg⟩ := ht.rows
    obtain ⟨j, hj, rfl⟩ := List.mem_map.mp (hrows ▸ hj')
    exact Or.inl ⟨j, hj, (hg j).1, (hg j).2.1⟩

theorem JobsKept.trans (h₁ : JobsKept l m) (h₂ : JobsKept m l') : JobsKept l l' where
  nextJobID := Nat.le_trans h₁.nextJobID h₂.nextJobID
  origin := by
    intro j' hj'
    rcases h₂.origin j' hj' with ⟨j, hj, hid, hblob⟩ | hge
    · rcases h₁.origin j hj with ⟨i, hi, hiid, hiblob⟩ | hge
      · exact Or.inl ⟨i, hi, hid.trans hiid, hblob.trans hiblob⟩
      · exact Or.inr (hid ▸ hge)
    · exact Or.inr (Nat.le_trans h₁.nextJobID hge)

theorem jobsKept_sealed {p : StorageBlob → Bool} {jobs : List StorageCleanupJob}
    (hs : Sealed l p jobs l') : JobsKept l l' := by
  obtain ⟨m, hm, he⟩ := hs.steps
  exact .of_enqueued hm.jobs hm.nextJobID he

theorem jobsKept_released {paths : List String} (hr : Released l paths l') : JobsKept l l' := by
  obtain ⟨m, jobs, hm, he, -⟩ := hr.moves
  exact .of_enqueued hm.jobs hm.nextJobID he

/-- Rows were deleted, and their jobs with them. -/
theorem JobsKept.of_dropped {p : StorageBlob → Bool} {used reserved : Nat}
    (hd : Dropped (withQuota l used reserved) p l') : JobsKept l l' :=
  .of_subset hd.nextJobID fun _ hj => (hd.mem_jobs.mp hj).1

theorem run_jobsKept {op : LedgerOp} (h : op.run l = .ok l') : JobsKept l l' := by
  cases op with
  | createStaging blob lease now =>
      have hs := createStagingWithLease_ok h
      exact .of_same hs.nextJobID hs.jobs
  | createStagingBatch blobs n lease now =>
      have hs := createStagingBatchWithLease_ok h
      exact .of_same hs.nextJobID hs.jobs
  | renewStagingLease ids lease n now =>
      cases h
      obtain ⟨_, hr, -⟩ := renewStagingLease_rewrites l ids lease n now
      exact .of_same hr.nextJobID hr.jobs
  | reserve blobID bytes =>
      rcases reserve_ok h with rfl | ⟨-, -, -, -, hr⟩
      · exact .of_same rfl rfl
      · exact .of_same hr.nextJobID hr.jobs
  | activate as n =>
      obtain ⟨found, ha⟩ := activateStagingBatch_ok h
      exact .of_same ha.rewrites.nextJobID ha.rewrites.jobs
  | releaseReferences paths now n => exact jobsKept_released (releaseReferences_ok h)
  | releaseStaging blobID =>
      obtain ⟨p, -, hs⟩ := releaseStaging_ok h
      exact .of_dropped hs.dropped
  | releaseStagingBatch ids n =>
      obtain ⟨p, -, hs⟩ := releaseStagingBatch_ok h
      exact .of_dropped hs.dropped
  | expireStaging before limit now =>
      obtain ⟨p, jobs, -, hs⟩ := expire_ok h
      exact jobsKept_sealed hs
  | sealStaging ids n =>
      have hr := sealStagingForCleanupBatch_ok h
      exact .of_same hr.nextJobID hr.jobs
  | enqueueCleanup requests now n => exact .of_enqueued rfl rfl (enqueue_ok h)
  | registerOrphan blob =>
      obtain ⟨-, -, hjobs, hnext, -⟩ := registerOrphan_ok h
      exact .of_same hnext hjobs
  | scheduleOrphanCleanup id now =>
      obtain ⟨_, -, -, -, -, m, hm, he⟩ := scheduleOrphanCleanup_ok h
      exact .of_enqueued hm.jobs hm.nextJobID he
  | claim id owner now leaseUntil =>
      cases h
      exact .of_touched (claimCleanupJob_touches l id owner now leaseUntil)
  | renewCleanupLease id owner leaseUntil =>
      cases h
      exact .of_touched (renewCleanupJobLease_touches l id owner leaseUntil)
  | fail id owner message nextRetryAt => exact .of_touched (failCleanupJob_ok h)
  | complete id owner =>
      obtain ⟨blob, hc⟩ := completeCleanupJob_ok h
      exact .of_dropped hc.dropped
  | updateMaxBytes maxBytes =>
      obtain ⟨-, -, rfl⟩ := updateMaxBytes_ok.mp h
      exact .of_same rfl rfl

/-- **Every transaction** keeps what a job is for. -/
theorem apply_jobsKept (s : State) (op : StorageOp) :
    JobsKept s.db.ledger (op.apply s).db.ledger := by
  cases op with
  | ledger op =>
      rcases apply_cases s.db.ledger op with hrun | hsame
      · exact run_jobsKept hrun
      · exact .of_same (congrArg Ledger.nextJobID hsame) (congrArg Ledger.jobs hsame)
  | publish p now =>
      rw [StorageOp.apply]
      cases hp : publishTransaction s.db p.stagedBlobs (p.publishMetadata now) now with
      | error err => exact .of_same rfl rfl
      | ok db' =>
          obtain ⟨found, m, releasedPaths, hpub⟩ := publishTransaction_ok hp
          have hmoved : JobsKept s.db.ledger m :=
            .of_same hpub.activation.rewrites.nextJobID hpub.activation.rewrites.jobs
          exact hmoved.trans (jobsKept_released hpub.released)
  | confirm stagedBlobs now =>
      rw [StorageOp.apply]
      cases hc : confirmPublishOutcome s.db.ledger stagedBlobs now with
      | error err => exact .of_same rfl rfl
      | ok r =>
          obtain ⟨outcome, l'⟩ := r
          rcases confirmPublishOutcome_ok hc with ⟨-, hsame, -⟩ | ⟨-, -, hsealed⟩
          · exact .of_same (congrArg Ledger.nextJobID hsame) (congrArg Ledger.jobs hsame)
          · exact jobsKept_sealed hsealed
  | abort ids => exact .of_same rfl rfl
  | catalog w => exact .of_same rfl rfl

/-- Job `id` is or was for the blob. -/
def JobFor (l : Ledger) (id : Nat) (blobID : String) : Prop :=
  id < l.nextJobID ∧ ∀ j ∈ l.jobs.rows, j.id = id → j.blobID = blobID

/-- A job that is there is for the blob it was for. -/
theorem JobsKept.jobFor (hk : JobsKept l l') {id : Nat} {blobID : String} (h : JobFor l id blobID) :
    JobFor l' id blobID := by
  refine ⟨Nat.lt_of_lt_of_le h.1 hk.nextJobID, fun j' hj' hid => ?_⟩
  rcases hk.origin j' hj' with ⟨j, hj, hsame, hblob⟩ | hge
  · exact hblob.trans (h.2 j hj (hsame.symm.trans hid))
  · exact absurd h.1 (Nat.not_lt.mpr (hid ▸ hge))

end Jobs

end SparedRows
