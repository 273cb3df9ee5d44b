import LightOss.CleanupLease
import Mathlib.Data.List.AList

/-! # The abort lifecycle — giving up staged blobs

    `abortBatch` deletes the files of the handles, releases the rows of those whose
    files are gone in one transaction, and enqueues a cleanup job for the rest in
    another.  Expiry and cleanup workers may seal or remove the rows in between.
    Each transaction is all or nothing, so one row the enqueue cannot reference takes
    the jobs of all others with it.

    A blob is tracked when it has a job, has left staging or is gone (`Tracked`), and no
    other transaction ends that (`tracked_apply`).  After the release every handle is
    gone or noted for the fallback (`releaseReady_covers`); whether the fallback takes
    effect is exactly whether its rows can be referenced (`enqueueCleanupBatch_runs`),
    so a call leaves its handles tracked exactly then (`track_allTracked`). -/

namespace AbortLifecycle

open KeyedTable Fallible LedgerRows BlobRepository LedgerSpecs LedgerMoves LedgerOps LedgerEvolution
open LedgerInvariant Catalog MetadataServices MetadataReferences StorageAudit PublishLifecycle
open StepSystem StorageSystem LedgerExactness CleanupLease

/-! ## `abortBatch` -/

/-- A handle, and the text of what its deletes returned. -/
abbrev Attempt := StagedBlob × Option String

/-- `errors.Join`. -/
def joinErrors : Option String → Option String → Option String
  | none, b => b
  | some a, none => some a
  | some a, some b => some (a ++ "\n" ++ b)

/-- The deletes of one handle; `deleteFile` is `store.Delete`, with the text of its error. -/
def attemptDelete (deleteFile : String → Option String) (staged : StagedBlob) : Attempt :=
  (staged, joinErrors
    (if staged.stagingPath ≠ "" then deleteFile staged.stagingPath else none)
    (if staged.storagePath ≠ "" then deleteFile staged.storagePath else none))

/-- The handles whose files are gone. -/
def readyToRelease (attempts : List Attempt) : List StagedBlob :=
  (attempts.filter fun a => a.1.id != "" && a.2.isNone).map Prod.fst

/-- `cleanupBlobs` and `cleanupErrors`, which have the same keys. -/
abbrev CleanupMap := AList fun _ : String => Attempt

/-- The loop that notes handles for the fallback. -/
def trackFailed (m : CleanupMap) (attempts : List Attempt) : CleanupMap :=
  attempts.foldl (fun m a => m.insert a.1.id a) m

/-- The handles whose deletes failed. -/
def failedDeletes (attempts : List Attempt) : CleanupMap :=
  trackFailed ∅ (attempts.filter fun a => a.1.id != "" && a.2.isSome)

/-- The transaction of the release and the handles to clean up after it; `errorText` is
    what `Error()` returns. -/
def releaseReady (errorText : Err → String) (l : Ledger) (attempts : List Attempt) :
    Ledger × CleanupMap :=
  let ready := readyToRelease attempts
  if ready = [] then (l, failedDeletes attempts)
  else
    match releaseStagingBatch l (ready.map (·.id)) blobLedgerWriteBatchSize with
    | .ok l' => (l', failedDeletes attempts)
    | .error err =>
        (l, trackFailed (failedDeletes attempts)
          (ready.map fun staged => (staged, some (errorText err))))

/-- What the fallback enqueues. -/
def cleanupRequests (m : CleanupMap) : List CleanupRequest :=
  m.entries.map fun e =>
    { blobID := e.1, storagePath := e.2.1.storagePath, lastError := e.2.2.getD "" }

/-- The transaction of the fallback; when it fails its error is logged. -/
def trackCleanup (l : Ledger) (requests : List CleanupRequest) (now : Time) : Ledger :=
  if requests = [] then l
  else commitOr l (enqueueCleanupBatch l (requests.map (·.job now)) blobLedgerWriteBatchSize)

/-- `abortBatch` with nobody in between, its map walked in the order of its entries. -/
def abortBatch (errorText : Err → String) (l : Ledger) (attempts : List Attempt) (now : Time) :
    Ledger :=
  trackCleanup (releaseReady errorText l attempts).1
    (cleanupRequests (releaseReady errorText l attempts).2) now

/-! ## Jobs stay with their rows -/

section Jobs

variable {l l' : Ledger}

/-- No call takes the job of a row that stays. -/
theorem run_keepsJobs {op : LedgerOp} (h : op.run l = .ok l') {b : StorageBlob}
    (hb : b ∈ l'.blobs.rows) (hj : HasJob l b.id) : HasJob l' b.id := by
  -- only the end of a blob takes its job, and that takes the row first
  cases op with
  | createStaging blob lease now =>
      exact (hasJob_of_jobs (createStagingWithLease_ok h).jobs _).mpr hj
  | createStagingBatch blobs n lease now =>
      exact (hasJob_of_jobs (createStagingBatchWithLease_ok h).jobs _).mpr hj
  | renewStagingLease ids lease n now =>
      cases h
      obtain ⟨_, hr, -⟩ := renewStagingLease_rewrites l ids lease n now
      exact (hasJob_of_jobs hr.jobs _).mpr hj
  | reserve blobID bytes =>
      rcases reserve_ok h with rfl | ⟨-, -, -, -, hr⟩
      · exact hj
      · exact (hasJob_of_jobs hr.jobs _).mpr hj
  | activate as n =>
      obtain ⟨found, ha⟩ := activateStagingBatch_ok h
      exact (hasJob_of_jobs ha.rewrites.jobs _).mpr hj
  | releaseReferences paths now n =>
      obtain ⟨m, jobs, hm, he, -⟩ := (releaseReferences_ok h).moves
      exact (he.hasJob _).mpr (Or.inl ((hasJob_of_jobs hm.jobs _).mpr hj))
  | releaseStaging blobID =>
      obtain ⟨p, -, hs⟩ := releaseStaging_ok h
      exact (hasJob_dropped hs.dropped hb).mpr hj
  | releaseStagingBatch ids n =>
      obtain ⟨p, -, hs⟩ := releaseStagingBatch_ok h
      exact (hasJob_dropped hs.dropped hb).mpr hj
  | expireStaging before limit now =>
      obtain ⟨p, jobs, -, hs⟩ := expire_ok h
      obtain ⟨m, hm, he⟩ := hs.steps
      exact (he.hasJob _).mpr (Or.inl ((hasJob_of_jobs hm.jobs _).mpr hj))
  | sealStaging ids n => exact (hasJob_of_jobs (sealStagingForCleanupBatch_ok h).jobs _).mpr hj
  | enqueueCleanup requests now n => exact ((enqueue_ok h).hasJob _).mpr (Or.inl hj)
  | registerOrphan blob =>
      obtain ⟨-, -, hjobs, -⟩ := registerOrphan_ok h
      exact (hasJob_of_jobs hjobs _).mpr hj
  | scheduleOrphanCleanup id now =>
      obtain ⟨_, -, -, -, -, m, hm, he⟩ := scheduleOrphanCleanup_ok h
      exact (he.hasJob _).mpr (Or.inl ((hasJob_of_jobs hm.jobs _).mpr hj))
  | claim id owner now leaseUntil =>
      cases h
      obtain ⟨g, hrows, hg⟩ := (claimCleanupJob_touches l id owner now leaseUntil).rows
      obtain ⟨j, hj, hid⟩ := hj
      exact ⟨g j, hrows ▸ List.mem_map_of_mem hj, (hg j).2.1.trans hid⟩
  | renewCleanupLease id owner leaseUntil =>
      cases h
      obtain ⟨g, hrows, hg⟩ := (renewCleanupJobLease_touches l id owner leaseUntil).rows
      obtain ⟨j, hj, hid⟩ := hj
      exact ⟨g j, hrows ▸ List.mem_map_of_mem hj, (hg j).2.1.trans hid⟩
  | fail id owner message nextRetryAt =>
      obtain ⟨g, hrows, hg⟩ := (failCleanupJob_ok h).rows
      obtain ⟨j, hj, hid⟩ := hj
      exact ⟨g j, hrows ▸ List.mem_map_of_mem hj, (hg j).2.1.trans hid⟩
  | complete id owner =>
      obtain ⟨blob, hc⟩ := completeCleanupJob_ok h
      exact (hasJob_dropped hc.dropped hb).mpr hj
  | updateMaxBytes maxBytes =>
      obtain ⟨-, -, rfl⟩ := updateMaxBytes_ok.mp h
      exact hj

/-- No transaction takes the job of a blob that stays. -/
theorem apply_keepsJobs (s : State) (op : StorageOp) {b : StorageBlob}
    (hb : b ∈ (op.apply s).db.ledger.blobs.rows) (hj : HasJob s.db.ledger b.id) :
    HasJob (op.apply s).db.ledger b.id := by
  cases op with
  | ledger op =>
      rcases apply_cases s.db.ledger op with hrun | hsame
      · exact run_keepsJobs hrun hb hj
      · show HasJob (op.apply s.db.ledger) b.id
        rw [hsame]
        exact hj
  | publish p now =>
      revert hb
      rw [StorageOp.apply]
      cases hp : publishTransaction s.db p.stagedBlobs (p.publishMetadata now) now with
      | error err => exact fun _ => hj
      | ok db' =>
          obtain ⟨found, m, releasedPaths, hpub⟩ := publishTransaction_ok hp
          obtain ⟨n, jobs, hn, he, -⟩ := hpub.released.moves
          intro _
          refine (he.hasJob _).mpr (Or.inl ((hasJob_of_jobs hn.jobs _).mpr ?_))
          exact (hasJob_of_jobs hpub.activation.rewrites.jobs _).mpr hj
  | confirm stagedBlobs now =>
      revert hb
      rw [StorageOp.apply]
      cases hc : confirmPublishOutcome s.db.ledger stagedBlobs now with
      | error err => exact fun _ => hj
      | ok r =>
          obtain ⟨outcome, l'⟩ := r
          rcases confirmPublishOutcome_ok hc with ⟨-, hsame, -⟩ | ⟨-, -, hsealed⟩
          · intro _
            show HasJob l' b.id
            rw [hsame]
            exact hj
          · obtain ⟨m, hm, he⟩ := hsealed.steps
            exact fun _ => (he.hasJob _).mpr (Or.inl ((hasJob_of_jobs hm.jobs _).mpr hj))
  | abort ids => exact hj
  | catalog w => exact hj

end Jobs

/-! ## Tracked blobs -/

/-- The row of the blob, if it is still there, is not staging without a cleanup job. -/
def Tracked (l : Ledger) (blobID : String) : Prop :=
  ∀ b ∈ l.blobs.rows, b.id = blobID → b.status = .staging → HasJob l blobID

/-- A blob that is tracked stays tracked, whatever the others do. -/
theorem tracked_apply {s : State} {op : StorageOp} {blobID : String} (hop : op.Allowed s)
    (hissued : blobID ∈ s.registry.issuedIDs) (h : Tracked s.db.ledger blobID) :
    Tracked (op.apply s).db.ledger blobID := by
  obtain ⟨m, h1, h2⟩ := apply_evolves s op
  intro b' hb' hid hst
  -- a staging row was staging before, under its id, or is new
  have hback : ∀ {fp : Footprint} {l₁ l₂ : Ledger}, Evolution fp l₁ l₂ →
      (∀ n ∈ fp.new, n.id ≠ blobID) → (∃ b ∈ l₂.blobs.rows, b.id = blobID ∧ b.status = .staging) →
        ∃ b ∈ l₁.blobs.rows, b.id = blobID ∧ b.status = .staging := by
    rintro fp l₁ l₂ he hnew ⟨b', hb', hid, hst⟩
    rcases he.origin b' hb' with ⟨b, hb, hd⟩ | ⟨n, hn, hs⟩
    · refine ⟨b, hb, hd.id.symm.trans hid, ?_⟩
      cases hd.move with
      | stays hsame _ _ => exact hsame.symm.trans hst
      | activated a _ _ _ hst' _ _ => exact absurd (hst.symm.trans hst') (by decide)
      | doomed _ hst' _ _ => exact absurd (hst.symm.trans hst') (by decide)
    · exact absurd (hs.id.symm.trans hid) (hnew n hn)
  have hnew : ∀ n ∈ (StorageOp.footprint s op).new, n.id ≠ blobID :=
    fun n hn hid => new_fresh hop n hn (hid ▸ hissued)
  obtain ⟨b, hb, hbid, hbst⟩ := hback h1 hnew (hback h2 nofun ⟨b', hb', hid, hst⟩)
  have hjob := h b hb hbid hbst
  rw [← hid] at hjob ⊢
  exact apply_keepsJobs s op hb' hjob

/-! ## The map of blobs to clean up -/

/-- What is noted was noted before or is one of these. -/
theorem mem_trackFailed {id : String} : ∀ (attempts : List Attempt) (m : CleanupMap),
    id ∈ trackFailed m attempts ↔ id ∈ m ∨ ∃ a ∈ attempts, a.1.id = id := by
  intro attempts
  induction attempts with
  | nil =>
      intro m
      rw [trackFailed, List.foldl_nil]
      simp
  | cons a rest ih =>
      intro m
      have hrest := ih (m.insert a.1.id a)
      rw [trackFailed] at hrest ⊢
      rw [List.foldl_cons, hrest, AList.mem_insert]
      simp only [List.mem_cons, exists_eq_or_imp]
      rw [or_comm (a := id = a.1.id), or_assoc, eq_comm (a := id)]

/-- Every entry is an attempt under the id of its handle. -/
theorem entries_trackFailed {P : Attempt → Prop} : ∀ (attempts : List Attempt) (m : CleanupMap),
    (∀ a ∈ attempts, P a) → (∀ e ∈ m.entries, e.1 = e.2.1.id ∧ P e.2) →
      ∀ e ∈ (trackFailed m attempts).entries, e.1 = e.2.1.id ∧ P e.2 := by
  intro attempts
  induction attempts with
  | nil => exact fun m _ hm => hm
  | cons a rest ih =>
      intro m ha hm
      refine ih (m.insert a.1.id a) (fun x hx => ha x (List.mem_cons_of_mem _ hx)) ?_
      rw [AList.entries_insert]
      rintro e he
      rcases List.mem_cons.mp he with rfl | he
      · exact ⟨rfl, ha a List.mem_cons_self⟩
      · exact hm e ((List.kerase_sublist _ _).mem he)

theorem mem_cleanupRequests {m : CleanupMap} {id : String} :
    (∃ r ∈ cleanupRequests m, r.blobID = id) ↔ id ∈ m := by
  show _ ↔ id ∈ m.entries.map Sigma.fst
  rw [cleanupRequests]
  simp only [List.mem_map, exists_exists_and_eq_and]

/-- Handles without an id are not released. -/
theorem mem_readyToRelease {attempts : List Attempt} {staged : StagedBlob} :
    staged ∈ readyToRelease attempts ↔ (staged, none) ∈ attempts ∧ staged.id ≠ "" := by
  rw [readyToRelease, List.mem_map]
  constructor
  · rintro ⟨⟨s, e⟩, ha, rfl⟩
    obtain ⟨hmem, hready⟩ := List.mem_filter.mp ha
    obtain ⟨hid, hnone⟩ := Bool.and_eq_true_iff.mp hready
    obtain rfl := Option.isNone_iff_eq_none.mp hnone
    exact ⟨hmem, bne_iff_ne.mp hid⟩
  · rintro ⟨hmem, hid⟩
    refine ⟨_, List.mem_filter.mpr ⟨hmem, ?_⟩, rfl⟩
    rw [bne_iff_ne.mpr hid]
    rfl

/-- Handles whose delete failed are noted. -/
theorem mem_failedDeletes {attempts : List Attempt} {id : String} :
    id ∈ failedDeletes attempts
      ↔ ∃ a ∈ attempts, a.2.isSome = true ∧ a.1.id ≠ "" ∧ a.1.id = id := by
  rw [failedDeletes, mem_trackFailed]
  simp only [AList.notMem_empty, false_or, List.mem_filter, Bool.and_eq_true, bne_iff_ne]
  grind

/-! ## A call among the others' steps -/

/-- Where the call is: at the deletes and the release, before the fallback, or done. -/
inductive Phase where
  | deleting
  | tracking (m : CleanupMap)
  | returned

/-- The system and how far the call is. -/
structure AbortCall where
  state : State
  phase : Phase := .deleting

/-- A step of somebody else, or a transaction of the call; the map is walked in any order. -/
inductive AbortAction where
  | other (op : StorageOp)
  | release (attempts : List Attempt)
  | track (requests : List CleanupRequest) (now : Time)

/-- The state after a transaction on the ledger. -/
def withLedger (s : State) (l : Ledger) : State := { s with db := { s.db with ledger := l } }

/-- The handles come from `Stage` or `StageKnownBatch`, and their blobs are given up. -/
def GivenUp (g : Registry) (handles : List StagedBlob) : Prop :=
  ∀ staged ∈ handles, staged.id ≠ "" → staged.id ∈ g.aborted
    ∧ ∃ c ∈ g.created, c.id = staged.id ∧ c.storagePath = staged.storagePath

/-- One call of `abortBatch` on `handles`, started at any reachable state. -/
def abortSystem (errorText : Err → String) (handles : List StagedBlob) :
    System AbortCall AbortAction where
  start x :=
    Reachable storageSystem x.state ∧ GivenUp x.state.registry handles ∧ x.phase = .deleting
  step
    | x, .other op, y => op.Allowed x.state ∧ y = { x with state := op.apply x.state }
    | x, .release attempts, y => x.phase = .deleting ∧ attempts.map Prod.fst = handles
        ∧ y = {
          state := withLedger x.state (releaseReady errorText x.state.db.ledger attempts).1
          phase := .tracking (releaseReady errorText x.state.db.ledger attempts).2 }
    | x, .track requests now, y => ∃ m, x.phase = .tracking m ∧ requests.Perm (cleanupRequests m)
        ∧ y = {
          state := withLedger x.state (trackCleanup x.state.db.ledger requests now)
          phase := .returned }

/-- Every blob of the call that has an id is tracked. -/
def AllTracked (l : Ledger) (handles : List StagedBlob) : Prop :=
  ∀ staged ∈ handles, staged.id ≠ "" → Tracked l staged.id

/-- At the fallback: every blob it enqueues still has its row, or none of them is
    staging without a job. -/
def FallbackHolds (x : AbortCall) : AbortAction → Prop
  | .track requests _ =>
      (∀ r ∈ requests, ∃ b ∈ x.state.db.ledger.blobs.rows, b.id = r.blobID)
        ∨ ∀ r ∈ requests, Tracked x.state.db.ledger r.blobID
  | _ => True

/-! ## The release -/

/-- The release is one call of `ReleaseStagingBatch`. -/
theorem releaseReady_ledger (errorText : Err → String) (l : Ledger) (attempts : List Attempt) :
    (releaseReady errorText l attempts).1
      = (LedgerOp.releaseStagingBatch ((readyToRelease attempts).map (·.id))
        blobLedgerWriteBatchSize).apply l := by
  rw [releaseReady, LedgerOp.apply, LedgerOp.run]
  by_cases hready : readyToRelease attempts = []
  · rw [if_pos hready, hready]
    rfl
  · rw [if_neg hready]
    cases releaseStagingBatch l ((readyToRelease attempts).map (·.id))
        blobLedgerWriteBatchSize <;> rfl

/-- The map holds handles of the call under their ids. -/
theorem releaseReady_entries (errorText : Err → String) (l : Ledger) (attempts : List Attempt) :
    ∀ e ∈ (releaseReady errorText l attempts).2.entries,
      e.1 = e.2.1.id ∧ e.2.1 ∈ attempts.map Prod.fst ∧ e.2.1.id ≠ "" := by
  have hfailed : ∀ e ∈ (failedDeletes attempts).entries,
      e.1 = e.2.1.id ∧ e.2.1 ∈ attempts.map Prod.fst ∧ e.2.1.id ≠ "" := by
    refine entries_trackFailed (P := fun a => a.1 ∈ attempts.map Prod.fst ∧ a.1.id ≠ "")
      _ _ ?_ nofun
    intro a ha
    obtain ⟨hmem, hfailed⟩ := List.mem_filter.mp ha
    exact ⟨List.mem_map_of_mem hmem, bne_iff_ne.mp (Bool.and_eq_true_iff.mp hfailed).1⟩
  rw [releaseReady]
  split
  · exact hfailed
  split
  · exact hfailed
  · refine entries_trackFailed (P := fun a => a.1 ∈ attempts.map Prod.fst ∧ a.1.id ≠ "") _ _ ?_
      hfailed
    intro a ha
    obtain ⟨staged, hs, rfl⟩ := List.mem_map.mp ha
    obtain ⟨hmem, hid⟩ := mem_readyToRelease.mp hs
    exact ⟨List.mem_map.mpr ⟨_, hmem, rfl⟩, hid⟩

/-- After the release a blob of the call has no row, or it is in the map. -/
theorem releaseReady_covers (errorText : Err → String) (l : Ledger) {attempts : List Attempt}
    {a : Attempt} (ha : a ∈ attempts) (hid : a.1.id ≠ "") :
    (∀ b ∈ (releaseReady errorText l attempts).1.blobs.rows, b.id ≠ a.1.id)
      ∨ a.1.id ∈ (releaseReady errorText l attempts).2 := by
  obtain ⟨staged, deleteErr⟩ := a
  -- a failed delete is noted at once, the others are released or noted
  cases hdelete : deleteErr with
  | some text =>
      have hfailed : staged.id ∈ failedDeletes attempts :=
        mem_failedDeletes.mpr ⟨_, ha, by rw [hdelete]; rfl, hid, rfl⟩
      rw [releaseReady]
      dsimp only
      split
      · exact Or.inr hfailed
      split
      · exact Or.inr hfailed
      · exact Or.inr ((mem_trackFailed _ _).mpr (Or.inl hfailed))
  | none =>
      rw [hdelete] at ha
      have hready := mem_readyToRelease.mpr ⟨ha, hid⟩
      rw [releaseReady, if_neg (List.ne_nil_of_mem hready)]
      split
      · next l' hrun =>
          obtain ⟨p, -, hall, hs⟩ := releaseStagingBatch_rows hrun
          refine Or.inl fun b hb hbid => ?_
          obtain ⟨hmem, hkept⟩ := hs.dropped.mem_rows.mp hb
          have hlisted : b.id ∈ (readyToRelease attempts).map (·.id) :=
            hbid ▸ List.mem_map_of_mem hready
          have htaken := hall b hmem hlisted (hbid ▸ hid)
          exact Bool.false_ne_true (hkept.symm.trans htaken)
      · exact Or.inr ((mem_trackFailed _ _).mpr
          (Or.inr ⟨_, List.mem_map_of_mem hready, rfl⟩))

/-! ## The fallback -/

section Fallback

variable {l l' : Ledger}

/-- An upsert for a row that is there goes through. -/
theorem createJobDoNothing_runs {job : StorageCleanupJob}
    (hfresh : ∀ j ∈ l.jobs.rows, j.id < l.nextJobID)
    (hrow : ∃ b ∈ l.blobs.rows, b.id = job.blobID) :
    ∃ l', l.createJobDoNothing job = .ok l' ∧ l'.blobs = l.blobs
      ∧ ∀ j ∈ l'.jobs.rows, j.id < l'.nextJobID := by
  have hforeign : (l.blobs.rows.any fun b => b.id == job.blobID) = true := by simpa using hrow
  unfold Ledger.createJobDoNothing Ledger.createJob
  rw [if_pos hforeign]
  split
  · refine ⟨_, rfl, rfl, fun j hj => ?_⟩
    obtain ⟨j', hj', rfl⟩ := List.mem_map.mp hj
    rw [id_eq, ite_self]
    exact hfresh j' hj'
  · next hnone =>
      have hfits : ∀ j ∈ l.jobs.rows,
          StorageCleanupJob.clash j { job with id := l.nextJobID } = false := by
        intro j hj
        have hid : j.id ≠ l.nextJobID := Nat.ne_of_lt (hfresh j hj)
        have hblob : j.blobID ≠ job.blobID := by
          intro heq
          exact hnone (List.any_eq_true.mpr ⟨j, hj, beq_iff_eq.mpr heq⟩)
        simp [StorageCleanupJob.clash, hid, hblob]
      rw [Table.insert?, dif_pos hfits]
      refine ⟨_, rfl, rfl, fun j hj => ?_⟩
      rcases List.mem_append.mp hj with hj | hj
      · exact Nat.lt_succ_of_lt (hfresh j hj)
      · rw [List.mem_singleton.mp hj]
        exact Nat.lt_succ_self _

/-- The enqueue succeeds when every blob has its row. -/
theorem enqueueCleanupBatch_runs {jobs : List StorageCleanupJob} (batchSize : Int)
    (hfresh : ∀ j ∈ l.jobs.rows, j.id < l.nextJobID)
    (hrows : ∀ j ∈ jobs, ∃ b ∈ l.blobs.rows, b.id = j.blobID) :
    ∃ l', enqueueCleanupBatch l jobs batchSize = .ok l' := by
  rw [enqueueCleanupBatch, foldlM_batches (normalizeStorageBlobBatchSize_pos batchSize)]
  have hstep : ∀ job ∈ jobs, ∀ m : Ledger,
      (m.blobs = l.blobs ∧ ∀ j ∈ m.jobs.rows, j.id < m.nextJobID) →
        ∃ m', m.createJobDoNothing job = .ok m'
          ∧ m'.blobs = l.blobs ∧ ∀ j ∈ m'.jobs.rows, j.id < m'.nextJobID := by
    rintro job hjob m ⟨hblobs, hm⟩
    obtain ⟨m', hrun, hsame, hm'⟩ := createJobDoNothing_runs hm (hblobs ▸ hrows job hjob)
    exact ⟨m', hrun, hsame.trans hblobs, hm'⟩
  obtain ⟨l', hrun, -⟩ := foldlM_runs jobs hstep ⟨rfl, hfresh⟩
  exact ⟨l', hrun⟩

/-- The fallback is a transaction of the system. -/
theorem trackCleanup_ledger (l : Ledger) (requests : List CleanupRequest) (now : Time) :
    trackCleanup l requests now
      = (LedgerOp.enqueueCleanup requests now blobLedgerWriteBatchSize).apply l := by
  rw [trackCleanup, LedgerOp.apply, LedgerOp.run]
  split
  · next hnil =>
      rw [hnil]
      rfl
  · rfl

/-- The blobs of the requests are tracked after the fallback exactly if each still had
    its row, or they were tracked before it. -/
theorem trackCleanup_tracks (hfresh : ∀ j ∈ l.jobs.rows, j.id < l.nextJobID)
    (requests : List CleanupRequest) (now : Time) :
    (∀ r ∈ requests, Tracked (trackCleanup l requests now) r.blobID)
      ↔ (∀ r ∈ requests, ∃ b ∈ l.blobs.rows, b.id = r.blobID)
        ∨ ∀ r ∈ requests, Tracked l r.blobID := by
  rw [trackCleanup_ledger]
  cases hrun : (LedgerOp.enqueueCleanup requests now blobLedgerWriteBatchSize).run l with
  | ok l' =>
      have he := enqueue_ok hrun
      rw [apply_of_ok hrun]
      constructor
      · exact fun _ => Or.inl fun r hr => he.foreign _ (List.mem_map_of_mem hr)
      · intro _ r hr b hb hid hst
        refine (he.hasJob _).mpr (Or.inr ?_)
        rw [List.map_map]
        exact List.mem_map_of_mem (f := (·.blobID) ∘ (·.job now)) hr
  | error err =>
      rw [apply_of_error hrun]
      refine ⟨Or.inr, fun h => h.resolve_left fun hrows => ?_⟩
      have hforeign : ∀ j ∈ requests.map (·.job now), ∃ b ∈ l.blobs.rows, b.id = j.blobID := by
        intro j hj
        obtain ⟨r, hr, rfl⟩ := List.mem_map.mp hj
        exact hrows r hr
      obtain ⟨l', hok⟩ := enqueueCleanupBatch_runs blobLedgerWriteBatchSize hfresh hforeign
      exact nomatch hok.symm.trans hrun

end Fallback

/-! ## What holds along a call -/

section Calls

variable {errorText : Err → String} {handles : List StagedBlob} {x y : AbortCall}

/-- The map holds handles of the call, and every blob of the call that is not in it is
    tracked. -/
structure Covers (handles : List StagedBlob) (l : Ledger) (m : CleanupMap) : Prop where
  entries : ∀ e ∈ m.entries, e.1 = e.2.1.id ∧ e.2.1 ∈ handles ∧ e.2.1.id ≠ ""
  tracked : ∀ staged ∈ handles, staged.id ≠ "" → Tracked l staged.id ∨ staged.id ∈ m

/-- What holds of the call at every moment. -/
structure CallOk (handles : List StagedBlob) (x : AbortCall) : Prop where
  reachable : Reachable storageSystem x.state
  given : GivenUp x.state.registry handles
  covers : ∀ m, x.phase = .tracking m → Covers handles x.state.db.ledger m

theorem GivenUp.extends {g g' : Registry} (h : GivenUp g handles) (hg : Extends g g') :
    GivenUp g' handles := by
  intro staged hs hid
  obtain ⟨haborted, c, hc, hcid, hpath⟩ := h staged hs hid
  exact ⟨hg.aborted _ haborted, c, hg.created c hc, hcid, hpath⟩

theorem GivenUp.issued {s : State} (h : GivenUp s.registry handles)
    (hr : Reachable storageSystem s) {staged : StagedBlob} (hs : staged ∈ handles)
    (hid : staged.id ≠ "") : staged.id ∈ s.registry.issuedIDs := by
  obtain ⟨-, c, hc, hcid, -⟩ := h staged hs hid
  exact hcid ▸ (storageOk_of_reachable hr).registry.createdIDs c hc

/-- A transaction of the call is a step of the storage system. -/
theorem withLedger_apply (s : State) {op : LedgerOp} {l : Ledger} (hl : l = op.apply s.db.ledger)
    (hnote : s.registry.note op = s.registry) : withLedger s l = (StorageOp.ledger op).apply s := by
  rw [withLedger, StorageOp.apply, hnote, hl]

/-- The release leaves every blob tracked or noted. -/
theorem callOk_released (h : CallOk handles x) {attempts : List Attempt}
    (hattempts : attempts.map Prod.fst = handles) :
    CallOk handles {
      state := withLedger x.state (releaseReady errorText x.state.db.ledger attempts).1
      phase := .tracking (releaseReady errorText x.state.db.ledger attempts).2 } where
  reachable := by
    have hallowed : (StorageOp.ledger (.releaseStagingBatch ((readyToRelease attempts).map (·.id))
        blobLedgerWriteBatchSize)).Allowed x.state := trivial
    rw [withLedger_apply x.state (releaseReady_ledger errorText _ attempts) rfl]
    exact reachable_apply h.reachable hallowed
  given := h.given
  covers := by
    rintro m ⟨⟩
    refine ⟨hattempts ▸ releaseReady_entries errorText _ attempts, fun staged hs hid => ?_⟩
    rw [← hattempts] at hs
    obtain ⟨a, ha, rfl⟩ := List.mem_map.mp hs
    refine (releaseReady_covers errorText x.state.db.ledger ha hid).imp_left ?_
    exact fun hgone b hb hbid _ => absurd hbid (hgone b hb)

/-- The requests are handles of the call, so the fallback is an allowed step. -/
theorem requests_allowed (h : CallOk handles x) {m : CleanupMap} (hphase : x.phase = .tracking m)
    {requests : List CleanupRequest} (hperm : requests.Perm (cleanupRequests m)) (now : Time) :
    (StorageOp.ledger (.enqueueCleanup requests now blobLedgerWriteBatchSize)).Allowed x.state := by
  intro r hr
  obtain ⟨e, he, rfl⟩ := List.mem_map.mp (hperm.mem_iff.mp hr)
  obtain ⟨hkey, hs, hid⟩ := (h.covers m hphase).entries e he
  obtain ⟨haborted, c, hc, hcid, hpath⟩ := h.given _ hs hid
  exact ⟨hkey.symm ▸ haborted, c, hc, hcid.trans hkey.symm, hpath⟩

/-- Every step of the call, and every other transaction in between. -/
theorem callOk_step {a : AbortAction} (h : CallOk handles x)
    (hstep : (abortSystem errorText handles).step x a y) : CallOk handles y := by
  cases a with
  | other op =>
      obtain ⟨hop, rfl⟩ := hstep
      have hreg := registry_step (storageOk_of_reachable h.reachable).registry hop
      refine ⟨reachable_apply h.reachable hop, h.given.extends hreg.1, fun m hm => ?_⟩
      refine ⟨(h.covers m hm).entries, fun staged hs hid => ?_⟩
      have hissued := h.given.issued h.reachable hs hid
      exact ((h.covers m hm).tracked staged hs hid).imp_left (tracked_apply hop hissued)
  | release attempts =>
      obtain ⟨-, hattempts, rfl⟩ := hstep
      exact callOk_released h hattempts
  | track requests now =>
      obtain ⟨m, hm, hperm, rfl⟩ := hstep
      refine ⟨?_, h.given, nofun⟩
      rw [withLedger_apply x.state (trackCleanup_ledger _ requests now) rfl]
      exact reachable_apply h.reachable (requests_allowed h hm hperm now)

/-- **The run lemma**: what the call relies on holds at every moment of it. -/
theorem callOk_reachable (h : Reachable (abortSystem errorText handles) x) : CallOk handles x := by
  refine h.invariant ?_ fun _ _ _ _ hx hs => callOk_step hx hs
  rintro x ⟨hr, hgiven, hphase⟩
  exact ⟨hr, hgiven, fun m hm => nomatch hphase.symm.trans hm⟩

/-- The fallback leaves every blob of the call tracked exactly under its condition. -/
theorem track_allTracked (h : CallOk handles x) {m : CleanupMap} (hphase : x.phase = .tracking m)
    {requests : List CleanupRequest} (hperm : requests.Perm (cleanupRequests m)) (now : Time) :
    AllTracked (trackCleanup x.state.db.ledger requests now) handles
      ↔ FallbackHolds x (.track requests now) := by
  have hcovers := h.covers m hphase
  have hfresh := (storageOk_of_reachable h.reachable).ledger.jobs.fresh
  refine Iff.trans ?_ (trackCleanup_tracks hfresh requests now)
  constructor
  · intro hall r hr
    obtain ⟨e, he, rfl⟩ := List.mem_map.mp (hperm.mem_iff.mp hr)
    obtain ⟨hkey, hs, hid⟩ := hcovers.entries e he
    show Tracked _ e.1
    rw [hkey]
    exact hall _ hs hid
  · intro hall staged hs hid
    rcases hcovers.tracked staged hs hid with htracked | hmem
    · -- not enqueued here, and the fallback is a step like any other
      have hissued := h.given.issued h.reachable hs hid
      have hallowed := requests_allowed h hphase hperm now
      rw [trackCleanup_ledger]
      exact tracked_apply hallowed hissued htracked
    · obtain ⟨r, hr, hrid⟩ := mem_cleanupRequests.mpr hmem
      exact hrid ▸ hall r (hperm.mem_iff.mpr hr)

/-- **Abort leaves nothing untracked**, as long as the fallback does not enqueue a blob
    whose row is gone together with one that is still staging: in every run whose
    fallbacks meet that condition the blobs are tracked once the call has returned, and
    at each single fallback they are tracked if and only if it does. -/
theorem abort_leaves_tracked (errorText : Err → String) (handles : List StagedBlob) :
    (∀ x, Reachable ((abortSystem errorText handles).guarded FallbackHolds) x →
      x.phase = .returned → AllTracked x.state.db.ledger handles)
    ∧ ∀ x requests now y, Reachable (abortSystem errorText handles) x →
      (abortSystem errorText handles).step x (.track requests now) y →
        (AllTracked y.state.db.ledger handles ↔ FallbackHolds x (.track requests now)) := by
  constructor
  · intro x hx
    refine hx.invariant (I := fun x => x.phase = .returned → AllTracked x.state.db.ledger handles)
      ?_ ?_
    · rintro x ⟨-, -, hphase⟩ hreturned
      exact nomatch hphase.symm.trans hreturned
    · rintro x a y hr hx ⟨hstep, hholds⟩ hreturned
      have hok := callOk_reachable hr.of_guarded
      cases a with
      | other op =>
          obtain ⟨hop, rfl⟩ := hstep
          intro staged hs hid
          have hissued := hok.given.issued hok.reachable hs hid
          exact tracked_apply hop hissued (hx hreturned staged hs hid)
      | release attempts =>
          obtain ⟨-, -, rfl⟩ := hstep
          exact nomatch hreturned
      | track requests now =>
          obtain ⟨m, hm, hperm, rfl⟩ := hstep
          exact (track_allTracked hok hm hperm now).mpr hholds
  · rintro x requests now y hr ⟨m, hm, hperm, rfl⟩
    exact track_allTracked (callOk_reachable hr) hm hperm now

end Calls

/-! ## Example runs

    Three uploads are given up together.  In the first run expiry has sealed one of them
    and the files of another cannot be deleted, and the fallback tracks all three.  In
    the second expiry has sealed two, and a worker has already removed the first. -/

/-- The row of an upload without bytes yet. -/
def upload (name : String) (createdAt : Time) : StorageBlob where
  id := name
  storagePath := "objects/" ++ name
  stagingPath := some ("staging/" ++ name)
  status := .staging
  createdAt := createdAt

/-- The handle of that upload. -/
def uploadHandle (name : String) : StagedBlob where
  id := name
  storagePath := "objects/" ++ name
  stagingPath := "staging/" ++ name
  size := 0

/-- The transaction that makes the row. -/
def create (name : String) (createdAt : Time) : StorageOp :=
  .ledger (.createStaging (upload name createdAt) 5 0)

theorem create_allowed {s : State} (name : String) (createdAt : Time)
    (hfresh : name ∉ s.registry.issuedIDs ∧ "objects/" ++ name ∉ s.registry.issuedPaths
      ∧ "staging/" ++ name ∉ s.registry.issuedPaths)
    (hapart : "objects/" ++ name ≠ "" ∧ "staging/" ++ name ≠ "objects/" ++ name) :
    (create name createdAt).Allowed s := by
  refine ⟨⟨?_, List.nodup_singleton _, ?_, ?_, ?_, ?_, ?_, ?_⟩, rfl⟩
  all_goals refine List.forall_mem_singleton.mpr ?_
  · exact ⟨rfl, rfl, rfl⟩
  · exact hfresh.1
  · exact hapart.1
  · exact hfresh.2.1
  · rintro p ⟨⟩
    exact hfresh.2.2
  · refine List.forall_mem_singleton.mpr fun heq => ?_
    exact hapart.2 (Option.some.inj heq)
  · exact List.forall_mem_singleton.mpr fun _ => rfl

/-- What expiry does when it finds one row. -/
def sealOne (s : State) (before : Time) (b : StorageBlob) : State :=
  withLedger s (commitOr s.db.ledger
    ((expireBlobs s.db.ledger [b] before 100 200).map Prod.snd))

/-- One row needs no sorting, so expiry can be evaluated. -/
theorem sealOne_eq {s : State} {before : Time} {b : StorageBlob}
    (hone : s.db.ledger.blobs.select (stagingExpired before 200) = [b]) :
    (StorageOp.ledger (.expireStaging before 100 200)).apply s = sealOne s before b := by
  rw [StorageOp.apply, LedgerOp.apply, LedgerOp.run, expireStagingForCleanup]
  dsimp only
  rw [hone, List.mergeSort_singleton]
  rfl

/-- Three uploads of different ages. -/
def threeUploads : State :=
  (create "c" 100).apply ((create "b" 20).apply ((create "a" 1).apply State.initial))

/-- Expiry seals the oldest. -/
def firstExpired : State :=
  sealOne threeUploads 10 { upload "a" 1 with stagingLeaseExpiresAt := some 5 }

/-- The handles that are given up together. -/
def threeHandles : List StagedBlob := ["a", "b", "c"].map uploadHandle

theorem threeUploads_reachable : Reachable storageSystem threeUploads := by
  have ha := reachable_apply (.start rfl) (create_allowed "a" 1 (by decide) (by decide))
  have hb := reachable_apply ha (create_allowed "b" 20 (by decide) (by decide))
  exact reachable_apply hb (create_allowed "c" 100 (by decide) (by decide))

theorem firstExpired_reachable : Reachable storageSystem firstExpired := by
  rw [firstExpired, ← sealOne_eq (by decide)]
  exact reachable_apply threeUploads_reachable trivial

/-- Given up while `a` waits for its deletion and the others are still staging. -/
def oneSealed : State := (StorageOp.abort ["a", "b", "c"]).apply firstExpired

/-- The files of `c` cannot be deleted. -/
def oneFails : List Attempt :=
  threeHandles.map (attemptDelete fun path => if path = "objects/c" then some "EIO" else none)

/-- The release of `a` and `b` is refused, and the fallback tracks all three. -/
theorem abort_leaves_tracked_sealed :
    AllTracked (abortBatch (fun _ => "") oneSealed.db.ledger oneFails 9) threeHandles := by
  let released := releaseReady (fun _ => "") oneSealed.db.ledger oneFails
  have hr : Reachable storageSystem oneSealed :=
    reachable_apply firstExpired_reachable fun _ _ => nofun
  have h0 : Reachable ((abortSystem (fun _ => "") threeHandles).guarded FallbackHolds)
      { state := oneSealed } := by
    refine .start ⟨hr, ?_, rfl⟩
    show ∀ staged ∈ threeHandles, _
    decide
  have h1 : Reachable ((abortSystem (fun _ => "") threeHandles).guarded FallbackHolds)
      { state := withLedger oneSealed released.1, phase := .tracking released.2 } :=
    h0.step (a := .release oneFails) ⟨⟨rfl, rfl, rfl⟩, trivial⟩
  have h2 : Reachable ((abortSystem (fun _ => "") threeHandles).guarded FallbackHolds)
      { state := withLedger oneSealed (trackCleanup released.1 (cleanupRequests released.2) 9)
        phase := .returned } := by
    refine h1.step (a := .track (cleanupRequests released.2) 9)
      ⟨⟨_, rfl, List.Perm.refl _, rfl⟩, Or.inl ?_⟩
    show ∀ r ∈ cleanupRequests released.2, _
    decide
  exact (abort_leaves_tracked (fun _ => "") threeHandles).1 _ h2 rfl

/-- A worker removes it. -/
def firstRemoved : State :=
  (StorageOp.ledger (.complete 1 "worker")).apply
    ((StorageOp.ledger (.claim 1 "worker" 200 300)).apply firstExpired)

/-- Expiry seals the second. -/
def secondExpired : State :=
  sealOne firstRemoved 30 { upload "b" 20 with stagingLeaseExpiresAt := some 5 }

/-- All three uploads are given up. -/
def givenUp : State := (StorageOp.abort ["a", "b", "c"]).apply secondExpired

theorem givenUp_reachable : Reachable storageSystem givenUp := by
  have h2 : Reachable storageSystem firstRemoved :=
    reachable_apply (reachable_apply firstExpired_reachable trivial) trivial
  have h3 : Reachable storageSystem secondExpired := by
    rw [secondExpired, ← sealOne_eq (by decide)]
    exact reachable_apply h2 trivial
  exact reachable_apply h3 fun _ _ => nofun

/-- The release meets the sealed row and the fallback the missing one: the third blob
    stays staging, with its bytes reserved and no job. -/
theorem abort_loses_staging :
    ¬ ∀ x, Reachable (abortSystem (fun _ => "") threeHandles) x →
      x.phase = .returned → AllTracked x.state.db.ledger threeHandles := by
  intro hclaim
  let attempts : List Attempt := threeHandles.map fun staged => (staged, none)
  let released := releaseReady (fun _ => "") givenUp.db.ledger attempts
  have h0 : Reachable (abortSystem (fun _ => "") threeHandles) { state := givenUp } := by
    refine .start ⟨givenUp_reachable, ?_, rfl⟩
    show ∀ staged ∈ threeHandles, _
    decide
  have h1 : Reachable (abortSystem (fun _ => "") threeHandles)
      { state := withLedger givenUp released.1, phase := .tracking released.2 } :=
    h0.step (a := .release attempts) ⟨rfl, rfl, rfl⟩
  have h2 : Reachable (abortSystem (fun _ => "") threeHandles)
      { state := withLedger givenUp (trackCleanup released.1 (cleanupRequests released.2) 200)
        phase := .returned } :=
    h1.step (a := .track (cleanupRequests released.2) 200) ⟨_, rfl, List.Perm.refl _, rfl⟩
  obtain ⟨j, hj, hid⟩ := hclaim _ h2 rfl (uploadHandle "c") (by decide) (by decide)
    { upload "c" 100 with stagingLeaseExpiresAt := some 5 } (by decide) rfl rfl
  revert j
  decide

end AbortLifecycle
