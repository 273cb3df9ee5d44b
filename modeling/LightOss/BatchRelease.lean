import LightOss.BatchLedger

/-! # Batch releases — rows that leave, references that go

    `ReleaseStagingBatch` drops staging rows and returns their reservation,
    `ReleaseReferences` counts how often each path is released and enqueues the rows
    that lose their last reference.  Both are compared with the loop of single calls;
    only the numbers of new cleanup jobs depend on the order of the releases.

    Two releases in a row are one (`stagingReleased_trans`, `unreferenced_append`), and
    what can be released in two steps can be released in one (`releasable_append`); the
    loops follow by induction.  The batch releases the paths in sorted order and the
    loop in the given one, hence `SameButNumbers`. -/

namespace BatchRelease

open KeyedTable Fallible LedgerRows BlobRepository LedgerSpecs LedgerMoves LedgerInvariant
open StagingExpiry BatchLedger

variable {l l' m m' : Ledger}

/-! ## Release of staging -/

/-- The rows that go determine the new ledger. -/
theorem stagingReleased_unique {p : StorageBlob → Bool} (h : StagingReleased l p m)
    (h' : StagingReleased l p m') : m = m' :=
  eq_of_rows (h.dropped.quota.trans h'.dropped.quota.symm)
    (h.dropped.rows.trans h'.dropped.rows.symm)
    (h.dropped.jobs.trans h'.dropped.jobs.symm)
    (h.dropped.nextJobID.trans h'.dropped.nextJobID.symm)

/-- Dropping rows and setting the counters commute. -/
theorem dropped_withQuota {p : StorageBlob → Bool} (h : Dropped l p m) (used reserved : Nat) :
    Dropped (withQuota l used reserved) p (withQuota m used reserved) :=
  ⟨by simp only [withQuota, h.quota], h.nextJobID, h.rows, h.jobs⟩

/-- Two releases, the second of rows the first left, are one. -/
theorem stagingReleased_trans {p q : StorageBlob → Bool} (h : StagingReleased l p m)
    (h' : StagingReleased m q l') : StagingReleased l (fun b => p b || q b) l' := by
  have hsum : ((l.blobs.select fun b => p b || q b).map (·.size)).sum
      = ((l.blobs.select p).map (·.size)).sum + ((m.blobs.select q).map (·.size)).sum := by
    have hleft : l.blobs.select (fun b => p b || q b)
        = l.blobs.select fun b => p b || (!p b && q b) :=
      List.filter_congr fun b _ => by cases p b <;> rfl
    have hmrows : m.blobs.rows = l.blobs.rows.filter fun b => !p b := h.dropped.rows
    have hright : m.blobs.select q = l.blobs.select fun b => !p b && q b := by
      rw [Table.select, hmrows, List.filter_filter]
      exact List.filter_congr fun b _ => Bool.and_comm _ _
    rw [hleft, hright]
    exact l.blobs.sum_select_or (fun b _ hp => by rw [hp]; rfl) (·.size)
  have hquota := h.dropped.quota
  have hcovered := h.covered
  have hcovered' := h'.covered
  rw [hquota] at hcovered'
  simp only [withQuota] at hcovered'
  -- the second reservation is taken from what the first left
  refine ⟨fun b hb hpq => ?_, by omega, ?_⟩
  · cases hp : p b with
    | true => exact h.staging b hb hp
    | false =>
        rw [hp, Bool.false_or] at hpq
        exact h'.staging b (h.dropped.mem_rows.mpr ⟨hb, hp⟩) hpq
  · have hboth := (dropped_withQuota h.dropped _ _).trans h'.dropped
    refine ⟨hboth.quota.trans ?_, hboth.nextJobID, hboth.rows, hboth.jobs⟩
    rw [hsum, hquota]
    simp only [withQuota, Nat.sub_sub]

/-- One row of the slice, or none: a row that is gone is no error. -/
theorem releaseStaging_runs {id : String}
    (hstaging : ∀ b ∈ l.blobs.rows, b.id = id → b.status = .staging
      ∧ b.size ≤ l.quota.reservedBytes) :
    ∃ m, releaseStaging l id = .ok m ∧ StagingReleased l (fun b => decide (b.id ∈ [id])) m := by
  rw [releaseStaging]
  split
  · next hnone =>
      refine ⟨l, rfl, (StagingReleased.none l).congr fun b hb => ?_⟩
      have hne := Table.first?_eq_none.mp hnone b hb
      simpa using hne
  -- ids are unique: the row is all that the id selects
  · next blob hblob =>
      obtain ⟨hb, hid⟩ := Table.first?_eq_some hblob
      obtain rfl : blob.id = id := beq_iff_eq.mp hid
      obtain ⟨hs, hsize⟩ := hstaging blob hb rfl
      have hsel : l.blobs.select (fun b => decide (b.id ∈ [blob.id])) = [blob] :=
        l.blobs.select_eq_singleton hb (by simp) fun a ha =>
          StorageBlob.clash_of_id (by simpa using ha)
      have hquota : (if 0 < blob.size then
          releaseQuota l blob.size
            (.errorf s!"storage quota reservation for blob {blob.id} is inconsistent")
        else .ok l) = .ok (withQuota l l.quota.usedBytes (l.quota.reservedBytes - blob.size)) := by
        split
        · rw [releaseQuota, if_pos hsize]
          exact bind_eq_ok.mpr ⟨_, u64Sub_eq_ok.mpr ⟨hsize, rfl⟩, rfl⟩
        · next hzero =>
            rw [Nat.eq_zero_of_not_pos hzero]
            rfl
      refine ⟨_,
        bind_eq_ok.mpr ⟨(), ensure_eq_ok.mpr hs, bind_eq_ok.mpr ⟨_, hquota, rfl⟩⟩, ?_, ?_, ?_⟩
      · intro b hb' hp
        exact (hstaging b hb' (by simpa using hp)).1
      · rw [hsel, List.map_singleton, List.sum_singleton]
        exact hsize
      · rw [hsel, List.map_singleton, List.sum_singleton]
        have hdropped := dropped_deleteBlobs
          (withQuota l l.quota.usedBytes (l.quota.reservedBytes - blob.size))
            (fun b => b.id == blob.id)
        have hsame :
            (fun b : StorageBlob => decide (b.id ∈ [blob.id])) = fun b => b.id == blob.id := by
          funext b
          rw [Bool.eq_iff_iff]
          simp
        rw [hsame]
        exact hdropped

/-- **Release of staging**, one row at a time; an id may come again. -/
theorem releaseEach_runs : ∀ (ids : List String) (l : Ledger),
    (∀ b ∈ l.blobs.rows, b.id ∈ ids → b.status = .staging) →
    ((l.blobs.select fun b => decide (b.id ∈ ids)).map (·.size)).sum ≤ l.quota.reservedBytes →
    ∃ l', ids.foldlM releaseStaging l = .ok l'
      ∧ StagingReleased l (fun b => decide (b.id ∈ ids)) l' := by
  intro ids
  induction ids with
  | nil => exact fun l _ _ => ⟨l, rfl, (StagingReleased.none l).congr fun b _ => by simp⟩
  | cons id rest ih =>
      intro l hstaging hcovered
      have hhead : ∀ b ∈ l.blobs.rows, b.id = id → b.status = .staging
          ∧ b.size ≤ l.quota.reservedBytes := by
        intro b hb hid
        have hin : b.id ∈ id :: rest := hid ▸ List.mem_cons_self
        refine ⟨hstaging b hb hin, Nat.le_trans ?_ hcovered⟩
        exact List.le_sum_of_mem (List.mem_map_of_mem
          (Table.mem_select.mpr ⟨hb, decide_eq_true hin⟩))
      obtain ⟨m, hm, hreleased⟩ := releaseStaging_runs hhead
      -- the rest of the sum is the sum of what is left
      have hsplit : (fun b : StorageBlob => decide (b.id ∈ id :: rest))
          = fun b => decide (b.id ∈ [id]) || (!decide (b.id ∈ [id]) && decide (b.id ∈ rest)) := by
        funext b
        rw [Bool.eq_iff_iff]
        by_cases hid : b.id = id <;> simp [hid]
      have hmrows : m.blobs.rows = l.blobs.rows.filter fun b => !decide (b.id ∈ [id]) :=
        hreleased.dropped.rows
      have hmselect : m.blobs.select (fun b => decide (b.id ∈ rest))
          = l.blobs.select fun b => !decide (b.id ∈ [id]) && decide (b.id ∈ rest) := by
        rw [Table.select, hmrows, List.filter_filter]
        exact List.filter_congr fun b _ => Bool.and_comm _ _
      have hsum := l.blobs.sum_select_or
        (p := fun b => decide (b.id ∈ [id]))
        (q := fun b => !decide (b.id ∈ [id]) && decide (b.id ∈ rest))
        (fun b _ hp => by rw [hp]; rfl) (·.size)
      have hquota := hreleased.dropped.quota
      rw [hsplit, hsum] at hcovered
      obtain ⟨l', hl', hreleased'⟩ := ih m
        (fun b hb hin =>
          hstaging b (hreleased.dropped.mem_rows.mp hb).1 (List.mem_cons_of_mem _ hin))
        (by
          rw [hmselect, hquota]
          simp only [withQuota]
          omega)
      refine ⟨l', bind_eq_ok.mpr ⟨m, hm, hl'⟩, ?_⟩
      refine (stagingReleased_trans hreleased hreleased').congr fun b _ => ?_
      rw [Bool.eq_iff_iff]
      simp

/-- The loop succeeds when every row is staging. -/
theorem releasedTotals_runs : ∀ (blobs : List StorageBlob) (total : Nat),
    (∀ b ∈ blobs, b.status = .staging) → total + (blobs.map (·.size)).sum ≤ maxUint64 →
    releasedTotals total blobs = .ok (total + (blobs.map (·.size)).sum, blobs.map (·.id)) := by
  intro blobs
  induction blobs with
  | nil => exact fun _ _ _ => rfl
  | cons blob rest ih =>
      intro total hstaging hrange
      rw [List.map_cons, List.sum_cons] at hrange
      have hrest := ih (total + blob.size) (fun b hb => hstaging b (List.mem_cons_of_mem _ hb))
        (by omega)
      rw [List.map_cons, List.map_cons, List.sum_cons, ← Nat.add_assoc]
      exact bind_eq_ok.mpr ⟨(), ensure_eq_ok.mpr (hstaging blob List.mem_cons_self),
        bind_eq_ok.mpr ⟨(), ensure_eq_ok.mpr (by omega), bind_eq_ok.mpr ⟨_, hrest, rfl⟩⟩⟩

/-- The rows found for the distinct ids are the rows named in the slice. -/
theorem findBlobsByID_perm {ids : List String} (hne : ∀ id ∈ ids, id ≠ "") {n : Nat} (hn : 0 < n) :
    (findBlobsByID l (distinctIDs [] ids) n).Perm
    (l.blobs.select fun b => decide (b.id ∈ ids)) := by
  obtain ⟨hnd, hsub⟩ := distinctIDs_ok ids []
  refine (List.perm_ext_iff_of_nodup (findBlobsByID_nodup hnd hn)
    (l.blobs.rows_nodup.filter _)).mpr fun b => ⟨fun hb => ?_, fun hb => ?_⟩
  · have hin := (hsub _ (mem_ids_of_findBlobsByID hn hb)).1
    exact Table.mem_select.mpr ⟨mem_findBlobsByID hb, decide_eq_true hin⟩
  · obtain ⟨hmem, hin⟩ := Table.mem_select.mp hb
    have hin := of_decide_eq_true hin
    exact mem_findBlobsByID_of_mem hn hmem (mem_distinctIDs ids [] hin (hne _ hin) List.not_mem_nil)

/-- A delete over ids that all have a row affects as many rows as it names. -/
theorem deleteBatches_runs {ids : List String} (hnd : ids.Nodup)
    (hall : ∀ id ∈ ids, ∃ b ∈ l.blobs.rows, b.id = id) {n : Nat} (hn : 0 < n) :
    ∃ l', (batches n ids).foldlM deleteBatch l = .ok l' := by
  have hloop := foldlM_batches_runs (f := deleteBatch) (l := ids) (b := l)
    (P := fun xs k => Dropped l (fun b => decide (b.id ∈ xs)) k) hn ?_ ?_
  · exact hloop.imp fun k hk => hk.1
  · refine ⟨rfl, rfl, ?_, ?_⟩
    · exact (List.filter_eq_self.mpr fun _ _ => by simp).symm
    · exact (List.filter_eq_self.mpr fun _ _ => by simp).symm
  · intro xs ys k hpre hk
    obtain ⟨-, hys, hdisj⟩ := List.nodup_append.mp (hnd.sublist hpre.sublist)
    have hcount : k.blobs.count (fun b => decide (b.id ∈ ys)) = ys.length := by
      refine count_ids hys (fun b hb => of_decide_eq_true hb) fun id hid => ?_
      obtain ⟨b, hb, rfl⟩ := hall id (hpre.subset (List.mem_append_right _ hid))
      refine ⟨b, hk.mem_rows.mpr ⟨hb, decide_eq_false fun hx => ?_⟩, rfl, decide_eq_true hid⟩
      exact hdisj _ hx _ hid rfl
    have hrun : deleteBatch k ys = .ok (k.deleteBlobs fun b => decide (b.id ∈ ys)) :=
      bind_eq_ok.mpr ⟨(), ensure_eq_ok.mpr hcount, rfl⟩
    refine ⟨_, hrun, ?_⟩
    have hboth := hk.trans (deleteBatch_ok hrun)
    simpa only [← Bool.decide_or, ← List.mem_append] using hboth

/-- `ReleaseStagingBatch` succeeds on one condition, whatever the batch size. -/
theorem releaseStagingBatch_runs {ids : List String} (hne : ∀ id ∈ ids, id ≠ "")
    (hstaging : ∀ b ∈ l.blobs.rows, b.id ∈ ids → b.status = .staging)
    (hcovered : ((l.blobs.select fun b => decide (b.id ∈ ids)).map (·.size)).sum
      ≤ l.quota.reservedBytes)
    (hreserved : l.quota.reservedBytes ≤ maxUint64) (batchSize : Int) :
    ∃ l', releaseStagingBatch l ids batchSize = .ok l' := by
  rw [releaseStagingBatch]
  split
  · exact ⟨l, rfl⟩
  have hn := normalizeStorageBlobBatchSize_pos batchSize
  have hperm := findBlobsByID_perm (l := l) hne hn
  have hnd := nodup_ids (fun b hb => mem_findBlobsByID hb)
    (findBlobsByID_nodup (l := l) (distinctIDs_ok ids []).1 hn)
  dsimp only
  generalize findBlobsByID l (distinctIDs [] ids) (normalizeStorageBlobBatchSize batchSize) = blobs
    at hperm hnd ⊢
  have hsum : (blobs.map (·.size)).sum ≤ l.quota.reservedBytes := by
    rw [(hperm.map (·.size)).sum_nat]
    exact hcovered
  have hrow : ∀ b ∈ blobs, b ∈ l.blobs.rows ∧ b.id ∈ ids := by
    intro b hb
    obtain ⟨hmem, hin⟩ := Table.mem_select.mp (hperm.mem_iff.mp hb)
    exact ⟨hmem, of_decide_eq_true hin⟩
  have htotals := releasedTotals_runs blobs 0 (fun b hb => hstaging b (hrow b hb).1 (hrow b hb).2)
    (by omega)
  rw [Nat.zero_add] at htotals
  have hquota : ∃ k, (if 0 < (blobs.map (·.size)).sum then
      releaseQuota l (blobs.map (·.size)).sum
        (.errorf "storage quota batch reservation is inconsistent")
      else .ok l) = .ok k ∧ k.blobs.rows = l.blobs.rows := by
    split
    · rw [releaseQuota, if_pos hsum]
      exact ⟨_, bind_eq_ok.mpr ⟨_, u64Sub_eq_ok.mpr ⟨hsum, rfl⟩, rfl⟩, rfl⟩
    · exact ⟨l, rfl, rfl⟩
  obtain ⟨k, hk, hkrows⟩ := hquota
  obtain ⟨l', hl'⟩ := deleteBatches_runs (l := k) hnd (fun id hid => by
    obtain ⟨b, hb, hbid⟩ := List.mem_map.mp hid
    exact ⟨b, hkrows ▸ (hrow b hb).1, hbid⟩) hn
  have hlast : ∃ l', (if blobs.map (·.id) = [] then Except.ok l
      else do
        let l ← (if 0 < (blobs.map (·.size)).sum then
            releaseQuota l (blobs.map (·.size)).sum
              (.errorf "storage quota batch reservation is inconsistent")
          else .ok l)
        (batches (normalizeStorageBlobBatchSize batchSize) (blobs.map (·.id))).foldlM deleteBatch l)
      = .ok l' := by
    split
    · exact ⟨l, rfl⟩
    · exact ⟨l', bind_eq_ok.mpr ⟨k, hk, hl'⟩⟩
  exact hlast.imp fun l' hl' => bind_eq_ok.mpr ⟨_, htotals, hl'⟩

/-- **The batch succeeds** exactly when its size-free condition holds. -/
theorem releaseStagingBatch_iff {ids : List String} (hne : ∀ id ∈ ids, id ≠ "")
    (hreserved : l.quota.reservedBytes ≤ maxUint64) {batchSize : Int} :
    releaseStagingBatch l ids batchSize = .ok l'
      ↔ StagingReleased l (fun b => decide (b.id ∈ ids)) l' := by
  have hall : ∀ {k}, releaseStagingBatch l ids batchSize = .ok k →
      StagingReleased l (fun b => decide (b.id ∈ ids)) k := by
    intro k h
    obtain ⟨p, hp, hrows, hs⟩ := releaseStagingBatch_rows h
    refine hs.congr fun b hb => ?_
    rw [Bool.eq_iff_iff, decide_eq_true_eq]
    exact ⟨hp b, fun hin => hrows b hb hin (hne _ hin)⟩
  refine ⟨hall, fun h => ?_⟩
  obtain ⟨k, hk⟩ := releaseStagingBatch_runs hne
    (fun b hb hin => h.staging b hb (decide_eq_true hin)) h.covered hreserved batchSize
  rw [hk, stagingReleased_unique (hall hk) h]

/-! ## Release of references -/

/-- New job rows under the numbers the table hands out from `next` on. -/
def numbered : Nat → List StorageCleanupJob → List StorageCleanupJob
  | _, [] => []
  | next, job :: rest => { job with id := next } :: numbered (next + 1) rest

/-- The numbers go on behind the first jobs. -/
theorem numbered_append : ∀ (next : Nat) (xs ys : List StorageCleanupJob),
    numbered next (xs ++ ys) = numbered next xs ++ numbered (next + xs.length) ys := by
  intro next xs
  induction xs generalizing next with
  | nil => exact fun _ => rfl
  | cons job rest ih =>
      intro ys
      rw [List.cons_append, numbered, ih, numbered, List.length_cons, List.cons_append,
        Nat.add_assoc, Nat.add_comm 1]

/-- A numbered job is one of the jobs under a number of the range. -/
theorem mem_numbered : ∀ {next : Nat} {jobs : List StorageCleanupJob} {j : StorageCleanupJob},
    j ∈ numbered next jobs → next ≤ j.id ∧ j.id < next + jobs.length
      ∧ ∃ job ∈ jobs, job.blobID = j.blobID := by
  intro next jobs
  induction jobs generalizing next with
  | nil => exact fun h => nomatch h
  | cons job rest ih =>
      intro j h
      rcases List.mem_cons.mp h with rfl | h
      · refine ⟨Nat.le_refl _, ?_, job, List.mem_cons_self, rfl⟩
        rw [List.length_cons]
        show next < _
        omega
      · obtain ⟨hlow, hhigh, job', hjob', hid⟩ := ih h
        rw [List.length_cons]
        exact ⟨by omega, by omega, job', List.mem_cons_of_mem _ hjob', hid⟩

/-- No job clashes with a new one for an active row. -/
structure Free (l : Ledger) : Prop where
  auto : AutoIncrement l
  active : ∀ b ∈ l.blobs.rows, b.status = .active → ¬ HasJob l b.id

/-- In an exact ledger no active row has a job. -/
theorem free_of_ledgerOk {R : Multiset Reference} (h : LedgerOk l R) : Free l :=
  ⟨h.jobs.fresh, fun b hb hs => ((rowOk_active hs).mp (h.rows b hb)).2.2.2.2.1⟩

/-- The release of `paths` takes the last reference of the row. -/
def LastReleased (paths : List String) (b : StorageBlob) : Prop :=
  0 < countStoragePaths paths b.storagePath ∧ b.refCount = countStoragePaths paths b.storagePath

/-- When references can be released: every path has an active row with enough of them. -/
def Releasable (l : Ledger) (paths : List String) : Prop :=
  ∀ path ∈ paths, path ≠ "" → ∃ b ∈ l.blobs.rows, b.storagePath = path ∧ b.status = .active
    ∧ countStoragePaths paths path ≤ b.refCount

/-- The ledger without the references of `paths`; `jobs` are the new jobs in their order. -/
structure Unreferenced (l : Ledger) (paths : List String) (now : Time)
    (jobs : List StorageCleanupJob) (l' : Ledger) : Prop where
  quota : l'.quota = l.quota
  rows : l'.blobs.rows = l.blobs.rows.map (dereferenced paths)
  nextJobID : l'.nextJobID = l.nextJobID + jobs.length
  jobRows : l'.jobs.rows = l.jobs.rows ++ numbered l.nextJobID jobs
  nodup : (jobs.map (·.blobID)).Nodup
  mem : ∀ job, job ∈ jobs ↔ ∃ b ∈ l.blobs.rows, LastReleased paths b ∧ plannedJob now b = job

/-- The jobs, in their order, determine the new ledger. -/
theorem unreferenced_unique {paths : List String} {now : Time} {jobs : List StorageCleanupJob}
    (h : Unreferenced l paths now jobs m) (h' : Unreferenced l paths now jobs m') : m = m' :=
  eq_of_rows (h.quota.trans h'.quota.symm) (h.rows.trans h'.rows.symm)
    (h.jobRows.trans h'.jobRows.symm) (h.nextJobID.trans h'.nextJobID.symm)

/-- A job for a row without one is a new row. -/
theorem createReleasedJob_runs {job : StorageCleanupJob} (now : Time) (hauto : AutoIncrement l)
    (hrow : ∃ b ∈ l.blobs.rows, b.id = job.blobID) (hnew : ¬ HasJob l job.blobID) :
    ∃ l', createReleasedJob now l job = .ok l' ∧ l'.quota = l.quota ∧ l'.blobs = l.blobs
      ∧ l'.nextJobID = l.nextJobID + 1
      ∧ l'.jobs.rows = l.jobs.rows ++ [{ job with id := l.nextJobID }] := by
  have hforeign : (l.blobs.rows.any fun b => b.id == job.blobID) = true := by simpa using hrow
  have hnone : ¬ (l.jobs.rows.any fun j => j.blobID == job.blobID) = true := by
    rw [List.any_eq_true]
    rintro ⟨j, hj, hid⟩
    exact hnew ⟨j, hj, beq_iff_eq.mp hid⟩
  have hfits : ∀ j ∈ l.jobs.rows,
      StorageCleanupJob.clash j { job with id := l.nextJobID } = false := by
    intro j hj
    have hid : j.id ≠ l.nextJobID := Nat.ne_of_lt (hauto j hj)
    have hblob : j.blobID ≠ job.blobID := fun heq => hnew ⟨j, hj, heq⟩
    simp [StorageCleanupJob.clash, hid, hblob]
  unfold createReleasedJob Ledger.createJob
  rw [if_pos hforeign, if_neg hnone, Table.insert?, dif_pos hfits]
  exact ⟨_, rfl, rfl, rfl, rfl, rfl⟩

theorem createReleasedJobs_runs (now : Time) : ∀ (jobs : List StorageCleanupJob) (l : Ledger),
    AutoIncrement l → (∀ job ∈ jobs, ∃ b ∈ l.blobs.rows, b.id = job.blobID) →
    (∀ job ∈ jobs, ¬ HasJob l job.blobID) → (jobs.map (·.blobID)).Nodup →
    ∃ l', jobs.foldlM (createReleasedJob now) l = .ok l' ∧ l'.quota = l.quota
      ∧ l'.blobs = l.blobs ∧ l'.nextJobID = l.nextJobID + jobs.length
      ∧ l'.jobs.rows = l.jobs.rows ++ numbered l.nextJobID jobs := by
  intro jobs
  induction jobs with
  | nil => exact fun l _ _ _ _ => ⟨l, rfl, rfl, rfl, rfl, (List.append_nil _).symm⟩
  | cons job rest ih =>
      intro l hauto hrows hnew hnd
      obtain ⟨hjob, hrest⟩ := List.nodup_cons.mp hnd
      obtain ⟨m, hm, hquota, hblobs, hnext, hjobs⟩ := createReleasedJob_runs now hauto
        (hrows job List.mem_cons_self) (hnew job List.mem_cons_self)
      have hauto' : AutoIncrement m := by
        intro j hj
        rw [hnext]
        rw [hjobs] at hj
        rcases List.mem_append.mp hj with hj | hj
        · exact Nat.lt_succ_of_lt (hauto j hj)
        · rw [List.mem_singleton.mp hj]
          exact Nat.lt_succ_self _
      have hnew' : ∀ other ∈ rest, ¬ HasJob m other.blobID := by
        rintro other hother ⟨j, hj, hid⟩
        rw [hjobs] at hj
        rcases List.mem_append.mp hj with hj | hj
        · exact hnew other (List.mem_cons_of_mem _ hother) ⟨j, hj, hid⟩
        · rw [List.mem_singleton.mp hj] at hid
          exact hjob (List.mem_map.mpr ⟨other, hother, hid.symm⟩)
      obtain ⟨l', hl', hquota', hblobs', hnext', hjobs'⟩ := ih m hauto'
        (fun other hother => hblobs ▸ hrows other (List.mem_cons_of_mem _ hother)) hnew' hrest
      refine ⟨l', bind_eq_ok.mpr ⟨m, hm, hl'⟩, hquota'.trans hquota, hblobs'.trans hblobs, ?_, ?_⟩
      · rw [hnext', hnext, List.length_cons, Nat.add_assoc, Nat.add_comm 1]
      · rw [hjobs', hjobs, hnext, List.append_assoc]
        rfl

/-! ### The batch -/

/-- The rows of `paths`, in their order. -/
def pathRows (l : Ledger) (paths : List String) : List StorageBlob :=
  paths.filterMap fun path => l.blobs.first? fun b => b.storagePath == path

/-- The rows of paths that are all there have these paths. -/
theorem pathRows_map : ∀ {paths : List String},
    (∀ path ∈ paths, ∃ b ∈ l.blobs.rows, b.storagePath = path) →
    (pathRows l paths).map (·.storagePath) = paths := by
  intro paths
  induction paths with
  | nil => exact fun _ => rfl
  | cons path rest ih =>
      intro h
      obtain ⟨b, hb, hpath⟩ := h path List.mem_cons_self
      have hfirst : l.blobs.first? (fun c => c.storagePath == path) = some b :=
        l.blobs.first?_of_mem hb (beq_iff_eq.mpr hpath) fun a ha =>
          StorageBlob.clash_of_path ((beq_iff_eq.mp ha).trans hpath.symm)
      have hcons : pathRows l (path :: rest) = b :: pathRows l rest :=
        List.filterMap_cons_some hfirst
      rw [hcons, List.map_cons, ih fun p hp => h p (List.mem_cons_of_mem _ hp), hpath]

theorem mem_pathRows {paths : List String} {b : StorageBlob} (h : b ∈ pathRows l paths) :
    b ∈ l.blobs.rows ∧ b.storagePath ∈ paths := by
  obtain ⟨path, hpath, hfirst⟩ := List.mem_filterMap.mp h
  obtain ⟨hb, heq⟩ := Table.first?_eq_some hfirst
  exact ⟨hb, beq_iff_eq.mp heq ▸ hpath⟩

/-- The query finds the rows of its paths. -/
theorem mem_findBlobsByPath_iff {paths : List String} {n : Nat} (hn : 0 < n) {b : StorageBlob} :
    b ∈ findBlobsByPath l paths n ↔ b ∈ l.blobs.rows ∧ b.storagePath ∈ paths := by
  have hflat := flatten_batches hn paths
  refine ⟨fun h => ?_, fun ⟨hb, hpath⟩ => ?_⟩
  · obtain ⟨batch, hbatch, hb⟩ := List.mem_flatMap.mp h
    obtain ⟨hrow, hin⟩ := Table.mem_select.mp hb
    exact ⟨hrow, hflat ▸ List.mem_flatten.mpr ⟨batch, hbatch, of_decide_eq_true hin⟩⟩
  · rw [← hflat] at hpath
    obtain ⟨batch, hbatch, hin⟩ := List.mem_flatten.mp hpath
    exact List.mem_flatMap.mpr ⟨batch, hbatch, Table.mem_select.mpr ⟨hb, decide_eq_true hin⟩⟩

theorem findBlobsByPath_nodup {paths : List String} (hnd : paths.Nodup) {n : Nat} (hn : 0 < n) :
    (findBlobsByPath l paths n).Nodup := by
  rw [← flatten_batches hn paths] at hnd
  obtain ⟨-, hdisj⟩ := List.nodup_flatten.mp hnd
  refine List.nodup_flatMap.mpr ⟨fun _ _ => l.blobs.rows_nodup.filter _, hdisj.imp ?_⟩
  intro xs ys hxy b hbx hby
  exact hxy (of_decide_eq_true (Table.mem_select.mp hbx).2)
    (of_decide_eq_true (Table.mem_select.mp hby).2)

/-- The loop succeeds when every row is active with enough references. -/
theorem referenceUpdates_runs {blobs : List StorageBlob} (hnd : (blobs.map (·.storagePath)).Nodup)
    (storagePaths : List String) (now : Time) : ∀ found : List StorageBlob,
    (∀ b ∈ found, b ∈ blobs ∧ b.status = .active
      ∧ countStoragePaths storagePaths b.storagePath ≤ b.refCount) →
    referenceUpdates blobs storagePaths now (found.map (·.storagePath))
      = .ok (found.map (plannedUpdate storagePaths), plannedJobs storagePaths now found) := by
  intro found
  induction found with
  | nil => exact fun _ => rfl
  | cons b rest ih =>
      intro h
      obtain ⟨hb, hactive, hle⟩ := h b List.mem_cons_self
      have hrest := ih fun c hc => h c (List.mem_cons_of_mem _ hc)
      have hfind : blobs.find? (fun c => c.storagePath == b.storagePath) = some b :=
        Table.find?_of_nodup hnd hb (beq_self_eq_true _) fun c hc => beq_iff_eq.mp hc
      have hguard :
          ¬ (b.status ≠ .active ∨ b.refCount < countStoragePaths storagePaths b.storagePath) := by
        rw [not_or, not_not]
        exact ⟨hactive, Nat.not_lt.mpr hle⟩
      rw [List.map_cons, referenceUpdates, hfind]
      refine bind_eq_ok.mpr ⟨b, rfl, bind_eq_ok.mpr ⟨(), ensure_eq_ok.mpr hguard,
        bind_eq_ok.mpr ⟨_, hrest, ?_⟩⟩⟩
      dsimp only
      by_cases hzero : b.refCount - countStoragePaths storagePaths b.storagePath = 0
      · rw [if_pos hzero]
        simp [plannedJobs, plannedUpdate, plannedJob, hzero, pure, Except.pure]
      · rw [if_neg hzero]
        simp [plannedJobs, plannedUpdate, hzero, pure, Except.pure]

/-- A batch of updates whose rows are all active. -/
theorem referenceBatch_runs {batch : List ReferenceUpdate} (hnd : (batch.map (·.id)).Nodup)
    (hall : ∀ id ∈ batch.map (·.id), ∃ b ∈ l.blobs.rows, b.id = id ∧ b.status = .active) :
    ∃ l', referenceBatch l batch = .ok l' := by
  have hcount : l.blobs.count (fun b => decide (b.id ∈ batch.map (·.id) ∧ b.status = .active))
      = batch.length := by
    rw [← List.length_map (f := fun u : ReferenceUpdate => u.id)]
    refine count_ids hnd (fun b hb => (of_decide_eq_true hb).1) fun id hid => ?_
    obtain ⟨b, hb, hbid, hactive⟩ := hall id hid
    exact ⟨b, hb, hbid, decide_eq_true ⟨hbid ▸ hid, hactive⟩⟩
  exact ⟨_, bind_eq_ok.mpr ⟨(), ensure_eq_ok.mpr hcount, rfl⟩⟩

/-- The update loop affects every row of the plan once. -/
theorem referenceBatches_runs {updates : List ReferenceUpdate} (hnd : (updates.map (·.id)).Nodup)
    (hall : ∀ id ∈ updates.map (·.id), ∃ b ∈ l.blobs.rows, b.id = id ∧ b.status = .active)
    {n : Nat} (hn : 0 < n) :
    ∃ l', (batches n updates).foldlM referenceBatch l = .ok l'
      ∧ Rewrites l (referenceUpdated updates) l' := by
  refine foldlM_batches_runs (P := fun xs k => Rewrites l (referenceUpdated xs) k) hn ?_ ?_
  · exact (Rewrites.id l).congr fun b _ => (if_neg fun h => nomatch h.1).symm
  · intro xs ys k hpre hk
    have hids : ((xs ++ ys).map (·.id)).Nodup := hnd.sublist (hpre.sublist.map _)
    have hparts := hids
    rw [List.map_append] at hparts
    obtain ⟨-, hys, hdisj⟩ := List.nodup_append.mp hparts
    obtain ⟨k', hk'⟩ := referenceBatch_runs hys fun id hid => by
      have hmem : id ∈ updates.map (·.id) := (hpre.sublist.map _).subset
        (List.map_append ▸ List.mem_append_right _ hid)
      obtain ⟨b, hb, rfl, hactive⟩ := hall id hmem
      refine ⟨b, hk.mem.mpr ⟨b, hb, if_neg fun hx => ?_⟩, rfl, hactive⟩
      exact hdisj _ hx.1 _ hid rfl
    exact ⟨k', hk', (hk.trans (referenceBatch_ok hk')).congr
      fun b _ => referenceUpdated_append hids b⟩

/-- A successful release had the references it released. -/
theorem releasable_of_released {paths : List String} (h : Released l paths l') :
    Releasable l paths := by
  intro path hpath hne
  have hpos := countStoragePaths_pos.mpr ⟨hpath, hne⟩
  obtain ⟨b, hb, rfl⟩ := h.owned path hpos
  obtain ⟨hactive, hle⟩ := h.active b hb hpos
  exact ⟨b, hb, rfl, hactive, hle⟩

/-- The jobs of a plan are those of the rows that lose their last reference. -/
theorem plannedJobs_mem {paths : List String} (h : Releasable l paths) (now : Time)
    (job : StorageCleanupJob) :
    job ∈ plannedJobs paths now (pathRows l (sortedStoragePaths paths))
      ↔ ∃ b ∈ l.blobs.rows, LastReleased paths b ∧ plannedJob now b = job := by
  rw [plannedJobs, List.mem_map]
  constructor
  · rintro ⟨b, hb, hjob⟩
    obtain ⟨hb, hzero⟩ := List.mem_filter.mp hb
    obtain ⟨hrow, hpath⟩ := mem_pathRows hb
    have hpos := mem_sortedStoragePaths.mp hpath
    obtain ⟨hgiven, hne⟩ := countStoragePaths_pos.mp hpos
    obtain ⟨c, hc, hcpath, -, hle⟩ := h _ hgiven hne
    obtain rfl := l.blobs.eq_of_clash hc hrow (StorageBlob.clash_of_path hcpath)
    have hzero := of_decide_eq_true hzero
    exact ⟨c, hrow, ⟨hpos, by omega⟩, hjob⟩
  · rintro ⟨b, hb, ⟨hpos, heq⟩, hjob⟩
    refine ⟨b, List.mem_filter.mpr ⟨?_, decide_eq_true (by omega)⟩, hjob⟩
    have hfirst : l.blobs.first? (fun c => c.storagePath == b.storagePath) = some b :=
      l.blobs.first?_of_mem hb (beq_self_eq_true _) fun a ha =>
        StorageBlob.clash_of_path (beq_iff_eq.mp ha)
    exact List.mem_filterMap.mpr ⟨b.storagePath, mem_sortedStoragePaths.mpr hpos, hfirst⟩

/-- Every path that is counted has its row. -/
theorem exists_row_of_sorted {paths : List String} (h : Releasable l paths) :
    ∀ path ∈ sortedStoragePaths paths, ∃ b ∈ l.blobs.rows, b.storagePath = path := by
  intro path hpath
  obtain ⟨hgiven, hne⟩ := countStoragePaths_pos.mp (mem_sortedStoragePaths.mp hpath)
  obtain ⟨b, hb, hbpath, -⟩ := h path hgiven hne
  exact ⟨b, hb, hbpath⟩

theorem plannedJobs_nodup {paths : List String} (h : Releasable l paths) (now : Time) :
    ((plannedJobs paths now (pathRows l (sortedStoragePaths paths))).map (·.blobID)).Nodup := by
  have hids : ((pathRows l (sortedStoragePaths paths)).map (·.id)).Nodup :=
    nodup_ids_of_paths (fun b hb => (mem_pathRows hb).1)
      ((pathRows_map (exists_row_of_sorted h)).symm ▸ sortedStoragePaths_nodup paths)
  rw [plannedJobs, List.map_map]
  exact hids.sublist (List.filter_sublist.map _)

/-- A row whose path is not released stays. -/
theorem dereferenced_of_count {paths : List String} {b : StorageBlob}
    (h : countStoragePaths paths b.storagePath = 0) : dereferenced paths b = b := if_pos h

/-- The rows under a released path are active, with enough references. -/
theorem pathRows_releasable {paths : List String} (h : Releasable l paths) :
    ∀ b ∈ pathRows l (sortedStoragePaths paths), b ∈ l.blobs.rows
      ∧ b.status = .active ∧ countStoragePaths paths b.storagePath ≤ b.refCount := by
  intro b hb
  obtain ⟨hrow, hpath⟩ := mem_pathRows hb
  obtain ⟨hgiven, hne⟩ := countStoragePaths_pos.mp (mem_sortedStoragePaths.mp hpath)
  obtain ⟨c, hc, hcpath, hactive, hle⟩ := h _ hgiven hne
  obtain rfl := l.blobs.eq_of_clash hc hrow (StorageBlob.clash_of_path hcpath)
  exact ⟨hrow, hactive, hle⟩

/-- The locking reads find one row for each path, and the plan does not depend on their
    order. -/
theorem plan_runs {paths : List String} (h : Releasable l paths) (now : Time) {n : Nat}
    (hn : 0 < n) :
    (findBlobsByPath l (sortedStoragePaths paths) n).length = (sortedStoragePaths paths).length
      ∧ referenceUpdates (findBlobsByPath l (sortedStoragePaths paths) n) paths now
          (sortedStoragePaths paths)
        = .ok ((pathRows l (sortedStoragePaths paths)).map (plannedUpdate paths),
          plannedJobs paths now (pathRows l (sortedStoragePaths paths))) := by
  have hsorted := exists_row_of_sorted h
  have hnd := findBlobsByPath_nodup (l := l) (sortedStoragePaths_nodup paths) hn
  have hread : ∀ b, b ∈ findBlobsByPath l (sortedStoragePaths paths) n
      ↔ b ∈ l.blobs.rows ∧ b.storagePath ∈ sortedStoragePaths paths :=
    fun b => mem_findBlobsByPath_iff hn
  have hkeys : ((findBlobsByPath l (sortedStoragePaths paths) n).map (·.storagePath)).Nodup := by
    refine List.Nodup.map_on (fun a ha b hb hp => ?_) hnd
    exact l.blobs.eq_of_clash ((hread a).mp ha).1 ((hread b).mp hb).1 (StorageBlob.clash_of_path hp)
  refine ⟨?_, ?_⟩
  · refine length_of_keys (k := fun b => b.storagePath) (fun a b hp => StorageBlob.clash_of_path hp)
      (fun b hb => ((hread b).mp hb).1) hnd (sortedStoragePaths_nodup paths)
      (fun b hb => ((hread b).mp hb).2) fun path hpath => ?_
    obtain ⟨b, hb, rfl⟩ := hsorted path hpath
    exact ⟨b, (hread b).mpr ⟨hb, hpath⟩, rfl⟩
  · have hplan := referenceUpdates_runs hkeys paths now (pathRows l (sortedStoragePaths paths))
      fun b hb => ⟨(hread b).mpr (mem_pathRows hb), (pathRows_releasable h b hb).2⟩
    rwa [pathRows_map hsorted] at hplan

/-- The rows of a plan are updated, whatever the batch size. -/
theorem planUpdates_runs {paths : List String} (h : Releasable l paths) {n : Nat} (hn : 0 < n) :
    ∃ m, (batches n ((pathRows l (sortedStoragePaths paths)).map (plannedUpdate paths))).foldlM
        referenceBatch l = .ok m
      ∧ Rewrites l (dereferenced paths) m := by
  have hpaths := pathRows_map (exists_row_of_sorted h)
  have hfound := pathRows_releasable h
  have hids :
      (((pathRows l (sortedStoragePaths paths)).map (plannedUpdate paths)).map (·.id)).Nodup := by
    rw [List.map_map]
    refine nodup_ids_of_paths (fun b hb => (hfound b hb).1) ?_
    rw [hpaths]
    exact sortedStoragePaths_nodup paths
  have hall : ∀ id ∈ ((pathRows l (sortedStoragePaths paths)).map (plannedUpdate paths)).map (·.id),
      ∃ b ∈ l.blobs.rows, b.id = id ∧ b.status = .active := by
    intro id hid
    rw [List.map_map] at hid
    obtain ⟨b, hb, rfl⟩ := List.mem_map.mp hid
    exact ⟨b, (hfound b hb).1, rfl, (hfound b hb).2.1⟩
  obtain ⟨m, hm, hr⟩ := referenceBatches_runs hids hall hn
  exact ⟨m, hm, hr.congr
    (referenceUpdated_planned hpaths fun b hb => ⟨(hfound b hb).1, (hfound b hb).2.1⟩)⟩

/-- `ReleaseReferences` succeeds on one condition, which also fixes the order of the new
    jobs: that of the sorted paths. -/
theorem releaseReferences_runs (hfree : Free l) {paths : List String} (h : Releasable l paths)
    (now : Time) (batchSize : Int) :
    ∃ l', releaseReferences l paths now batchSize = .ok l'
      ∧ Unreferenced l paths now
        (plannedJobs paths now (pathRows l (sortedStoragePaths paths))) l' := by
  have hmem := plannedJobs_mem h now
  have hjobsNodup := plannedJobs_nodup h now
  rw [releaseReferences]
  split
  · next hnil =>
      rw [hnil] at hmem hjobsNodup ⊢
      refine ⟨l, rfl, rfl, ?_, rfl, (List.append_nil _).symm, hjobsNodup, hmem⟩
      have hzero : ∀ b ∈ l.blobs.rows, dereferenced paths b = b := by
        intro b _
        refine dereferenced_of_count (Nat.eq_zero_of_not_pos fun hpos => ?_)
        rw [← mem_sortedStoragePaths, hnil] at hpos
        cases hpos
      exact ((List.map_congr_left hzero).trans (List.map_id' _)).symm
  have hn := normalizeStorageBlobBatchSize_pos batchSize
  obtain ⟨hlength, hplan⟩ := plan_runs h now hn
  obtain ⟨m, hm, hr⟩ := planUpdates_runs h hn
  generalize plannedJobs paths now (pathRows l (sortedStoragePaths paths)) = jobs at *
  -- the jobs are for rows that were active, so none of them is there
  have hrow : ∀ job ∈ jobs, ∃ b ∈ l.blobs.rows, b.id = job.blobID ∧ b.status = .active := by
    intro job hjob
    obtain ⟨b, hb, ⟨hpos, -⟩, rfl⟩ := (hmem job).mp hjob
    obtain ⟨hgiven, hne⟩ := countStoragePaths_pos.mp hpos
    obtain ⟨c, hc, hcpath, hactive, -⟩ := h _ hgiven hne
    obtain rfl := l.blobs.eq_of_clash hc hb (StorageBlob.clash_of_path hcpath)
    exact ⟨c, hb, rfl, hactive⟩
  have hauto : AutoIncrement m := by
    intro j hj
    rw [hr.nextJobID]
    exact hfree.auto j (hr.jobs ▸ hj)
  obtain ⟨l', hl', hquota, hblobs, hnext, hjobs⟩ := createReleasedJobs_runs now jobs m hauto
    (fun job hjob => by
      obtain ⟨b, hb, hid, -⟩ := hrow job hjob
      exact ⟨_, hr.mem.mpr ⟨b, hb, rfl⟩, (dereferenced_keepsPaths paths b).1.trans hid⟩)
    (fun job hjob hhas => by
      obtain ⟨b, hb, hid, hactive⟩ := hrow job hjob
      exact hfree.active b hb hactive ((hasJob_of_jobs hr.jobs b.id).mp (hid ▸ hhas)))
    hjobsNodup
  refine ⟨l', bind_eq_ok.mpr ⟨(), ensure_eq_ok.mpr hlength, bind_eq_ok.mpr ⟨_, hplan, bind_eq_ok.mpr
    ⟨m, hm, (foldlM_batches hn jobs m).trans hl'⟩⟩⟩, ?_⟩
  refine ⟨hquota.trans hr.quota, ?_, ?_, ?_, hjobsNodup, hmem⟩
  · rw [hblobs, hr.rows]
  · rw [hnext, hr.nextJobID]
  · rw [hjobs, hr.jobs, hr.nextJobID]

/-- Another batch size releases the same references. -/
theorem releaseReferences_size (hfree : Free l) {paths : List String} {now : Time} {batchSize : Int}
    (h : releaseReferences l paths now batchSize = .ok l') (batchSize' : Int) :
    releaseReferences l paths now batchSize' = .ok l' := by
  have hreleasable := releasable_of_released (releaseReferences_ok h)
  obtain ⟨m, hm, hunref⟩ := releaseReferences_runs hfree hreleasable now batchSize
  obtain ⟨m', hm', hunref'⟩ := releaseReferences_runs hfree hreleasable now batchSize'
  obtain rfl : l' = m := Except.ok.inj (h.symm.trans hm)
  rw [hm', unreferenced_unique hunref' hunref]

/-! ### One path after the other -/

theorem countStoragePaths_append (xs ys : List String) (path : String) :
    countStoragePaths (xs ++ ys) path = countStoragePaths xs path + countStoragePaths ys path := by
  rw [countStoragePaths, List.filter_append, List.count_append]
  rfl

/-- Releasing in two steps takes the same references off a row. -/
theorem dereferenced_append (xs ys : List String) (b : StorageBlob) :
    dereferenced ys (dereferenced xs b) = dereferenced (xs ++ ys) b := by
  have hpath : (dereferenced xs b).storagePath = b.storagePath :=
    (dereferenced_keepsPaths xs b).2.1
  have hcount := countStoragePaths_append xs ys b.storagePath
  by_cases hx : countStoragePaths xs b.storagePath = 0
  · rw [dereferenced_of_count hx, dereferenced, dereferenced, hcount, hx, Nat.zero_add]
  · by_cases hy : countStoragePaths ys b.storagePath = 0
    · rw [dereferenced_of_count (hpath ▸ hy), dereferenced, dereferenced, hcount, hy, Nat.add_zero]
    · have hsum :
          ¬ countStoragePaths xs b.storagePath + countStoragePaths ys b.storagePath = 0 := by
        omega
      rw [dereferenced, hpath, if_neg hy, dereferenced, if_neg hx, dereferenced, hcount,
        if_neg hsum]
      simp only [Nat.sub_sub]

/-- The counter goes down by what is counted. -/
theorem dereferenced_refCount (paths : List String) (b : StorageBlob) :
    (dereferenced paths b).refCount = b.refCount - countStoragePaths paths b.storagePath := by
  rw [dereferenced]
  split
  · next hzero => rw [hzero, Nat.sub_zero]
  · rfl

/-- The job does not depend on the counter. -/
theorem plannedJob_dereferenced (now : Time) (paths : List String) (b : StorageBlob) :
    plannedJob now (dereferenced paths b) = plannedJob now b := by
  rw [plannedJob, plannedJob, (dereferenced_keepsPaths paths b).1,
    (dereferenced_keepsPaths paths b).2.1]

/-- What can be released together can be begun. -/
theorem releasable_left {xs ys : List String} (h : Releasable l (xs ++ ys)) : Releasable l xs := by
  intro path hpath hne
  obtain ⟨b, hb, hbpath, hactive, hle⟩ := h path (List.mem_append_left _ hpath) hne
  rw [countStoragePaths_append] at hle
  exact ⟨b, hb, hbpath, hactive, by omega⟩

/-- A row of a released path was active and had the references. -/
theorem releasable_row {paths : List String} (h : Releasable l paths) {b : StorageBlob}
    (hb : b ∈ l.blobs.rows) (hpos : 0 < countStoragePaths paths b.storagePath) :
    b.status = .active ∧ countStoragePaths paths b.storagePath ≤ b.refCount := by
  obtain ⟨hgiven, hne⟩ := countStoragePaths_pos.mp hpos
  obtain ⟨c, hc, hcpath, hactive, hle⟩ := h _ hgiven hne
  obtain rfl := l.blobs.eq_of_clash hc hb (StorageBlob.clash_of_path hcpath)
  exact ⟨hactive, hle⟩

theorem releasable_right {xs ys : List String} {now : Time} {jobs : List StorageCleanupJob}
    (h : Releasable l (xs ++ ys)) (hm : Unreferenced l xs now jobs m) : Releasable m ys := by
  intro path hpath hne
  have hpos := countStoragePaths_pos.mpr ⟨hpath, hne⟩
  obtain ⟨b, hb, hbpath, hactive, hle⟩ := h path (List.mem_append_right _ hpath) hne
  have hkeeps := dereferenced_keepsPaths xs b
  have hcount := countStoragePaths_append xs ys path
  refine ⟨dereferenced xs b, hm.rows ▸ List.mem_map_of_mem hb, hkeeps.2.1.trans hbpath, ?_, ?_⟩
  · rw [dereferenced, hbpath]
    split
    · exact hactive
    · exact if_neg (by omega)
  · rw [dereferenced_refCount, hbpath]
    omega

/-- A release leaves no active row with a job. -/
theorem free_of_unreferenced {paths : List String} {now : Time} {jobs : List StorageCleanupJob}
    (hfree : Free l) (h : Releasable l paths) (hm : Unreferenced l paths now jobs m) : Free m := by
  refine ⟨fun j hj => ?_, fun c hc hactive hhas => ?_⟩
  · rw [hm.jobRows] at hj
    rw [hm.nextJobID]
    rcases List.mem_append.mp hj with hj | hj
    · have := hfree.auto j hj
      omega
    · exact (mem_numbered hj).2.1
  · rw [hm.rows] at hc
    obtain ⟨b, hb, rfl⟩ := List.mem_map.mp hc
    obtain ⟨j, hj, hid⟩ := hhas
    have hbid := hid.trans (dereferenced_keepsPaths paths b).1
    rw [hm.jobRows] at hj
    rcases List.mem_append.mp hj with hj | hj
    · -- the row was active before, so it had no job
      refine hfree.active b hb ?_ ⟨j, hj, hbid⟩
      by_cases hzero : countStoragePaths paths b.storagePath = 0
      · rwa [dereferenced_of_count hzero] at hactive
      · exact (releasable_row h hb (Nat.pos_of_ne_zero hzero)).1
    · -- a new job is for a row that was sealed
      obtain ⟨-, -, job, hjob, hjobID⟩ := mem_numbered hj
      obtain ⟨c, hc, ⟨hpos, heq⟩, rfl⟩ := (hm.mem job).mp hjob
      obtain rfl := l.blobs.eq_of_clash hc hb (StorageBlob.clash_of_id (hjobID.trans hbid))
      rw [dereferenced, if_neg (Nat.ne_of_gt hpos), heq, Nat.sub_self] at hactive
      cases hactive

/-- Two releases are one, and their jobs come one after the other. -/
theorem unreferenced_append {xs ys : List String} {now : Time} {js ks : List StorageCleanupJob}
    (h : Releasable l (xs ++ ys)) (hm : Unreferenced l xs now js m)
    (hl' : Unreferenced m ys now ks l') : Unreferenced l (xs ++ ys) now (js ++ ks) l' := by
  have hcount := countStoragePaths_append xs ys
  have hpath : ∀ b, (dereferenced xs b).storagePath = b.storagePath :=
    fun b => (dereferenced_keepsPaths xs b).2.1
  -- a row that loses its last reference in the second step had others in the first
  have hlast : ∀ b, LastReleased ys (dereferenced xs b) ↔
      0 < countStoragePaths ys b.storagePath
        ∧ b.refCount - countStoragePaths xs b.storagePath = countStoragePaths ys b.storagePath := by
    intro b
    rw [LastReleased, hpath, dereferenced_refCount]
  refine ⟨hl'.quota.trans hm.quota, ?_, ?_, ?_, ?_, fun job => ?_⟩
  · rw [hl'.rows, hm.rows, List.map_map]
    exact List.map_congr_left fun b _ => dereferenced_append xs ys b
  · rw [hl'.nextJobID, hm.nextJobID, List.length_append, Nat.add_assoc]
  · rw [hl'.jobRows, hm.jobRows, hm.nextJobID, numbered_append, List.append_assoc]
  · rw [List.map_append]
    refine List.nodup_append.mpr ⟨hm.nodup, hl'.nodup, ?_⟩
    rintro id hjs id' hks rfl
    obtain ⟨job, hjob, rfl⟩ := List.mem_map.mp hjs
    obtain ⟨job', hjob', hid⟩ := List.mem_map.mp hks
    obtain ⟨b, hb, ⟨-, heq⟩, rfl⟩ := (hm.mem job).mp hjob
    obtain ⟨c, hc, hreleased, rfl⟩ := (hl'.mem job').mp hjob'
    rw [hm.rows] at hc
    obtain ⟨b', hb', rfl⟩ := List.mem_map.mp hc
    have hbid : b'.id = b.id := (dereferenced_keepsPaths xs b').1.symm.trans hid
    obtain rfl := l.blobs.eq_of_clash hb' hb (StorageBlob.clash_of_id hbid)
    have := (hlast b').mp hreleased
    omega
  · rw [List.mem_append, hm.mem, hl'.mem]
    constructor
    · rintro (⟨b, hb, ⟨hpos, heq⟩, hjob⟩ | ⟨c, hc, hreleased, hjob⟩)
      · have hle := (releasable_row h hb (by rw [hcount]; omega)).2
        rw [hcount] at hle
        exact ⟨b, hb, ⟨by rw [hcount]; omega, by rw [hcount]; omega⟩, hjob⟩
      · rw [hm.rows] at hc
        obtain ⟨b, hb, rfl⟩ := List.mem_map.mp hc
        have hreleased := (hlast b).mp hreleased
        rw [plannedJob_dereferenced] at hjob
        exact ⟨b, hb, ⟨by rw [hcount]; omega, by rw [hcount]; omega⟩, hjob⟩
    · rintro ⟨b, hb, ⟨hpos, heq⟩, hjob⟩
      rw [hcount] at hpos heq
      -- the row is named again in the second release, or not
      rcases Nat.eq_zero_or_pos (countStoragePaths ys b.storagePath) with hy | hy
      · exact Or.inl ⟨b, hb, ⟨by omega, by omega⟩, hjob⟩
      · refine Or.inr ⟨dereferenced xs b, hm.rows ▸ List.mem_map_of_mem hb,
          (hlast b).mpr ⟨hy, by omega⟩, ?_⟩
        rw [plannedJob_dereferenced]
        exact hjob

/-- **Release of references**, one path at a time. -/
theorem releaseEachReference_runs (now : Time) (batchSize : Int) :
    ∀ (paths : List String) (l : Ledger), Free l → Releasable l paths →
    ∃ l' jobs, paths.foldlM (fun l path => releaseReferences l [path] now batchSize) l = .ok l'
      ∧ Unreferenced l paths now jobs l' := by
  intro paths
  induction paths with
  | nil =>
      intro l _ _
      refine ⟨l, [], rfl, rfl, ?_, rfl, (List.append_nil _).symm, List.nodup_nil, fun job => ?_⟩
      · have hzero : ∀ b ∈ l.blobs.rows, dereferenced [] b = b :=
          fun b _ => dereferenced_of_count rfl
        exact ((List.map_congr_left hzero).trans (List.map_id' _)).symm
      · refine ⟨nofun, ?_⟩
        rintro ⟨b, -, ⟨hpos, -⟩, -⟩
        exact absurd hpos (Nat.lt_irrefl 0)
  | cons path rest ih =>
      intro l hfree h
      have hsplit : Releasable l ([path] ++ rest) := h
      have hfirst : Releasable l [path] := releasable_left hsplit
      obtain ⟨m, hm, hreleased⟩ := releaseReferences_runs hfree hfirst now batchSize
      obtain ⟨l', jobs, hl', hreleased'⟩ := ih m (free_of_unreferenced hfree hfirst hreleased)
        (releasable_right hsplit hreleased)
      exact ⟨l', _, bind_eq_ok.mpr ⟨m, hm, hl'⟩,
        unreferenced_append hsplit hreleased hreleased'⟩

/-! ## The batch calls -/

/-- What can be released in two steps can be released in one: a path of the second step
    still had its references, and one of the first step alone lost none to the second. -/
theorem releasable_append {xs ys : List String} {now : Time} {jobs : List StorageCleanupJob}
    (hx : Releasable l xs) (hm : Unreferenced l xs now jobs m) (hy : Releasable m ys) :
    Releasable l (xs ++ ys) := by
  intro path hpath hne
  have hcount := countStoragePaths_append xs ys path
  by_cases hzero : countStoragePaths ys path = 0
  · have hleft : path ∈ xs := (List.mem_append.mp hpath).resolve_right fun hright =>
      absurd (countStoragePaths_pos.mpr ⟨hright, hne⟩) (by omega)
    obtain ⟨b, hb, hbpath, hactive, hle⟩ := hx path hleft hne
    exact ⟨b, hb, hbpath, hactive, by omega⟩
  · obtain ⟨hright, -⟩ := countStoragePaths_pos.mp (Nat.pos_of_ne_zero hzero)
    obtain ⟨c, hc, hcpath, hactive, hle⟩ := hy path hright hne
    rw [hm.rows] at hc
    obtain ⟨b, hb, rfl⟩ := List.mem_map.mp hc
    have hbpath : b.storagePath = path := (dereferenced_keepsPaths xs b).2.1.symm.trans hcpath
    rw [dereferenced_refCount, hbpath] at hle
    refine ⟨b, hb, hbpath, ?_, by omega⟩
    by_cases hx0 : countStoragePaths xs b.storagePath = 0
    · rwa [dereferenced_of_count hx0] at hactive
    · exact (releasable_row hx hb (Nat.pos_of_ne_zero hx0)).1

/-- A loop of single calls that succeeds releases what the batch could release. -/
theorem releasable_of_each {now : Time} {batchSize : Int} :
    ∀ (paths : List String) (l l' : Ledger), Free l →
      paths.foldlM (fun l path => releaseReferences l [path] now batchSize) l = .ok l' →
      Releasable l paths := by
  intro paths
  induction paths with
  | nil => exact fun l l' _ _ path hpath => absurd hpath List.not_mem_nil
  | cons path rest ih =>
      intro l l' hfree h
      obtain ⟨m, hm, hrest⟩ := bind_eq_ok.mp h
      have hfirst := releasable_of_released (releaseReferences_ok hm)
      obtain ⟨k, hk, hunref⟩ := releaseReferences_runs hfree hfirst now batchSize
      obtain rfl : m = k := Except.ok.inj (hm.symm.trans hk)
      exact releasable_append hfirst hunref
        (ih m l' (free_of_unreferenced hfree hfirst hunref) hrest)

/-- The same rows and counters; only which new job has which number may differ. -/
structure SameButNumbers (l m m' : Ledger) : Prop where
  quota : m.quota = m'.quota
  blobs : m.blobs = m'.blobs
  nextJobID : m.nextJobID = m'.nextJobID
  jobs : ∃ js ks, js.Perm ks ∧ m.jobs.rows = l.jobs.rows ++ numbered l.nextJobID js
    ∧ m'.jobs.rows = l.jobs.rows ++ numbered l.nextJobID ks

/-- Two orders of the same release differ in the numbers of the jobs. -/
theorem sameButNumbers_of {paths : List String} {now : Time} {js ks : List StorageCleanupJob}
    (h : Unreferenced l paths now js m) (h' : Unreferenced l paths now ks m') :
    SameButNumbers l m m' := by
  have hperm : js.Perm ks := (List.perm_ext_iff_of_nodup (List.Nodup.of_map _ h.nodup)
    (List.Nodup.of_map _ h'.nodup)).mpr fun job => (h.mem job).trans (h'.mem job).symm
  refine ⟨h.quota.trans h'.quota.symm, Table.ext_rows (h.rows.trans h'.rows.symm), ?_,
    js, ks, hperm, h.jobRows, h'.jobRows⟩
  rw [h.nextJobID, h'.nextJobID, hperm.length_eq]

/-- `ReleaseReferences` and the loop of single calls fail together, and otherwise differ
    in the numbers of the new jobs alone. -/
theorem releaseReferences_each (hfree : Free l) (paths : List String) (now : Time)
    (batchSize batchSize' : Int) :
    ((releaseReferences l paths now batchSize).isOk = false
      ∧ (paths.foldlM (fun l path => releaseReferences l [path] now batchSize') l).isOk = false)
    ∨ ∃ m m', releaseReferences l paths now batchSize = .ok m
      ∧ paths.foldlM (fun l path => releaseReferences l [path] now batchSize') l = .ok m'
      ∧ SameButNumbers l m m' := by
  have hruns : Releasable l paths → ∃ m m', releaseReferences l paths now batchSize = .ok m
      ∧ paths.foldlM (fun l path => releaseReferences l [path] now batchSize') l = .ok m'
      ∧ SameButNumbers l m m' := by
    intro hreleasable
    obtain ⟨m, hm, hunref⟩ := releaseReferences_runs hfree hreleasable now batchSize
    obtain ⟨m', jobs, hm', hunref'⟩ :=
      releaseEachReference_runs now batchSize' paths l hfree hreleasable
    exact ⟨m, m', hm, hm', sameButNumbers_of hunref hunref'⟩
  cases hbatch : releaseReferences l paths now batchSize with
  | ok m =>
      rw [← hbatch]
      exact Or.inr (hruns (releasable_of_released (releaseReferences_ok hbatch)))
  | error err =>
      cases heach : paths.foldlM (fun l path => releaseReferences l [path] now batchSize') l with
      | error err' => exact Or.inl ⟨rfl, rfl⟩
      | ok m' =>
          -- the batch would have succeeded too
          obtain ⟨m, -, hm, -⟩ := hruns (releasable_of_each paths l m' hfree heach)
          exact nomatch hbatch.symm.trans hm

/-- **Batch ledger calls** equal the loops of single calls for every batch size; of
    `ReleaseReferences` this holds up to the numbers of the new cleanup jobs, and it fails
    exactly when the loop does. -/
theorem batch_ledger {R : Multiset Reference} (h : LedgerOk l R) :
    (∀ blobs batchSize batchSize' lease now, (∀ b ∈ blobs, b.status = .staging) →
      Agrees l (createStagingBatch l blobs batchSize lease now)
        (blobs.foldlM (stageBlob lease now) l)
      ∧ (createStagingBatch l blobs batchSize lease now).toOption
        = (createStagingBatch l blobs batchSize' lease now).toOption)
    ∧ (∀ activations batchSize batchSize',
      Agrees l (activateStagingBatch l activations batchSize)
        (activations.foldlM (fun l a => activateStaging l a.id a.actualSize) l)
      ∧ (activateStagingBatch l activations batchSize).toOption
        = (activateStagingBatch l activations batchSize').toOption)
    ∧ (∀ blobIDs batchSize batchSize', (∀ id ∈ blobIDs, id ≠ "") →
      Agrees l (releaseStagingBatch l blobIDs batchSize) (blobIDs.foldlM releaseStaging l)
      ∧ (releaseStagingBatch l blobIDs batchSize).toOption
        = (releaseStagingBatch l blobIDs batchSize').toOption)
    ∧ ∀ storagePaths now batchSize batchSize',
      (((releaseReferences l storagePaths now batchSize).isOk = false
          ∧ (storagePaths.foldlM (fun l path => releaseReferences l [path] now batchSize') l).isOk
            = false)
        ∨ ∃ m m', releaseReferences l storagePaths now batchSize = .ok m
          ∧ storagePaths.foldlM (fun l path => releaseReferences l [path] now batchSize') l = .ok m'
          ∧ SameButNumbers l m m')
      ∧ (releaseReferences l storagePaths now batchSize).toOption
        = (releaseReferences l storagePaths now batchSize').toOption := by
  refine ⟨fun blobs n n' lease now hstaging => ⟨agrees_of fun l' hrun => ?_, toOption_eq ?_ ?_⟩,
    fun as n n' => ⟨agrees_of fun l' hrun => ?_, toOption_eq ?_ ?_⟩,
    fun ids n n' hne => ⟨agrees_of fun l' hrun => ?_, toOption_eq ?_ ?_⟩,
    fun paths now n n' => ⟨releaseReferences_each (free_of_ledgerOk h) paths now n n',
      toOption_eq ?_ ?_⟩⟩
  · obtain ⟨hcreatable, hcreated⟩ := (createStagingBatch_iff hstaging).mp hrun
    obtain ⟨k, hk, hcreated'⟩ := stageBlobs_runs now blobs l hstaging hcreatable
    rw [hk, created_unique hcreated' hcreated]
  · exact fun l' hrun =>
      (createStagingBatch_iff hstaging).mpr ((createStagingBatch_iff hstaging).mp hrun)
  · exact fun l' hrun =>
      (createStagingBatch_iff hstaging).mpr ((createStagingBatch_iff hstaging).mp hrun)
  · obtain ⟨-, found, hactivation⟩ := (activateStagingBatch_iff h.reservedRange).mp hrun
    exact activateEach_runs as found l hactivation
  · exact fun l' hrun => (activateStagingBatch_iff h.reservedRange).mpr
      ((activateStagingBatch_iff h.reservedRange).mp hrun)
  · exact fun l' hrun => (activateStagingBatch_iff h.reservedRange).mpr
      ((activateStagingBatch_iff h.reservedRange).mp hrun)
  · have hreleased := (releaseStagingBatch_iff hne h.reservedRange).mp hrun
    obtain ⟨k, hk, hreleased'⟩ := releaseEach_runs ids l
      (fun b hb hin => hreleased.staging b hb (decide_eq_true hin)) hreleased.covered
    rw [hk, stagingReleased_unique hreleased' hreleased]
  · exact fun l' hrun => (releaseStagingBatch_iff hne h.reservedRange).mpr
      ((releaseStagingBatch_iff hne h.reservedRange).mp hrun)
  · exact fun l' hrun => (releaseStagingBatch_iff hne h.reservedRange).mpr
      ((releaseStagingBatch_iff hne h.reservedRange).mp hrun)
  · exact fun l' hrun => releaseReferences_size (free_of_ledgerOk h) hrun n'
  · exact fun l' hrun => releaseReferences_size (free_of_ledgerOk h) hrun n

/-! ## Two files whose jobs change numbers -/

/-- A file whose id comes first and whose path comes last. -/
def firstFile : StorageBlob where
  id := "first"
  storagePath := "objects/b"
  size := 3
  refCount := 1
  status := .active

def secondFile : StorageBlob where
  id := "second"
  storagePath := "objects/a"
  size := 4
  refCount := 1
  status := .active

/-- A ledger with both files in use, one reference each. -/
def twoFiles : Ledger where
  quota := { maxBytes := 100, usedBytes := 7 }
  blobs := ⟨[firstFile, secondFile], by decide⟩
  jobs := Table.empty
  nextJobID := 1

theorem ledgerOk_twoFiles : LedgerOk twoFiles {("objects/b", 3), ("objects/a", 4)} where
  used := rfl
  reserved := rfl
  usedRange := by decide
  reservedRange := by decide
  rows := by
    have hjob : ∀ id, ¬ HasJob twoFiles id := fun id ⟨j, hj, _⟩ => nomatch hj
    refine List.forall_mem_cons.mpr ⟨?_, List.forall_mem_singleton.mpr ?_⟩
    · exact (rowOk_active rfl).mpr ⟨rfl, rfl, by decide, by decide, hjob _, by decide⟩
    · exact (rowOk_active rfl).mpr ⟨rfl, rfl, by decide, by decide, hjob _, by decide⟩
  owned := by decide
  jobs := ⟨nofun, nofun⟩
  paths := ⟨by decide, by decide, by decide⟩

theorem sortedStoragePaths_pair :
    sortedStoragePaths ["objects/b", "objects/a"] = ["objects/a", "objects/b"] := by
  have hperm : (sortedStoragePaths ["objects/b", "objects/a"]).Perm ["objects/a", "objects/b"] :=
    (List.mergeSort_perm _ _).trans (List.Perm.swap _ _ _)
  have htrans : ∀ a b c : String, decide (a ≤ b) = true → decide (b ≤ c) = true →
      decide (a ≤ c) = true := fun a b c hab hbc =>
    decide_eq_true (String.le_trans (of_decide_eq_true hab) (of_decide_eq_true hbc))
  have htotal : ∀ a b : String, (decide (a ≤ b) || decide (b ≤ a)) = true := by
    intro a b
    simpa [Bool.or_eq_true] using String.le_total a b
  have hsorted : (sortedStoragePaths ["objects/b", "objects/a"]).Pairwise
      fun a b => decide (a ≤ b) = true := List.pairwise_mergeSort htrans htotal _
  refine hperm.eq_of_pairwise (fun a b _ _ hab hba => ?_) hsorted (by decide)
  exact String.le_antisymm (of_decide_eq_true hab) (of_decide_eq_true hba)

theorem sortedStoragePaths_single {path : String} (h : path ≠ "") :
    sortedStoragePaths [path] = [path] := by
  have hfilter : [path].filter (fun p => decide (p ≠ "")) = [path] :=
    List.filter_cons_of_pos (decide_eq_true h)
  rw [sortedStoragePaths, hfilter]
  exact List.mergeSort_singleton _

/-- The batch numbers the jobs by path, the loop of single calls by release. -/
theorem job_numbers_differ :
    LedgerOk twoFiles {("objects/b", 3), ("objects/a", 4)}
      ∧ ∃ m m', releaseReferences twoFiles ["objects/b", "objects/a"] 0 100 = .ok m
        ∧ ["objects/b", "objects/a"].foldlM
          (fun l path => releaseReferences l [path] 0 100) twoFiles
          = .ok m'
        ∧ m.jobs.rows.map (fun j => (j.id, j.blobID)) = [(1, "second"), (2, "first")]
        ∧ m'.jobs.rows.map (fun j => (j.id, j.blobID)) = [(1, "first"), (2, "second")]
        ∧ m ≠ m' := by
  have hfree := free_of_ledgerOk ledgerOk_twoFiles
  have hboth : Releasable twoFiles (["objects/b"] ++ ["objects/a"]) := by
    intro path hpath _
    rcases List.mem_cons.mp hpath with rfl | hpath
    · exact ⟨firstFile, List.mem_cons_self, rfl, rfl, by decide⟩
    · rw [List.mem_singleton.mp hpath]
      exact ⟨secondFile, List.mem_cons_of_mem _ List.mem_cons_self, rfl, rfl, by decide⟩
  have hleft := releasable_left hboth
  obtain ⟨m, hm, hunref⟩ := releaseReferences_runs hfree hboth 0 100
  obtain ⟨k, hk, hfirst⟩ := releaseReferences_runs hfree hleft 0 100
  obtain ⟨m', hm', hsecond⟩ := releaseReferences_runs (free_of_unreferenced hfree hleft hfirst)
    (releasable_right hboth hfirst) 0 100
  have hmjobs : m.jobs.rows.map (fun j => (j.id, j.blobID)) = [(1, "second"), (2, "first")] := by
    rw [hunref.jobRows, List.singleton_append, sortedStoragePaths_pair]
    decide
  have hkjobs : k.jobs.rows.map (fun j => (j.id, j.blobID)) = [(1, "first")] ∧ k.nextJobID = 2 := by
    rw [hfirst.jobRows, hfirst.nextJobID, sortedStoragePaths_single (by decide)]
    decide
  have hrow : pathRows k ["objects/a"] = [dereferenced ["objects/b"] secondFile] := by
    have hfind : k.blobs.first? (fun b => b.storagePath == "objects/a")
        = some (dereferenced ["objects/b"] secondFile) := by
      rw [Table.first?, hfirst.rows]
      decide
    simp only [pathRows, List.filterMap_cons, hfind, List.filterMap_nil]
  have hm'jobs : m'.jobs.rows.map (fun j => (j.id, j.blobID)) = [(1, "first"), (2, "second")] := by
    rw [hsecond.jobRows, List.map_append, hkjobs.1, hkjobs.2, sortedStoragePaths_single (by decide),
      hrow]
    decide
  refine ⟨ledgerOk_twoFiles, m, m', hm, bind_eq_ok.mpr ⟨k, hk, bind_eq_ok.mpr ⟨m', hm', rfl⟩⟩,
    hmjobs, hm'jobs, ?_⟩
  rintro rfl
  rw [hmjobs] at hm'jobs
  exact absurd hm'jobs (by decide)

/-! A shared file, a second one, and two that are still staged; every call succeeds. -/

/-- A file with two references. -/
def sharedFile : StorageBlob where
  id := "shared"
  storagePath := "objects/b"
  size := 3
  refCount := 2
  status := .active

/-- A file that is still staged. -/
def stagedFile (id : String) (size : Nat) : StorageBlob where
  id := id
  storagePath := "objects/" ++ id
  stagingPath := some ("staging/" ++ id)
  size := size
  status := .staging
  stagingLeaseExpiresAt := some 60

/-- A shared file, another one, and two that are staged. -/
def fourFiles : Ledger where
  quota := { maxBytes := 100, usedBytes := 7, reservedBytes := 11 }
  blobs := ⟨[sharedFile, secondFile, stagedFile "third" 5, stagedFile "fourth" 6], by decide⟩
  jobs := Table.empty
  nextJobID := 1

theorem ledgerOk_fourFiles :
    LedgerOk fourFiles {("objects/b", 3), ("objects/b", 3), ("objects/a", 4)} where
  used := rfl
  reserved := rfl
  usedRange := by decide
  reservedRange := by decide
  rows := by
    have hjob : ∀ id, ¬ HasJob fourFiles id := fun id ⟨j, hj, _⟩ => nomatch hj
    refine List.forall_mem_cons.mpr ⟨?_, List.forall_mem_cons.mpr ⟨?_, List.forall_mem_cons.mpr
      ⟨?_, List.forall_mem_singleton.mpr ?_⟩⟩⟩
    · exact (rowOk_active rfl).mpr ⟨rfl, rfl, by decide, by decide, hjob _, by decide⟩
    · exact (rowOk_active rfl).mpr ⟨rfl, rfl, by decide, by decide, hjob _, by decide⟩
    · exact (rowOk_staging rfl).mpr ⟨rfl, rfl, rfl⟩
    · exact (rowOk_staging rfl).mpr ⟨rfl, rfl, rfl⟩
  owned := by decide
  jobs := ⟨nofun, nofun⟩
  paths := ⟨by decide, by decide, by decide⟩

/-- Both references of the shared file and the one of the other can go. -/
theorem releasable_fourFiles : Releasable fourFiles ["objects/b", "objects/a", "objects/b"] := by
  intro path hpath _
  simp only [List.mem_cons, List.not_mem_nil, or_false] at hpath
  rcases hpath with rfl | rfl | rfl
  · exact ⟨sharedFile, List.mem_cons_self, rfl, rfl, by decide⟩
  · exact ⟨secondFile, List.mem_cons_of_mem _ List.mem_cons_self, rfl, rfl, by decide⟩
  · exact ⟨sharedFile, List.mem_cons_self, rfl, rfl, by decide⟩

/-- All four kinds of call, each as a batch and as a loop. -/
theorem batch_ledger_fourFiles :
    (∃ m, createStagingBatch fourFiles [stagedFile "fifth" 8, stagedFile "sixth" 9] 1 60 0 = .ok m
      ∧ [stagedFile "fifth" 8, stagedFile "sixth" 9].foldlM (stageBlob 60 0) fourFiles = .ok m)
    ∧ (∃ m, activateStagingBatch fourFiles [⟨"fourth", 6⟩, ⟨"third", 2⟩] 1 = .ok m
      ∧ [⟨"fourth", 6⟩, ⟨"third", 2⟩].foldlM
        (fun l (a : StorageBlobActivation) => activateStaging l a.id a.actualSize) fourFiles
          = .ok m)
    ∧ (∃ m, releaseStagingBatch fourFiles ["third", "fourth", "third"] 1 = .ok m
      ∧ ["third", "fourth", "third"].foldlM releaseStaging fourFiles = .ok m)
    ∧ ∃ m m', releaseReferences fourFiles ["objects/b", "objects/a", "objects/b"] 0 1 = .ok m
      ∧ ["objects/b", "objects/a", "objects/b"].foldlM
        (fun l path => releaseReferences l [path] 0 2) fourFiles = .ok m'
      ∧ SameButNumbers fourFiles m m' := by
  obtain ⟨hcreate, hactivate, hstaging, hreferences⟩ := batch_ledger ledgerOk_fourFiles
  refine ⟨?_, ?_, ?_, ?_⟩
  · refine (hcreate [stagedFile "fifth" 8, stagedFile "sixth" 9] 1 2 60 0 ?_).1.resolve_left ?_
    · exact List.forall_mem_cons.mpr ⟨rfl, List.forall_mem_singleton.mpr rfl⟩
    · exact fun h => absurd h.1 (by decide)
  · exact (hactivate [⟨"fourth", 6⟩, ⟨"third", 2⟩] 1 2).1.resolve_left
      fun h => absurd h.1 (by decide)
  · exact (hstaging ["third", "fourth", "third"] 1 2 (by decide)).1.resolve_left
      fun h => absurd h.1 (by decide)
  · obtain ⟨m, hm, -⟩ := releaseReferences_runs (free_of_ledgerOk ledgerOk_fourFiles)
      releasable_fourFiles 0 1
    refine (hreferences ["objects/b", "objects/a", "objects/b"] 0 1 2).1.resolve_left fun h => ?_
    rw [hm] at h
    exact nomatch h.1

end BatchRelease
