import LightOss.AbortLifecycle
import LightOss.StorageReconciliation

/-! # Staging expiry — the sealing loop ends with nothing left to seal

    `sealExpiredStaging` seals in batches until a batch falls short of the limit.
    A full batch takes rows out of staging, so there are only so many; a short one
    took every row its query found (`batch_of_ok`).

    No batch fails (`expireStagingForCleanup_runs`), and the number of rows in staging
    bounds the turns (`sealLoop_runs`), so the loop ends in `ExpiredSealed`: exactly the
    expired rows are sealed, each with a job. -/

namespace StagingExpiry

open KeyedTable Fallible LedgerRows BlobRepository LedgerSpecs LedgerMoves
open StorageAudit StorageReconciliation AbortLifecycle

variable {l l' m : Ledger} {before now : Time} {limit : Int}

/-- The loop of `sealExpiredStaging` for a batch limit, without a lost connection;
    nothing when `fuel` turns do not end it. -/
def sealLoop (limit : Int) (before now : Time) : Nat → Ledger → Option (Except Err Ledger)
  | 0, _ => none
  | fuel + 1, l =>
      match expireStagingForCleanup l before limit now with
      | .error err => some (.error err)
      | .ok (count, l) =>
          if (count : Int) < limit then some (.ok l) else sealLoop limit before now fuel l

/-- `AUTO_INCREMENT` of the cleanup jobs: the next id is above every id given out. -/
def AutoIncrement (l : Ledger) : Prop := ∀ j ∈ l.jobs.rows, j.id < l.nextJobID

theorem AutoIncrement.enqueued {jobs : List StorageCleanupJob} (h : AutoIncrement l)
    (he : Enqueued l jobs l') : AutoIncrement l' := by
  intro j hj
  rcases he.origin j hj with hold | ⟨-, ⟨j₀, hj₀, hid, -⟩ | ⟨-, hlt, -⟩⟩
  · exact Nat.lt_of_lt_of_le (h j hold) he.nextJobID
  · exact hid ▸ Nat.lt_of_lt_of_le (h j₀ hj₀) he.nextJobID
  · exact hlt

/-! ## One batch -/

/-- The selected rows are there once each, so the guarded update counts all of them. -/
theorem count_selected {blobs : List StorageBlob}
    (hblobs : ∀ b ∈ blobs, b ∈ l.blobs.rows ∧ stagingExpired before now b = true)
    (hnd : blobs.Nodup) :
    l.blobs.count (fun b => decide (b.id ∈ blobs.map (·.id)) && stagingExpired before now b)
      = blobs.length := by
  have hids : (blobs.map (·.id)).Nodup := by
    refine List.Nodup.map_on (fun a ha b hb hid => ?_) hnd
    exact l.blobs.eq_of_clash (hblobs a ha).1 (hblobs b hb).1 (StorageBlob.clash_of_id hid)
  have hperm : (l.blobs.select fun b =>
      decide (b.id ∈ blobs.map (·.id)) && stagingExpired before now b).Perm blobs := by
    refine l.blobs.select_perm_found (k := fun b => b.id) ?_ rfl hids ?_
      (fun a b hid => StorageBlob.clash_of_id hid)
    · intro b hb
      obtain ⟨hrow, hexp⟩ := hblobs b hb
      exact ⟨hrow, Bool.and_eq_true_iff.mpr ⟨decide_eq_true (List.mem_map_of_mem hb), hexp⟩⟩
    · intro b hb
      exact of_decide_eq_true (Bool.and_eq_true_iff.mp hb).1
  exact hperm.length_eq

/-- No batch fails: neither the guarded update nor the upsert of its jobs. -/
theorem expireStagingForCleanup_runs (hauto : AutoIncrement l) (before now : Time) (limit : Int) :
    ∃ count m, expireStagingForCleanup l before limit now = .ok (count, m) := by
  rw [expireStagingForCleanup]
  generalize hblobs : (((l.blobs.select (stagingExpired before now)).mergeSort
    createdBefore).take (normalizeStorageBlobBatchSize limit)) = blobs
  have hsub : ∀ b ∈ blobs, b ∈ l.blobs.rows ∧ stagingExpired before now b = true := by
    intro b hb
    rw [← hblobs] at hb
    exact Table.mem_select.mp (List.mem_mergeSort.mp (List.mem_of_mem_take hb))
  -- the rows of the query are distinct, so the update counts all of them
  have hnd : blobs.Nodup := by
    rw [← hblobs]
    refine List.Nodup.sublist (List.take_sublist _ _) ?_
    exact (List.mergeSort_perm _ _).nodup_iff.mpr (l.blobs.rows_nodup.filter _)
  split
  · exact ⟨0, l, rfl⟩
  · rw [expireBlobs]
    -- every job of the batch names a row that the update leaves in place
    have hjobs : ∀ job ∈ blobs.map (fun blob : StorageBlob => ({
          blobID := blob.id, storagePath := blob.storagePath, nextRetryAt := now
          lastError := "staging reservation expired" } : StorageCleanupJob)),
        ∃ b ∈ (l.updateBlobs (fun b => decide (b.id ∈ blobs.map (·.id))
          && stagingExpired before now b) sealed).blobs.rows, b.id = job.blobID := by
      intro job hjob
      obtain ⟨b, hb, rfl⟩ := List.mem_map.mp hjob
      refine ⟨_, List.mem_map_of_mem (hsub b hb).1, ?_⟩
      split <;> rfl
    obtain ⟨m, hm⟩ := enqueueCleanupBatch_runs (normalizeStorageBlobBatchSize limit : Nat)
      (l := l.updateBlobs (fun b => decide (b.id ∈ blobs.map (·.id))
          && stagingExpired before now b) sealed) hauto hjobs
    rw [enqueueCleanupBatch, foldlM_batches (normalizeStorageBlobBatchSize_pos _)] at hm
    refine ⟨blobs.length, m, bind_eq_ok.mpr ⟨(), ensure_eq_ok.mpr (count_selected hsub hnd), ?_⟩⟩
    refine bind_eq_ok.mpr ⟨m, ?_, rfl⟩
    rw [foldlM_batches (normalizeStorageBlobBatchSize_pos _)]
    exact hm

/-! ## The loop -/

/-- Exactly the expired rows are sealed, each with a job; nothing else has changed. -/
structure ExpiredSealed (before now : Time) (l l' : Ledger) : Prop where
  rows : l'.blobs.rows
    = l.blobs.rows.map fun b => if stagingExpired before now b then sealed b else b
  jobs : ∀ b ∈ l.blobs.rows, stagingExpired before now b = true → HasJob l' b.id
  kept : ∀ blobID, HasJob l blobID → HasJob l' blobID
  quota : l'.quota = l.quota

/-- The rows still in staging: a full batch leaves fewer. -/
def stagingCount (l : Ledger) : Nat :=
  (l.blobs.rows.filter fun b => decide (b.status = .staging)).length

/-- What is sealed does not expire again. -/
theorem not_expired_sealed (before now : Time) (b : StorageBlob) :
    stagingExpired before now (sealed b) = false :=
  decide_eq_false fun h => nomatch h.1

/-- What one batch leaves for the next. -/
structure Batch (before now : Time) (limit : Int) (l : Ledger) (count : Nat) (m : Ledger) :
    Prop where
  auto : AutoIncrement m
  full : limit ≤ count → stagingCount m < stagingCount l
  short : (count : Int) < limit → ExpiredSealed before now l m
  rest : ∀ l', ExpiredSealed before now m l' → ExpiredSealed before now l l'

/-- **One batch**: it seals as many rows as it reports, and all of them when it is not full. -/
theorem batch_of_ok (hauto : AutoIncrement l) (hlimit : 0 < limit) {count : Nat}
    (h : expireStagingForCleanup l before limit now = .ok (count, m)) :
    Batch before now limit l count m := by
  obtain ⟨p, jobs, hp, hlen, hall, hs⟩ := expireStagingForCleanup_counts h
  obtain ⟨u, hu, he⟩ := hs.steps
  have hrows : m.blobs.rows = l.blobs.rows.map fun b => if p b then sealed b else b :=
    (congrArg Table.rows he.blobs).trans hu.rows
  have hquota : m.quota = l.quota := he.quota.trans hu.quota
  have hkept : ∀ blobID, HasJob l blobID → HasJob m blobID := by
    intro blobID hjob
    refine (he.hasJob blobID).mpr (Or.inl ?_)
    rw [HasJob, hu.jobs]
    exact hjob
  have hjob : ∀ b ∈ l.blobs.rows, p b = true → HasJob m b.id := fun b hb hpb =>
    (he.hasJob b.id).mpr (Or.inr (hs.covered b hb hpb))
  have hnorm : normalizeStorageBlobBatchSize limit = limit.toNat := if_neg (by omega)
  refine ⟨?_, fun hfull => ?_, fun hshort => ?_, fun l' hl' => ?_⟩
  · have hauto' : AutoIncrement u := by
      intro j hj
      rw [hu.nextJobID]
      exact hauto j (hu.jobs ▸ hj)
    exact hauto'.enqueued he
  · exact sealed_shrinks hs (by omega)
  -- a batch that is not full took all that had expired
  · have hiff : ∀ b ∈ l.blobs.rows, p b = stagingExpired before now b := by
      intro b hb
      rw [Bool.eq_iff_iff]
      exact ⟨hp b, hall (by omega) b hb⟩
    refine ⟨?_, fun b hb hexp => hjob b hb (hiff b hb ▸ hexp), hkept, hquota⟩
    rw [hrows]
    exact List.map_congr_left fun b hb => by rw [hiff b hb]
  -- what this batch sealed and what the later ones seal add up
  · refine ⟨?_, fun b hb hexp => ?_, fun id hid => hl'.kept id (hkept id hid),
      hl'.quota.trans hquota⟩
    · rw [hl'.rows, hrows, List.map_map]
      refine List.map_congr_left fun b _ => ?_
      cases hpb : p b with
      | true =>
          rw [Function.comp, hpb, if_pos rfl,
            if_neg (Bool.eq_false_iff.mp (not_expired_sealed _ _ b)),
            if_pos (hp b hpb)]
      | false => rw [Function.comp, hpb, if_neg Bool.false_ne_true]
    · cases hpb : p b with
      | true => exact hl'.kept b.id (hjob b hb hpb)
      | false =>
          refine hl'.jobs b ?_ hexp
          rw [hrows]
          exact List.mem_map.mpr ⟨b, hb, if_neg (Bool.eq_false_iff.mp hpb)⟩

/-- The loop ends within as many turns as there are rows in staging, and one more. -/
theorem sealLoop_runs (hlimit : 0 < limit) (before now : Time) :
    ∀ (fuel : Nat) (l : Ledger), AutoIncrement l → stagingCount l < fuel →
      ∃ l', sealLoop limit before now fuel l = some (.ok l') ∧ ExpiredSealed before now l l' := by
  intro fuel
  induction fuel with
  | zero => exact fun l _ h => absurd h (Nat.not_lt_zero _)
  | succ fuel ih =>
      intro l hauto hfuel
      obtain ⟨count, m, hrun⟩ := expireStagingForCleanup_runs hauto before now limit
      have hbatch := batch_of_ok hauto hlimit hrun
      rw [sealLoop, hrun]
      dsimp only
      split
      · next hshort => exact ⟨m, rfl, hbatch.short hshort⟩
      · next hfull =>
          have hless := hbatch.full (Int.not_lt.mp hfull)
          obtain ⟨l', hl', hsealed⟩ := ih m hbatch.auto (by omega)
          exact ⟨l', hl', hbatch.rest l' hsealed⟩

/-- A loop that has ended does not look at the turns it was not given. -/
theorem sealLoop_more (before now : Time) {r : Except Err Ledger} :
    ∀ (fuel more : Nat) (l : Ledger), sealLoop limit before now fuel l = some r →
      sealLoop limit before now (fuel + more) l = some r := by
  intro fuel more
  induction fuel with
  | zero => exact fun l h => nomatch h
  | succ fuel ih =>
      intro l h
      rw [Nat.succ_add, sealLoop]
      rw [sealLoop] at h
      cases hrun : expireStagingForCleanup l before limit now with
      | error err =>
          rw [hrun] at h
          exact h
      | ok batch =>
          obtain ⟨count, m⟩ := batch
          rw [hrun] at h
          dsimp only at h ⊢
          split at h
          · next hshort => rwa [if_pos hshort]
          · next hfull =>
              rw [if_neg hfull]
              exact ih m h

/-- The loop of the service is this one, when every answer arrives. -/
theorem sealFrom_eq {k : Catalog.Collation} {reply : Nat → Reply}
    (hreply : ∀ i, reply i = .answered)
    (before now : Time) : ∀ (fuel i : Nat) (db : Database k) {l' : Ledger},
      sealLoop defaultCleanupBatchSize before now fuel db.ledger = some (.ok l') →
        sealFrom reply before now fuel i db = (.ok (), { db with ledger := l' }) := by
  intro fuel
  induction fuel with
  | zero =>
      intro i db l' h
      cases h
  | succ fuel ih =>
      intro i db l' h
      rw [sealLoop] at h
      rw [sealFrom, hreply, expireOnce]
      cases hrun : expireStagingForCleanup db.ledger before defaultCleanupBatchSize now with
      | error err =>
          rw [hrun] at h
          cases h
      | ok r =>
          obtain ⟨count, m⟩ := r
          rw [hrun] at h
          dsimp only at h
          show (if count < defaultCleanupBatchSize then _ else _) = _
          split at h
          · next hshort =>
              cases h
              exact if_pos (Int.ofNat_lt.mp hshort)
          · next hfull =>
              rw [if_neg fun hlt => hfull (Int.ofNat_lt.mpr hlt)]
              exact ih (i + 1) _ h

/-! ## The claimed rows -/

/-- What is promised of every row when the loop has ended. -/
structure NothingExpired (before now : Time) (l l' : Ledger) : Prop where
  none_left : ∀ b ∈ l'.blobs.rows, stagingExpired before now b = false
  expired : ∀ b ∈ l.blobs.rows, stagingExpired before now b = true →
    sealed b ∈ l'.blobs.rows ∧ HasJob l' b.id
  untouched : ∀ b ∈ l.blobs.rows, stagingExpired before now b = false → b ∈ l'.blobs.rows
  count : l'.blobs.rows.length = l.blobs.rows.length
  usedBytes : l'.quota.usedBytes = l.quota.usedBytes
  reservedBytes : l'.quota.reservedBytes = l.quota.reservedBytes

/-- What is promised at the end follows from what was sealed. -/
theorem nothingExpired (h : ExpiredSealed before now l l') : NothingExpired before now l l' where
  none_left b hb := by
    rw [h.rows] at hb
    obtain ⟨a, -, rfl⟩ := List.mem_map.mp hb
    split
    · exact not_expired_sealed before now a
    · next hlive => exact Bool.not_eq_true _ ▸ hlive
  expired b hb hexp := by
    refine ⟨?_, h.jobs b hb hexp⟩
    rw [h.rows]
    exact List.mem_map.mpr ⟨b, hb, if_pos hexp⟩
  untouched b hb hlive := by
    rw [h.rows]
    exact List.mem_map.mpr ⟨b, hb, if_neg (Bool.eq_false_iff.mp hlive)⟩
  count := by rw [h.rows, List.length_map]
  usedBytes := congrArg SystemStorageQuota.usedBytes h.quota
  reservedBytes := congrArg SystemStorageQuota.reservedBytes h.quota

/-- **Sealing expired staging** ends and is complete, for every batch limit; the loop
    of the service, whose limit is a constant, returns without an error in that state. -/
theorem sealing_terminates_complete (hauto : AutoIncrement l) (stagingTTL : Duration) (now : Time) :
    (∀ limit : Int, 0 < limit → ∃ l',
      (∀ fuel, stagingCount l < fuel →
        sealLoop limit (now - stagingTTL) now fuel l = some (.ok l'))
        ∧ NothingExpired (now - stagingTTL) now l l')
    ∧ ∀ (k : Catalog.Collation) (db : Database k) (r : Reconciliation), db.ledger = l →
      r.stagingTTL = stagingTTL → (∀ i, r.expireStagingForCleanup i = .answered) →
        ∃ l', sealExpiredStaging r now db = (.ok (), { db with ledger := l' })
          ∧ NothingExpired (now - stagingTTL) now l l' := by
  constructor
  · intro limit hlimit
    obtain ⟨l', hl', hsealed⟩ :=
      sealLoop_runs hlimit (now - stagingTTL) now (stagingCount l + 1) l hauto (Nat.lt_succ_self _)
    refine ⟨l', fun fuel hfuel => ?_, nothingExpired hsealed⟩
    obtain ⟨more, rfl⟩ := Nat.exists_eq_add_of_le (Nat.succ_le_of_lt hfuel)
    exact sealLoop_more _ _ _ more l hl'
  · rintro k db r rfl rfl hreply
    -- the service gives its loop a turn for every row, and one more
    have hfuel : stagingCount db.ledger < db.ledger.blobs.rows.length + 1 :=
      Nat.lt_succ_of_le (List.length_filter_le _ _)
    have hlimit : (0 : Int) < (defaultCleanupBatchSize : Nat) := by decide
    obtain ⟨l', hl', hsealed⟩ :=
      sealLoop_runs hlimit (now - r.stagingTTL) now _ db.ledger hauto hfuel
    exact ⟨l', sealFrom_eq hreply _ now _ 0 db hl', nothingExpired hsealed⟩

/-- An expired row that has a job already, and one with a live lease. -/
def overdue : Ledger :=
  { Ledger.migrated with
    blobs := ⟨[{ id := "a", storagePath := "a", stagingPath := some "a", size := 1
                 status := .staging, createdAt := 10 },
               { id := "b", storagePath := "b", stagingPath := some "b", size := 1
                 status := .staging, createdAt := 10, stagingLeaseExpiresAt := some 101 }],
              by decide⟩
    jobs := ⟨[{ id := 1, blobID := "a", storagePath := "a", nextRetryAt := 20
                lastError := "" }], by decide⟩
    nextJobID := 2 }

/-- One overdue row, and a batch size of one. -/
theorem sealing_terminates_complete_overdue :
    ∃ l', (∀ fuel, stagingCount overdue < fuel →
        sealLoop 1 (100 - 60) 100 fuel overdue = some (.ok l'))
      ∧ NothingExpired (100 - 60) 100 overdue l' :=
  (sealing_terminates_complete (l := overdue)
    (List.forall_mem_singleton.mpr (by decide)) 60 100).1 1 (by decide)

end StagingExpiry
