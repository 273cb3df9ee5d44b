import Mathlib.Data.List.Perm.Basic
import LightOss.StagingExpiry

/-! # Batch ledger calls — one statement for many rows

    `createStagingBatch`, `ActivateStagingBatch`, `ReleaseStagingBatch` and
    `ReleaseReferences` sum the bytes of a slice and update its rows in pieces of
    the batch size.  Each is compared with the loop that makes the single call for
    every element.  The comparison never looks at the batch size: a call succeeds
    exactly on the ledgers where its size-free condition holds, and the condition
    fixes the new ledger.

    Here creation (`Creatable`, `stageBlobs_runs`) and activation (`activateEach_runs`):
    in each the first single call leaves a ledger on which the condition for the rest
    holds, which is the step of the induction. -/

namespace BatchLedger

open KeyedTable Fallible LedgerRows BlobRepository LedgerSpecs LedgerMoves LedgerInvariant
open StagingExpiry

variable {l l' m m' : Ledger}

/-- The batch call fails and the ledger is as it was, or both calls end in one ledger. -/
def Agrees (l : Ledger) (batch single : Except Err Ledger) : Prop :=
  (batch.isOk = false ∧ commitOr l batch = l) ∨ ∃ l', batch = .ok l' ∧ single = .ok l'

/-- It is enough to look at the successes of the batch. -/
theorem agrees_of {batch single : Except Err Ledger}
    (h : ∀ l', batch = .ok l' → single = .ok l') : Agrees l batch single := by
  cases hb : batch with
  | error err => exact Or.inl ⟨rfl, rfl⟩
  | ok l' => exact Or.inr ⟨l', rfl, h l' hb⟩

/-- Two calls that succeed with the same ledgers have one result. -/
theorem toOption_eq {x y : Except Err Ledger} (hxy : ∀ l', x = .ok l' → y = .ok l')
    (hyx : ∀ l', y = .ok l' → x = .ok l') : x.toOption = y.toOption := by
  cases hx : x with
  | ok l' => rw [hxy l' hx]
  | error err =>
      cases hy : y with
      | ok l' =>
          rw [hyx l' hy] at hx
          exact nomatch hx
      | error err' => rfl

/-! ## A ledger is its rows -/

theorem eq_of_rows (hquota : l.quota = l'.quota) (hblobs : l.blobs.rows = l'.blobs.rows)
    (hjobs : l.jobs.rows = l'.jobs.rows) (hnext : l.nextJobID = l'.nextJobID) : l = l' := by
  cases l
  cases l'
  cases hquota
  cases hnext
  cases Table.ext_rows hblobs
  cases Table.ext_rows hjobs
  rfl

/-- A map over the rows fixes the new ledger. -/
theorem rewrites_unique {g : StorageBlob → StorageBlob} (h : Rewrites l g m)
    (h' : Rewrites l g m') : m = m' :=
  eq_of_rows (h.quota.trans h'.quota.symm) (h.rows.trans h'.rows.symm)
    (by rw [h.jobs, h'.jobs]) (h.nextJobID.trans h'.nextJobID.symm)

/-! ## Rows named by a list of keys -/

/-- Rows found for distinct keys are as many as the keys. -/
theorem length_of_keys {k : StorageBlob → String} (hk : ∀ a b, k a = k b → a.clash b = true)
    {found : List StorageBlob} (hrows : ∀ b ∈ found, b ∈ l.blobs.rows) (hfound : found.Nodup)
    {keys : List String} (hkeys : keys.Nodup) (hin : ∀ b ∈ found, k b ∈ keys)
    (hall : ∀ key ∈ keys, ∃ b ∈ found, k b = key) : found.length = keys.length := by
  have hnd : (found.map k).Nodup := by
    refine List.Nodup.map_on (fun a ha b hb hkey => ?_) hfound
    exact l.blobs.eq_of_clash (hrows a ha) (hrows b hb) (hk a b hkey)
  have hperm : (found.map k).Perm keys := by
    refine (List.perm_ext_iff_of_nodup hnd hkeys).mpr fun key => ?_
    rw [List.mem_map]
    refine ⟨?_, hall key⟩
    rintro ⟨b, hb, rfl⟩
    exact hin b hb
  rw [← List.length_map (f := k), hperm.length_eq]

/-- A statement over an `IN` list affects one row for each id, when every id has one. -/
theorem count_ids {p : StorageBlob → Bool} {ids : List String} (hids : ids.Nodup)
    (hin : ∀ b, p b = true → b.id ∈ ids)
    (hall : ∀ id ∈ ids, ∃ b ∈ l.blobs.rows, b.id = id ∧ p b = true) :
    l.blobs.count p = ids.length := by
  refine length_of_keys (k := fun b => b.id) (fun a b hid => StorageBlob.clash_of_id hid)
    (fun b hb => (Table.mem_select.mp hb).1) (l.blobs.rows_nodup.filter _) hids ?_ ?_
  · exact fun b hb => hin b (Table.mem_select.mp hb).2
  · intro id hid
    obtain ⟨b, hb, hbid, hp⟩ := hall id hid
    exact ⟨b, Table.mem_select.mpr ⟨hb, hp⟩, hbid⟩

/-! ## Creation -/

/-- The row as it stands once its lease is set. -/
def leased (lease : Duration) (now : Time) (b : StorageBlob) : StorageBlob :=
  if lease ≤ 0 then b else { b with stagingLeaseExpiresAt := some (now + lease) }

/-- The row before its bytes are reserved. -/
def emptied (b : StorageBlob) : StorageBlob := { b with size := 0 }

/-- `CreateStagingWithLease` of size 0, then `Reserve`; without a lease, `CreateStaging`. -/
def stageBlob (lease : Duration) (now : Time) (l : Ledger) (blob : StorageBlob) :
    Except Err Ledger := do
  let l ← (if lease ≤ 0 then createStaging l (emptied blob)
    else createStagingWithLease l (emptied blob) lease now)
  reserve l blob.id blob.size

/-- When staging rows can be created. -/
structure Creatable (l : Ledger) (blobs : List StorageBlob) (lease : Duration) : Prop where
  fits : 0 < (blobs.map (·.size)).sum →
    l.quota.usedBytes + l.quota.reservedBytes + (blobs.map (·.size)).sum ≤ l.quota.maxBytes
      ∧ l.quota.reservedBytes + (blobs.map (·.size)).sum ≤ maxUint64
  unique : (l.blobs.rows ++ blobs).Pairwise fun a b => a.clash b = false
  ids : 0 < lease → ∀ b ∈ blobs, b.id ≠ ""

/-- The ledger with the rows `blobs` and their reservation. -/
structure Created (l : Ledger) (blobs : List StorageBlob) (lease : Duration) (now : Time)
    (l' : Ledger) : Prop where
  quota : l'.quota = (withQuota l l.quota.usedBytes
    (l.quota.reservedBytes + (blobs.map (·.size)).sum)).quota
  jobs : l'.jobs = l.jobs
  nextJobID : l'.nextJobID = l.nextJobID
  rows : l'.blobs.rows = l.blobs.rows ++ blobs.map (leased lease now)

/-- The rows of a call determine the new ledger. -/
theorem created_unique {blobs : List StorageBlob} {lease : Duration} {now : Time}
    (h : Created l blobs lease now m) (h' : Created l blobs lease now m') : m = m' :=
  eq_of_rows (h.quota.trans h'.quota.symm) (h.rows.trans h'.rows.symm)
    (by rw [h.jobs, h'.jobs]) (h.nextJobID.trans h'.nextJobID.symm)

/-- Renewing the new rows of a table leaves the old ones alone. -/
theorem renewed_rows {rows blobs : List StorageBlob}
    (hunique : (rows ++ blobs).Pairwise fun a b => a.clash b = false)
    (hstaging : ∀ b ∈ blobs, b.status = .staging) {lease : Duration} (hlease : ¬ lease ≤ 0)
    (now : Time) :
    (rows ++ blobs).map (renewed (blobs.map (·.id)) (now + lease))
      = rows ++ blobs.map (leased lease now) := by
  obtain ⟨-, -, hfree⟩ := List.pairwise_append.mp hunique
  rw [List.map_append]
  congr 1
  · refine (List.map_congr_left fun b hb => ?_).trans (List.map_id _)
    refine if_neg ?_
    rintro ⟨hid, -⟩
    obtain ⟨c, hc, hcid⟩ := List.mem_map.mp hid
    have hclash := hfree b hb c hc
    rw [StorageBlob.clash_of_id hcid.symm] at hclash
    exact nomatch hclash
  · refine List.map_congr_left fun b hb => ?_
    rw [renewed, if_pos ⟨List.mem_map_of_mem hb, hstaging b hb⟩, leased, if_neg hlease]

/-- The ids of rows that fit in one table are distinct. -/
theorem nodup_ids_of_unique {rows blobs : List StorageBlob}
    (hunique : (rows ++ blobs).Pairwise fun a b => a.clash b = false) :
    (blobs.map (·.id)).Nodup := by
  obtain ⟨-, hblobs, -⟩ := List.pairwise_append.mp hunique
  refine List.pairwise_map.mpr (hblobs.imp fun {a b} hfree hid => ?_)
  rw [StorageBlob.clash_of_id hid] at hfree
  exact nomatch hfree

theorem leaseIDs_nonempty : ∀ (xs seen ids : List String), leaseIDs seen xs = .ok ids →
    ∀ x ∈ xs, x ≠ "" := by
  intro xs
  induction xs with
  | nil => exact fun _ _ _ => List.forall_mem_nil _
  | cons a rest ih =>
      intro seen ids h x hx
      rw [leaseIDs] at h
      split at h
      · cases h
      next hne =>
      have hrest : ∀ y ∈ rest, y ≠ "" := by
        split at h
        · exact ih seen ids h
        · obtain ⟨ids', hids', -⟩ := bind_eq_ok.mp h
          exact ih (a :: seen) ids' hids'
      rcases List.mem_cons.mp hx with rfl | hx
      · exact hne
      · exact hrest x hx

/-- Distinct ids pass the loop as they are. -/
theorem leaseIDs_nodup : ∀ (xs seen : List String), xs.Nodup → (∀ x ∈ xs, x ≠ "" ∧ x ∉ seen) →
    leaseIDs seen xs = .ok xs := by
  intro xs
  induction xs with
  | nil => exact fun _ _ _ => rfl
  | cons a rest ih =>
      intro seen hnd hxs
      obtain ⟨hne, hfresh⟩ := hxs a List.mem_cons_self
      obtain ⟨ha, hrest⟩ := List.nodup_cons.mp hnd
      have htail : leaseIDs (a :: seen) rest = .ok rest := by
        refine ih (a :: seen) hrest fun x hx => ?_
        obtain ⟨hxne, hxseen⟩ := hxs x (List.mem_cons_of_mem _ hx)
        refine ⟨hxne, fun hmem => ?_⟩
        rcases List.mem_cons.mp hmem with rfl | hmem
        · exact ha hx
        · exact hxseen hmem
      rw [leaseIDs, if_neg hne, if_neg hfresh, htail]
      rfl

/-- A renewal whose ids all name staging rows affects as many rows as it names. -/
theorem renewLeaseBatches_runs (expiresAt : Time) : ∀ (bs : List (List String)) (l : Ledger),
    bs.flatten.Nodup →
    (∀ id ∈ bs.flatten, ∃ b ∈ l.blobs.rows, b.id = id ∧ b.status = .staging) →
    (renewLeaseBatches expiresAt l bs).2 = .ok () := by
  intro bs
  induction bs with
  | nil => exact fun _ _ _ => rfl
  | cons batch rest ih =>
      intro l hnd hall
      rw [List.flatten_cons] at hnd hall
      obtain ⟨hbatch, hrest, -⟩ := List.nodup_append.mp hnd
      have hcount : l.blobs.count (fun b => decide (b.id ∈ batch ∧ b.status = .staging))
          = batch.length := by
        refine count_ids hbatch (fun b hb => (of_decide_eq_true hb).1) fun id hid => ?_
        obtain ⟨b, hb, hbid, hstaging⟩ := hall id (List.mem_append_left _ hid)
        exact ⟨b, hb, hbid, decide_eq_true ⟨hbid ▸ hid, hstaging⟩⟩
      rw [renewLeaseBatches, if_pos hcount]
      refine ih _ hrest fun id hid => ?_
      obtain ⟨b, hb, hbid, hstaging⟩ := hall id (List.mem_append_right _ hid)
      refine ⟨_, List.mem_map_of_mem hb, ?_⟩
      split
      · exact ⟨hbid, hstaging⟩
      · exact ⟨hbid, hstaging⟩

/-- A renewal succeeds when every row is there and staging. -/
theorem renewStagingLeaseTx_runs {ids : List String} {lease : Duration} (hlease : ¬ lease ≤ 0)
    (hnd : ids.Nodup) (hne : ∀ id ∈ ids, id ≠ "")
    (hall : ∀ id ∈ ids, ∃ b ∈ l.blobs.rows, b.id = id ∧ b.status = .staging) (batchSize : Int)
    (now : Time) : ∃ l', renewStagingLeaseTx l ids lease batchSize now = .ok l' := by
  have hids : leaseIDs [] ids = .ok ids :=
    leaseIDs_nodup ids [] hnd fun id hid => ⟨hne id hid, List.not_mem_nil⟩
  have hflat := flatten_batches (normalizeStorageBlobBatchSize_pos batchSize) ids
  have hrun : (renewStagingLease l ids lease batchSize now).2 = .ok () := by
    rw [renewStagingLease]
    split
    · rfl
    · rw [hids]
      exact renewLeaseBatches_runs _ _ _ (hflat.symm ▸ hnd) (hflat.symm ▸ hall)
  refine ⟨(renewStagingLease l ids lease batchSize now).1, ?_⟩
  rw [renewStagingLeaseTx]
  generalize renewStagingLease l ids lease batchSize now = result at hrun
  obtain ⟨l', outcome⟩ := result
  cases hrun
  rfl

/-- Rows that fit are inserted one after the other. -/
theorem createBlobs_runs : ∀ (blobs : List StorageBlob) (l : Ledger),
    (l.blobs.rows ++ blobs).Pairwise (fun a b => a.clash b = false) →
    ∃ l', blobs.foldlM Ledger.createBlob l = .ok l' := by
  intro blobs
  induction blobs with
  | nil => exact fun l _ => ⟨l, rfl⟩
  | cons blob rest ih =>
      intro l hunique
      have hfits : ∀ a ∈ l.blobs.rows, a.clash blob = false := fun a ha =>
        (List.pairwise_append.mp hunique).2.2 a ha blob List.mem_cons_self
      have hcreate : ∃ m, l.createBlob blob = .ok m := by
        rw [Ledger.createBlob, Table.insert?, dif_pos hfits]
        exact ⟨_, rfl⟩
      obtain ⟨m, hm⟩ := hcreate
      obtain ⟨-, -, -, hrows⟩ := createBlob_ok hm
      obtain ⟨l', hl'⟩ := ih m (by rw [hrows, List.append_assoc]; exact hunique)
      exact ⟨l', bind_eq_ok.mpr ⟨m, hm, hl'⟩⟩

/-- The loop succeeds when the sum fits. -/
theorem totalReserved_runs : ∀ (blobs : List StorageBlob) (total : Nat),
    total + (blobs.map (·.size)).sum ≤ maxUint64 →
    totalReserved total blobs = .ok (total + (blobs.map (·.size)).sum) := by
  intro blobs
  induction blobs with
  | nil => exact fun _ _ => rfl
  | cons blob rest ih =>
      intro total h
      rw [List.map_cons, List.sum_cons] at h
      rw [totalReserved, if_neg (by omega), ih _ (by omega), List.map_cons, List.sum_cons,
        Nat.add_assoc]

/-- A reservation within limit and column succeeds. -/
theorem reserveQuota_runs {bytes : Nat}
    (hfits : l.quota.usedBytes + l.quota.reservedBytes + bytes ≤ l.quota.maxBytes)
    (hrange : l.quota.reservedBytes + bytes ≤ maxUint64) :
    reserveQuota l bytes
      = .ok (withQuota l l.quota.usedBytes (l.quota.reservedBytes + bytes)) := by
  rw [reserveQuota, if_pos ⟨by omega, by omega, by omega⟩]
  exact bind_eq_ok.mpr ⟨_, u64Add_eq_ok.mpr ⟨hrange, rfl⟩, rfl⟩

/-- `createStagingBatch` succeeds when the rows can be created. -/
theorem createStagingBatch_runs {blobs : List StorageBlob} {lease : Duration}
    (hstaging : ∀ b ∈ blobs, b.status = .staging) (h : Creatable l blobs lease) (batchSize : Int)
    (now : Time) : ∃ l', createStagingBatch l blobs batchSize lease now = .ok l' := by
  rw [createStagingBatch]
  split
  · exact ⟨l, rfl⟩
  -- the sum is in range: it is zero or it fits the quota
  have hrange : 0 + (blobs.map (·.size)).sum ≤ maxUint64 := by
    rcases Nat.eq_zero_or_pos (blobs.map (·.size)).sum with hzero | hpos
    · rw [hzero]
      exact Nat.zero_le _
    · have := (h.fits hpos).2
      omega
  have hreserved : ∃ m, (if 0 < 0 + (blobs.map (·.size)).sum then
      reserveQuota l (0 + (blobs.map (·.size)).sum) else .ok l) = .ok m
        ∧ m.blobs.rows = l.blobs.rows := by
    rw [Nat.zero_add]
    split
    · next hpos => exact ⟨_, reserveQuota_runs (h.fits hpos).1 (h.fits hpos).2, rfl⟩
    · exact ⟨l, rfl, rfl⟩
  -- then the rows are inserted and their leases set
  obtain ⟨m, hm, hmrows⟩ := hreserved
  obtain ⟨k, hk⟩ := createBlobs_runs blobs m (hmrows ▸ h.unique)
  have hn := normalizeStorageBlobBatchSize_pos batchSize
  have hcreate : createBlobsInBatches m blobs (normalizeStorageBlobBatchSize batchSize) = .ok k :=
    (foldlM_batches hn blobs m).trans hk
  obtain ⟨-, -, -, hrows⟩ := createBlobsInBatches_ok hn hcreate
  have hrenew : ∃ l', (if lease ≤ 0 then .ok k
      else renewStagingLeaseTx k (blobs.map (·.id)) lease
        (normalizeStorageBlobBatchSize batchSize : Nat)
        now) = .ok l' := by
    split
    · exact ⟨k, rfl⟩
    · next hlease =>
        refine renewStagingLeaseTx_runs hlease (nodup_ids_of_unique h.unique) ?_ ?_ _ now
        · intro id hid
          obtain ⟨b, hb, rfl⟩ := List.mem_map.mp hid
          exact h.ids (Int.not_le.mp hlease) b hb
        · intro id hid
          obtain ⟨b, hb, rfl⟩ := List.mem_map.mp hid
          exact ⟨b, hrows ▸ List.mem_append_right _ hb, rfl, hstaging b hb⟩
  obtain ⟨l', hl'⟩ := hrenew
  exact ⟨l', bind_eq_ok.mpr ⟨_, totalReserved_runs blobs 0 hrange, bind_eq_ok.mpr ⟨m, hm,
    bind_eq_ok.mpr ⟨k, hcreate, hl'⟩⟩⟩⟩

/-- What a successful `createStagingBatch` tested and did. -/
theorem createStagingBatch_ok {blobs : List StorageBlob} {lease : Duration}
    (hstaging : ∀ b ∈ blobs, b.status = .staging) {batchSize : Int} {now : Time}
    (h : createStagingBatch l blobs batchSize lease now = .ok l') :
    Creatable l blobs lease ∧ Created l blobs lease now l' := by
  rw [createStagingBatch] at h
  split at h
  · next hnil =>
      cases h
      subst hnil
      refine ⟨⟨fun h => absurd h (Nat.lt_irrefl 0), ?_, fun _ _ hb => absurd hb List.not_mem_nil⟩,
        rfl, rfl, rfl, ?_⟩
      · rw [List.append_nil]
        exact l.blobs.unique
      · exact (List.append_nil _).symm
  obtain ⟨total, htotal, h₁⟩ := bind_eq_ok.mp h
  obtain ⟨m, hm, h₂⟩ := bind_eq_ok.mp h₁
  obtain ⟨k, hk, hlast⟩ := bind_eq_ok.mp h₂
  have htotal := totalReserved_ok _ _ _ htotal
  rw [Nat.zero_add] at htotal
  subst htotal
  have hm' : m = withQuota l l.quota.usedBytes
        (l.quota.reservedBytes + (blobs.map (·.size)).sum)
      ∧ (0 < (blobs.map (·.size)).sum →
        l.quota.usedBytes + l.quota.reservedBytes + (blobs.map (·.size)).sum ≤ l.quota.maxBytes
          ∧ l.quota.reservedBytes + (blobs.map (·.size)).sum ≤ maxUint64) := by
    split at hm
    · obtain ⟨hmax, hrange, hm⟩ := reserveQuota_ok hm
      exact ⟨hm, fun _ => ⟨hmax, hrange⟩⟩
    · next hpos =>
        cases hm
        refine ⟨?_, fun h => absurd h hpos⟩
        rw [Nat.eq_zero_of_not_pos hpos]
        rfl
  -- the bytes are reserved; what is left are the rows and their leases
  obtain ⟨rfl, hfits⟩ := hm'
  obtain ⟨hquota, hjobs, hnext, hrows⟩ :=
    createBlobsInBatches_ok (normalizeStorageBlobBatchSize_pos _) hk
  have hunique : (l.blobs.rows ++ blobs).Pairwise fun a b => a.clash b = false :=
    hrows ▸ k.blobs.unique
  split at hlast
  · next hlease =>
      cases hlast
      refine ⟨⟨hfits, hunique, fun hpos => absurd hlease (Int.not_le.mpr hpos)⟩, hquota, hjobs,
        hnext, ?_⟩
      have hid : blobs.map (leased lease now) = blobs :=
        (List.map_congr_left fun b _ => if_pos hlease).trans (List.map_id _)
      rw [hid]
      exact hrows
  · next hlease =>
      have hr := renewStagingLeaseTx_ok hlast
      have hids : ∀ id ∈ blobs.map (·.id), id ≠ "" := by
        rw [renewStagingLeaseTx, renewStagingLease] at hlast
        intro id hid
        rw [if_neg (List.ne_nil_of_mem hid), if_neg hlease] at hlast
        cases hlist : leaseIDs [] (blobs.map (·.id)) with
        | error err =>
            rw [hlist] at hlast
            cases hlast
        | ok ids => exact leaseIDs_nonempty _ _ _ hlist id hid
      refine ⟨⟨hfits, hunique, fun _ b hb => hids _ (List.mem_map_of_mem hb)⟩,
        hr.quota.trans hquota, hr.jobs.trans hjobs, hr.nextJobID.trans hnext, ?_⟩
      rw [hr.rows, hrows]
      exact renewed_rows hunique hstaging hlease now

/-- `Reserve` on a staging row within the quota. -/
theorem reserve_runs {b : StorageBlob} (hb : b ∈ l.blobs.rows) (hstaging : b.status = .staging)
    {bytes : Nat} (hpos : 0 < bytes) (hsize : b.size + bytes ≤ maxUint64)
    (hfits : l.quota.usedBytes + l.quota.reservedBytes + bytes ≤ l.quota.maxBytes)
    (hrange : l.quota.reservedBytes + bytes ≤ maxUint64) :
    ∃ l', reserve l b.id bytes = .ok l'
      ∧ Rewrites (withQuota l l.quota.usedBytes (l.quota.reservedBytes + bytes))
          (grown b.id bytes) l' := by
  have hfirst : l.blobs.first? (fun c => decide (c.id = b.id ∧ c.status = .staging)) = some b :=
    l.blobs.first?_of_mem hb (decide_eq_true ⟨rfl, hstaging⟩)
      fun a ha => StorageBlob.clash_of_id (of_decide_eq_true ha).1
  rw [reserve, if_neg (Nat.ne_of_gt hpos)]
  refine ⟨_, bind_eq_ok.mpr ⟨b, orElseThrow_eq_ok.mpr hfirst, bind_eq_ok.mpr
    ⟨_, reserveQuota_runs hfits hrange, bind_eq_ok.mpr ⟨_, u64Add_eq_ok.mpr ⟨hsize, rfl⟩, rfl⟩⟩⟩,
      ?_⟩
  refine (rewrites_updateBlobs _ _ _ _).congr fun c hc => ?_
  simp only [grown, decide_eq_true_eq]
  by_cases hmatch : c.id = b.id ∧ c.status = .staging
  · rw [l.blobs.eq_of_clash hc hb (StorageBlob.clash_of_id hmatch.1)]
  · rw [if_neg hmatch, if_neg hmatch]

/-- The row is inserted, with its lease, before a byte is reserved. -/
theorem createEmptied_runs {blob : StorageBlob} {lease : Duration}
    (hstaging : blob.status = .staging) (h : Creatable l [blob] lease) (now : Time) :
    ∃ k, (if lease ≤ 0 then createStaging l (emptied blob)
        else createStagingWithLease l (emptied blob) lease now) = .ok k
      ∧ k.quota = l.quota ∧ k.jobs = l.jobs ∧ k.nextJobID = l.nextJobID
      ∧ k.blobs.rows = l.blobs.rows ++ [leased lease now (emptied blob)] := by
  have hempty :
      (l.blobs.rows ++ [emptied blob]).Pairwise fun a b => StorageBlob.clash a b = false := by
    obtain ⟨hrows, -, hfree⟩ := List.pairwise_append.mp h.unique
    refine List.pairwise_append.mpr ⟨hrows, List.pairwise_singleton _ _, fun a ha b hb => ?_⟩
    rw [List.mem_singleton.mp hb]
    exact hfree a ha blob List.mem_cons_self
  obtain ⟨k, hk⟩ := createBlobs_runs [emptied blob] l hempty
  rw [List.foldlM_cons] at hk
  obtain ⟨k', hcreate, hk⟩ := bind_eq_ok.mp hk
  obtain rfl := pure_eq_ok.mp hk
  obtain ⟨hquota, hjobs, hnext, hrows⟩ := createBlob_ok hcreate
  split
  · next hlease =>
      refine ⟨k', hcreate, hquota, hjobs, hnext, ?_⟩
      rw [leased, if_pos hlease]
      exact hrows
  · next hlease =>
      have hnew : emptied blob ∈ k'.blobs.rows := hrows ▸ List.mem_append_right _ List.mem_cons_self
      obtain ⟨k, hk⟩ := renewStagingLeaseTx_runs hlease (List.nodup_singleton blob.id)
        (List.forall_mem_singleton.mpr (h.ids (Int.not_le.mp hlease) blob List.mem_cons_self))
        (List.forall_mem_singleton.mpr ⟨emptied blob, hnew, rfl, hstaging⟩) 1 now
      have hr := renewStagingLeaseTx_ok hk
      refine ⟨k, bind_eq_ok.mpr ⟨k', hcreate, hk⟩, hr.quota.trans hquota, hr.jobs.trans hjobs,
        hr.nextJobID.trans hnext, ?_⟩
      rw [hr.rows, hrows]
      exact renewed_rows hempty (List.forall_mem_singleton.mpr hstaging) hlease now

/-- A lease changes neither id nor state nor size. -/
theorem leased_id (lease : Duration) (now : Time) (b : StorageBlob) :
    (leased lease now b).id = b.id ∧ (leased lease now b).status = b.status
      ∧ (leased lease now b).size = b.size := by
  rw [leased]
  split <;> exact ⟨rfl, rfl, rfl⟩

/-- Reserving the bytes afterwards gives the row that the batch inserts. -/
theorem leased_grown (lease : Duration) (now : Time) {b : StorageBlob} (h : b.status = .staging) :
    grown b.id b.size (leased lease now (emptied b)) = leased lease now b := by
  obtain ⟨hid, hstatus, -⟩ := leased_id lease now (emptied b)
  rw [grown, if_pos ⟨hid, hstatus.trans h⟩, leased, leased]
  split <;> simp [emptied]

/-- One element: the row is created empty and grows to its size. -/
theorem stageBlob_runs {blob : StorageBlob} {lease : Duration} (hstaging : blob.status = .staging)
    (h : Creatable l [blob] lease) (now : Time) :
    ∃ m, stageBlob lease now l blob = .ok m ∧ Created l [blob] lease now m := by
  obtain ⟨k, hk, hquota, hjobs, hnext, hrows⟩ := createEmptied_runs hstaging h now
  obtain ⟨hid, hstatus, hsize⟩ := leased_id lease now (emptied blob)
  have hnew : leased lease now (emptied blob) ∈ k.blobs.rows :=
    hrows ▸ List.mem_append_right _ List.mem_cons_self
  have hfits := h.fits
  rw [List.map_singleton, List.sum_singleton] at hfits
  rcases Nat.eq_zero_or_pos blob.size with hzero | hpos
  · -- nothing to reserve: the emptied row is the row
    have hsame : emptied blob = blob := by
      rw [emptied, ← hzero]
    have hnone : reserve k blob.id blob.size = .ok k := by
      rw [reserve, if_pos hzero]
    refine ⟨k, bind_eq_ok.mpr ⟨k, hk, hnone⟩, ?_, hjobs, hnext, hsame ▸ hrows⟩
    rw [hquota, List.map_singleton, List.sum_singleton, hzero]
    rfl
  · obtain ⟨hmax, hrange⟩ := hfits hpos
    have hbound : (leased lease now (emptied blob)).size + blob.size ≤ maxUint64 := by
      rw [hsize]
      show 0 + blob.size ≤ maxUint64
      omega
    obtain ⟨m, hm, hr⟩ := reserve_runs hnew (hstatus.trans hstaging) hpos hbound (hquota ▸ hmax)
      (hquota ▸ hrange)
    rw [hid] at hm hr
    refine ⟨m, bind_eq_ok.mpr ⟨k, hk, hm⟩, ?_, hr.jobs.trans hjobs, hr.nextJobID.trans hnext, ?_⟩
    · rw [hr.quota, List.map_singleton, List.sum_singleton]
      simp only [withQuota, hquota]
    · -- the other rows have other ids
      obtain ⟨-, -, hfree⟩ := List.pairwise_append.mp h.unique
      have hold : ∀ b ∈ l.blobs.rows, grown blob.id blob.size b = b := by
        intro b hb
        refine if_neg fun hmatch => ?_
        have hclash := hfree b hb blob List.mem_cons_self
        rw [StorageBlob.clash_of_id hmatch.1] at hclash
        cases hclash
      have hrows' : m.blobs.rows = k.blobs.rows.map (grown blob.id blob.size) := hr.rows
      rw [hrows', hrows, List.map_append, List.map_singleton, List.map_singleton,
        List.map_congr_left hold, List.map_id']
      exact congrArg _ (congrArg (· :: []) (leased_grown lease now hstaging))

/-- What is created in two steps is created at once. -/
theorem created_append {xs ys : List StorageBlob} {lease : Duration} {now : Time}
    (h : Created l xs lease now m) (h' : Created m ys lease now l') :
    Created l (xs ++ ys) lease now l' := by
  refine ⟨?_, h'.jobs.trans h.jobs, h'.nextJobID.trans h.nextJobID, ?_⟩
  · rw [h'.quota, List.map_append, List.sum_append]
    simp only [withQuota, h.quota, Nat.add_assoc]
  · rw [h'.rows, h.rows, List.map_append, List.append_assoc]

/-- What can be created together can be begun. -/
theorem creatable_head {blob : StorageBlob} {rest : List StorageBlob} {lease : Duration}
    (h : Creatable l (blob :: rest) lease) : Creatable l [blob] lease := by
  obtain ⟨hfits, hunique, hids⟩ := h
  rw [List.map_cons, List.sum_cons] at hfits
  refine ⟨?_, ?_, ?_⟩
  · rw [List.map_singleton, List.sum_singleton]
    intro hpos
    have := hfits (by omega)
    omega
  · exact hunique.sublist
      (List.Sublist.append_left (List.singleton_sublist.mpr List.mem_cons_self) _)
  · intro hlease
    exact List.forall_mem_singleton.mpr (hids hlease blob List.mem_cons_self)

theorem creatable_tail {blob : StorageBlob} {rest : List StorageBlob} {lease : Duration}
    {now : Time} (h : Creatable l (blob :: rest) lease) (hm : Created l [blob] lease now m) :
    Creatable m rest lease := by
  obtain ⟨hfits, hunique, hids⟩ := h
  rw [List.map_cons, List.sum_cons] at hfits
  refine ⟨?_, ?_, ?_⟩
  · intro hpos
    have hsum := hfits (by omega)
    have hquota := hm.quota
    rw [List.map_singleton, List.sum_singleton] at hquota
    rw [hquota]
    simp only [withQuota]
    omega
  · -- a lease is no part of a key
    rw [hm.rows, List.append_assoc]
    have hkeys : ∀ a, StorageBlob.clash a (leased lease now blob) = StorageBlob.clash a blob
        ∧ StorageBlob.clash (leased lease now blob) a = StorageBlob.clash blob a := by
      intro a
      rw [leased]
      split <;> exact ⟨rfl, rfl⟩
    obtain ⟨hrows, hnew, hfree⟩ := List.pairwise_append.mp hunique
    obtain ⟨hblob, hrest⟩ := List.pairwise_cons.mp hnew
    refine List.pairwise_append.mpr ⟨hrows, List.pairwise_cons.mpr ⟨fun b hb => ?_, hrest⟩,
      fun a ha b hb => ?_⟩
    · rw [(hkeys b).2]
      exact hblob b hb
    · rcases List.mem_cons.mp hb with rfl | hb
      · rw [(hkeys a).1]
        exact hfree a ha blob List.mem_cons_self
      · exact hfree a ha b (List.mem_cons_of_mem _ hb)
  · exact fun hlease b hb => hids hlease b (List.mem_cons_of_mem _ hb)

/-- **Creation**, one row at a time. -/
theorem stageBlobs_runs {lease : Duration} (now : Time) : ∀ (blobs : List StorageBlob) (l : Ledger),
    (∀ b ∈ blobs, b.status = .staging) → Creatable l blobs lease →
    ∃ l', blobs.foldlM (stageBlob lease now) l = .ok l' ∧ Created l blobs lease now l' := by
  intro blobs
  induction blobs with
  | nil =>
      intro l _ _
      exact ⟨l, rfl, rfl, rfl, rfl, (List.append_nil _).symm⟩
  | cons blob rest ih =>
      intro l hstaging h
      obtain ⟨m, hm, hcreated⟩ :=
        stageBlob_runs (hstaging blob List.mem_cons_self) (creatable_head h) now
      obtain ⟨l', hl', hcreated'⟩ := ih m (fun b hb => hstaging b (List.mem_cons_of_mem _ hb))
        (creatable_tail h hcreated)
      exact ⟨l', bind_eq_ok.mpr ⟨m, hm, hl'⟩, created_append hcreated hcreated'⟩

/-- The batch call is the loop of single calls, whatever the batch size. -/
theorem createStagingBatch_iff {blobs : List StorageBlob} {lease : Duration}
    (hstaging : ∀ b ∈ blobs, b.status = .staging) {batchSize : Int} {now : Time} :
    createStagingBatch l blobs batchSize lease now = .ok l'
      ↔ Creatable l blobs lease ∧ Created l blobs lease now l' := by
  refine ⟨createStagingBatch_ok hstaging, fun ⟨hcreatable, hcreated⟩ => ?_⟩
  obtain ⟨k, hk⟩ := createStagingBatch_runs hstaging hcreatable batchSize now
  rw [hk, created_unique (createStagingBatch_ok hstaging hk).2 hcreated]

/-! ## Activation -/

/-- Rows are fixed by their ids. -/
theorem found_unique : ∀ {found found' : List StorageBlob}, (∀ b ∈ found, b ∈ l.blobs.rows) →
    (∀ b ∈ found', b ∈ l.blobs.rows) → found.map (·.id) = found'.map (·.id) → found = found' := by
  intro found
  induction found with
  | nil =>
      intro found' _ _ hids
      exact (List.map_eq_nil_iff.mp hids.symm).symm
  | cons b found ih =>
      intro found' hrows hrows' hids
      cases found' with
      | nil => exact nomatch hids
      | cons b' found' =>
          obtain ⟨hid, hrest⟩ := List.cons.inj hids
          have hb := l.blobs.eq_of_clash (hrows b List.mem_cons_self) (hrows' b' List.mem_cons_self)
            (StorageBlob.clash_of_id hid)
          rw [hb, ih (fun c hc => hrows c (List.mem_cons_of_mem _ hc))
            (fun c hc => hrows' c (List.mem_cons_of_mem _ hc)) hrest]

/-- The ids of found rows that are distinct rows are distinct. -/
theorem nodup_ids {found : List StorageBlob} (hrows : ∀ b ∈ found, b ∈ l.blobs.rows)
    (hnd : found.Nodup) : (found.map (·.id)).Nodup := by
  refine List.Nodup.map_on (fun a ha b hb hid => ?_) hnd
  exact l.blobs.eq_of_clash (hrows a ha) (hrows b hb) (StorageBlob.clash_of_id hid)

/-- The loop succeeds when every row is there, staging and large enough. -/
theorem activationTotals_runs {blobs : List StorageBlob} (hnd : (blobs.map (·.id)).Nodup)
    {size : StorageBlob → Nat} : ∀ (as : List StorageBlobActivation) (found : List StorageBlob)
    (reserved actual : Nat), found.map (·.id) = as.map (·.id) →
    found.map size = as.map (·.actualSize) →
    (∀ b ∈ found, b ∈ blobs ∧ b.status = .staging ∧ size b ≤ b.size) →
    reserved + (found.map (·.size)).sum ≤ maxUint64 →
    actual + (as.map (·.actualSize)).sum ≤ maxUint64 →
    activationTotals blobs reserved actual as
      = .ok (reserved + (found.map (·.size)).sum, actual + (as.map (·.actualSize)).sum) := by
  intro as
  induction as with
  | nil =>
      intro found reserved actual hids _ _ _ _
      rw [List.map_eq_nil_iff.mp hids]
      rfl
  | cons a rest ih =>
      intro found reserved actual hids hsizes hfound hreserved hactual
      cases found with
      | nil => exact nomatch hids
      | cons b found =>
          obtain ⟨hid, hids⟩ := List.cons.inj hids
          obtain ⟨hsize, hsizes⟩ := List.cons.inj hsizes
          obtain ⟨hb, hstaging, hle⟩ := hfound b List.mem_cons_self
          rw [List.map_cons, List.sum_cons] at hreserved hactual
          have hfind : blobs.find? (fun c => c.id == a.id) = some b :=
            Table.find?_of_nodup hnd hb (beq_iff_eq.mpr hid)
              fun c hc => (beq_iff_eq.mp hc).trans hid.symm
          have hrest := ih found (reserved + b.size) (actual + a.actualSize) hids hsizes
            (fun c hc => hfound c (List.mem_cons_of_mem _ hc)) (by omega) (by omega)
          rw [activationTotals, hfind, List.map_cons, List.map_cons, List.sum_cons, List.sum_cons,
            ← Nat.add_assoc, ← Nat.add_assoc]
          exact bind_eq_ok.mpr ⟨b, rfl, bind_eq_ok.mpr ⟨(), ensure_eq_ok.mpr hstaging,
            bind_eq_ok.mpr ⟨(), ensure_eq_ok.mpr (le_of_eq_of_le hsize.symm hle), bind_eq_ok.mpr
              ⟨(), ensure_eq_ok.mpr (by omega), hrest⟩⟩⟩⟩

/-- The ids of a checked slice find one row each, whatever the batch size. -/
theorem length_findBlobsByID {ids : List String} (hids : ids.Nodup)
    (hall : ∀ id ∈ ids, ∃ b ∈ l.blobs.rows, b.id = id) {n : Nat} (hn : 0 < n) :
    (findBlobsByID l ids n).length = ids.length := by
  refine length_of_keys (k := fun b => b.id) (fun a b hid => StorageBlob.clash_of_id hid)
    (fun b hb => mem_findBlobsByID hb) (findBlobsByID_nodup hids hn) hids
    (fun b hb => mem_ids_of_findBlobsByID hn hb) fun id hid => ?_
  obtain ⟨b, hb, hbid⟩ := hall id hid
  exact ⟨b, mem_findBlobsByID_of_mem hn hb (hbid ▸ hid), hbid⟩

/-- A batch of activations whose rows are all in staging. -/
theorem activateBatch_runs {batch : List StorageBlobActivation} (hnd : (batch.map (·.id)).Nodup)
    (hall : ∀ id ∈ batch.map (·.id), ∃ b ∈ l.blobs.rows, b.id = id ∧ b.status = .staging) :
    ∃ l', activateBatch l batch = .ok l' := by
  have hcount : l.blobs.count (fun b => decide (b.id ∈ batch.map (·.id) ∧ b.status = .staging))
      = batch.length := by
    rw [← List.length_map (f := fun a : StorageBlobActivation => a.id)]
    refine count_ids hnd (fun b hb => (of_decide_eq_true hb).1) fun id hid => ?_
    obtain ⟨b, hb, hbid, hstaging⟩ := hall id hid
    exact ⟨b, hb, hbid, decide_eq_true ⟨hbid ▸ hid, hstaging⟩⟩
  exact ⟨_, bind_eq_ok.mpr ⟨(), ensure_eq_ok.mpr hcount, rfl⟩⟩

theorem activated_of_not_mem {as : List StorageBlobActivation} {b : StorageBlob}
    (h : b.id ∉ as.map (·.id)) : activated as b = b :=
  if_neg fun hmatch => h hmatch.1

/-- Every batch size finds and affects the rows that one batch size did. -/
theorem activateStagingBatch_runs {as : List StorageBlobActivation} {found : List StorageBlob}
    (hcheck : checkActivations [] as = .ok ()) (h : Activation l as found l')
    (hreserved : l.quota.reservedBytes ≤ maxUint64) (batchSize : Int) :
    ∃ m, activateStagingBatch l as batchSize = .ok m := by
  rw [activateStagingBatch]
  split
  · exact ⟨l, rfl⟩
  next hne =>
  have hn := normalizeStorageBlobBatchSize_pos batchSize
  have hrow : ∀ id ∈ as.map (·.id), ∃ b ∈ l.blobs.rows, b.id = id ∧ b.status = .staging := by
    rw [← h.ids]
    intro id hid
    obtain ⟨b, hb, hbid⟩ := List.mem_map.mp hid
    exact ⟨b, (h.staging b hb).1, hbid, (h.staging b hb).2⟩
  have hlength := length_findBlobsByID h.nodup
    (fun id hid => (hrow id hid).imp fun b hb => ⟨hb.1, hb.2.1⟩) hn
  have hcovered := h.covered
  have hrange := h.range hne
  have htotals := activationTotals_runs
    (nodup_ids (fun b hb => mem_findBlobsByID hb) (findBlobsByID_nodup h.nodup hn)) as found 0 0
    h.ids h.sizes (fun b hb => ⟨mem_findBlobsByID_of_mem hn (h.staging b hb).1
      (h.ids ▸ List.mem_map_of_mem hb), (h.staging b hb).2, h.shrinks b hb⟩) (by omega) (by omega)
  rw [Nat.zero_add, Nat.zero_add] at htotals
  have hmove : moveReservedToUsed l (found.map (·.size)).sum (as.map (·.actualSize)).sum
      (.errorf "storage quota batch reservation is inconsistent")
      = .ok (withQuota l (l.quota.usedBytes + (as.map (·.actualSize)).sum)
        (l.quota.reservedBytes - (found.map (·.size)).sum)) :=
    bind_eq_ok.mpr
      ⟨(), ensure_eq_ok.mpr hcovered, bind_eq_ok.mpr ⟨_, u64Sub_eq_ok.mpr ⟨hcovered, rfl⟩,
      bind_eq_ok.mpr ⟨_, u64Add_eq_ok.mpr ⟨hrange, rfl⟩, rfl⟩⟩⟩
  generalize hmoved : withQuota l (l.quota.usedBytes + (as.map (·.actualSize)).sum)
    (l.quota.reservedBytes - (found.map (·.size)).sum) = m at hmove
  have hmrows : m.blobs.rows = l.blobs.rows := by rw [← hmoved]; rfl
  -- the rows of the next batch are as they were: no id is in two batches
  have hloop := foldlM_batches_runs (f := activateBatch) (l := as) (b := m)
    (P := fun xs k => Rewrites m (activated xs) k) hn ?_ ?_
  · obtain ⟨k, hk, -⟩ := hloop
    exact ⟨k, bind_eq_ok.mpr ⟨(), hcheck, bind_eq_ok.mpr ⟨(), ensure_eq_ok.mpr
      (hlength.trans rfl), bind_eq_ok.mpr ⟨_, htotals, bind_eq_ok.mpr ⟨m, hmove, hk⟩⟩⟩⟩⟩
  · exact (Rewrites.id m).congr fun b _ => (activated_of_not_mem List.not_mem_nil).symm
  · intro xs ys k hpre hk
    have hnd : ((xs ++ ys).map (·.id)).Nodup := h.nodup.sublist (hpre.sublist.map _)
    rw [List.map_append] at hnd
    obtain ⟨-, hys, hdisj⟩ := List.nodup_append.mp hnd
    have hall : ∀ id ∈ ys.map (·.id), ∃ b ∈ k.blobs.rows, b.id = id ∧ b.status = .staging := by
      intro id hid
      have hmem : id ∈ as.map (·.id) := (hpre.sublist.map _).subset
        (List.map_append ▸ List.mem_append_right _ hid)
      obtain ⟨b, hb, rfl, hstaging⟩ := hrow id hmem
      refine ⟨b, hk.mem.mpr ⟨b, hmrows ▸ hb, activated_of_not_mem fun hx => ?_⟩, rfl, hstaging⟩
      exact hdisj _ hx _ hid rfl
    obtain ⟨k', hk'⟩ := activateBatch_runs hys hall
    exact ⟨k', hk', (hk.trans (activateBatch_ok hk')).congr fun b _ => activated_activated xs ys b⟩

/-- `ActivateStagingBatch` succeeds on one condition, whatever the batch size. -/
theorem activateStagingBatch_iff {as : List StorageBlobActivation}
    (hreserved : l.quota.reservedBytes ≤ maxUint64) {batchSize : Int} :
    activateStagingBatch l as batchSize = .ok l'
      ↔ checkActivations [] as = .ok () ∧ ∃ found, Activation l as found l' := by
  refine ⟨fun h => ⟨?_, activateStagingBatch_ok h⟩, fun ⟨hcheck, found, h⟩ => ?_⟩
  · rw [activateStagingBatch] at h
    split at h
    · next hnil =>
        rw [hnil]
        rfl
    · exact (bind_eq_ok.mp h).choose_spec.1
  · obtain ⟨m, hm⟩ := activateStagingBatch_runs hcheck h hreserved batchSize
    obtain ⟨found', h'⟩ := activateStagingBatch_ok hm
    have hfound : found' = found := found_unique (fun b hb => (h'.staging b hb).1)
      (fun b hb => (h.staging b hb).1) (h'.ids.trans h.ids.symm)
    subst hfound
    rw [hm, rewrites_unique h'.rewrites h.rewrites]

/-- `ActivateStaging` on a staging row whose reservation is there. -/
theorem activateStaging_runs {b : StorageBlob} (hb : b ∈ l.blobs.rows)
    (hstaging : b.status = .staging)
    {actualSize : Nat} (hsize : actualSize ≤ b.size) (hreserved : b.size ≤ l.quota.reservedBytes)
    (hused : l.quota.usedBytes + actualSize ≤ maxUint64) :
    ∃ m, activateStaging l b.id actualSize = .ok m
      ∧ Rewrites (withQuota l (l.quota.usedBytes + actualSize) (l.quota.reservedBytes - b.size))
          (activated [⟨b.id, actualSize⟩]) m := by
  have hfirst : l.blobs.first? (fun c => c.id == b.id) = some b :=
    l.blobs.first?_of_mem hb (beq_self_eq_true b.id) fun a ha =>
      StorageBlob.clash_of_id (beq_iff_eq.mp ha)
  refine ⟨_, bind_eq_ok.mpr ⟨b, orElseThrow_eq_ok.mpr hfirst, bind_eq_ok.mpr
    ⟨(), ensure_eq_ok.mpr hstaging, bind_eq_ok.mpr ⟨(), ensure_eq_ok.mpr hsize, bind_eq_ok.mpr
      ⟨_, bind_eq_ok.mpr ⟨(), ensure_eq_ok.mpr hreserved, bind_eq_ok.mpr
        ⟨_, u64Sub_eq_ok.mpr ⟨hreserved, rfl⟩, bind_eq_ok.mpr
          ⟨_, u64Add_eq_ok.mpr ⟨hused, rfl⟩, rfl⟩⟩⟩, rfl⟩⟩⟩⟩, ?_⟩
  refine (rewrites_updateBlobs _ _ _ _).congr fun c _ => ?_
  by_cases hmatch : c.id = b.id ∧ c.status = .staging
  · rw [if_pos (decide_eq_true hmatch), activated, if_pos ⟨by simp [hmatch.1], hmatch.2⟩]
    simp [activatedSize, hmatch.1]
  · rw [if_neg (by simpa using hmatch), activated, if_neg (by simpa using hmatch)]

theorem activation_nil {found : List StorageBlob} (h : Activation l [] found l') : l = l' := by
  rw [List.map_eq_nil_iff.mp h.ids] at h
  refine eq_of_rows ?_ ?_ (by rw [h.rewrites.jobs]; rfl) h.rewrites.nextJobID.symm
  · rw [h.rewrites.quota]
    rfl
  · have hid : ∀ b ∈ l.blobs.rows, activated [] b = b :=
      fun b _ => activated_of_not_mem List.not_mem_nil
    have hrows : l'.blobs.rows = l.blobs.rows.map (activated []) := h.rewrites.rows
    rw [hrows, List.map_congr_left hid, List.map_id']

/-- Once the first row is active, the others are still to be activated. -/
theorem activation_tail {a : StorageBlobActivation} {rest : List StorageBlobActivation}
    {b : StorageBlob} {found : List StorageBlob} (h : Activation l (a :: rest) (b :: found) l')
    (hr : Rewrites (withQuota l (l.quota.usedBytes + a.actualSize) (l.quota.reservedBytes - b.size))
      (activated [a]) m) : Activation m rest found l' := by
  obtain ⟨hids, hnd, hrows, hsizes, hshrinks, hcovered, hrange, hrewrites⟩ := h
  obtain ⟨hid, hids⟩ := List.cons.inj hids
  obtain ⟨ha, hrest⟩ := List.nodup_cons.mp hnd
  have hquota := hr.quota
  have hrange := hrange (List.cons_ne_nil _ _)
  rw [List.map_cons, List.sum_cons] at hcovered hrange
  have hother : ∀ c ∈ found, c.id ≠ a.id := by
    intro c hc heq
    exact ha (hids ▸ List.mem_map.mpr ⟨c, hc, heq⟩)
  have hsize : ∀ c ∈ found, activatedSize (a :: rest) c = activatedSize rest c := by
    intro c hc
    rw [activatedSize, activatedSize, List.find?_cons_of_neg]
    simpa using (hother c hc).symm
  refine ⟨hids, hrest, fun c hc => ?_, ?_, fun c hc => ?_, ?_, fun _ => ?_, ?_⟩
  · obtain ⟨hmem, hstaging⟩ := hrows c (List.mem_cons_of_mem _ hc)
    refine ⟨hr.mem.mpr ⟨c, hmem, activated_of_not_mem ?_⟩, hstaging⟩
    simpa using hother c hc
  · exact (List.map_congr_left hsize).symm.trans (List.cons.inj hsizes).2
  · rw [← hsize c hc]
    exact hshrinks c (List.mem_cons_of_mem _ hc)
  · rw [hquota]
    simp only [withQuota]
    omega
  · rw [hquota]
    simp only [withQuota]
    omega
  · refine ⟨?_, hrewrites.jobs.trans hr.jobs.symm, hrewrites.nextJobID.trans hr.nextJobID.symm, ?_⟩
    · rw [hrewrites.quota]
      simp only [withQuota, hquota, List.map_cons, List.sum_cons]
      congr 1 <;> omega
    · have hmrows : m.blobs.rows = l.blobs.rows.map (activated [a]) := hr.rows
      have hlrows : l'.blobs.rows = l.blobs.rows.map (activated ([a] ++ rest)) := hrewrites.rows
      rw [hlrows]
      show _ = m.blobs.rows.map _
      rw [hmrows, List.map_map]
      exact List.map_congr_left fun c _ => (activated_activated [a] rest c).symm

/-- **Activation**, one row at a time. -/
theorem activateEach_runs : ∀ (as : List StorageBlobActivation) (found : List StorageBlob)
    (l : Ledger), Activation l as found l' →
    as.foldlM (fun l a => activateStaging l a.id a.actualSize) l = .ok l' := by
  intro as
  induction as with
  | nil => exact fun found l h => congrArg Except.ok (activation_nil h)
  | cons a rest ih =>
      intro found l h
      cases found with
      | nil => exact nomatch h.ids
      | cons b found =>
          have hid : b.id = a.id := (List.cons.inj h.ids).1
          have hsize : activatedSize (a :: rest) b = a.actualSize := (List.cons.inj h.sizes).1
          obtain ⟨hb, hstaging⟩ := h.staging b List.mem_cons_self
          have hshrink := h.shrinks b List.mem_cons_self
          have hcovered := h.covered
          have hrange := h.range (List.cons_ne_nil _ _)
          rw [hsize] at hshrink
          rw [List.map_cons, List.sum_cons] at hcovered hrange
          obtain ⟨m, hm, hr⟩ := activateStaging_runs hb hstaging hshrink (by omega) (by omega)
          rw [hid] at hm hr
          exact bind_eq_ok.mpr ⟨m, hm, ih found m (activation_tail h hr)⟩

end BatchLedger
