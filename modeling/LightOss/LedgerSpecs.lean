import Mathlib.Tactic.Tauto
import LightOss.BlobRepository

/-! # Ledger specs — what each repository call can do

    One inversion lemma for every function of the blob repository: from "it
    succeeded" follow the guards it tested and the whole new ledger.  Row updates
    are stated as one map over the blob rows (`Rewrites`), deletions as one filter
    (`Dropped`), job inserts as `Enqueued`; nothing after this file opens a
    repository function again. -/

namespace LedgerSpecs

open KeyedTable Fallible LedgerRows BlobRepository

variable {l l' : Ledger}

/-! ## Shapes of a new ledger -/

/-- Only the blob rows changed, each of them by `g`. -/
structure Rewrites (l : Ledger) (g : StorageBlob → StorageBlob) (l' : Ledger) : Prop where
  quota : l'.quota = l.quota
  jobs : l'.jobs = l.jobs
  nextJobID : l'.nextJobID = l.nextJobID
  rows : l'.blobs.rows = l.blobs.rows.map g

theorem Rewrites.id (l : Ledger) : Rewrites l id l := ⟨rfl, rfl, rfl, (List.map_id _).symm⟩

theorem Rewrites.trans {g h : StorageBlob → StorageBlob} {m : Ledger} (h1 : Rewrites l g m)
    (h2 : Rewrites m h l') : Rewrites l (h ∘ g) l' :=
  ⟨h2.quota.trans h1.quota, h2.jobs.trans h1.jobs, h2.nextJobID.trans h1.nextJobID, by
    rw [h2.rows, h1.rows, List.map_map]⟩

/-- Only what the map does to the rows that are there counts. -/
theorem Rewrites.congr {g h : StorageBlob → StorageBlob} (h1 : Rewrites l g l')
    (heq : ∀ b ∈ l.blobs.rows, g b = h b) : Rewrites l h l' :=
  ⟨h1.quota, h1.jobs, h1.nextJobID, h1.rows.trans (List.map_congr_left heq)⟩

/-- The rows afterwards are the images of those before. -/
theorem Rewrites.mem {g : StorageBlob → StorageBlob} (h : Rewrites l g l') {b : StorageBlob} :
    b ∈ l'.blobs.rows ↔ ∃ a ∈ l.blobs.rows, g a = b := by
  rw [h.rows, List.mem_map]

/-- `UPDATE … WHERE` as a map over all rows. -/
theorem rewrites_updateBlobs (l : Ledger) (p : StorageBlob → Bool)
    (f : StorageBlob → StorageBlob) (hf : KeepsKey StorageBlob.clash f) :
    Rewrites l (fun b => if p b then f b else b) (l.updateBlobs p f hf) := ⟨rfl, rfl, rfl, rfl⟩

/-- A loop over the batches of `xs` whose body rewrites the rows named in its batch
    rewrites the rows named in `xs`. -/
theorem rewrites_batches {β : Type} {f : Ledger → List β → Except Err Ledger}
    {g : List β → StorageBlob → StorageBlob} {n : Nat} (hn : 0 < n) {xs : List β}
    (hnil : ∀ b, g [] b = b)
    (happend : ∀ ys zs b, (ys ++ zs) <+: xs → g zs (g ys b) = g (ys ++ zs) b)
    (hbody : ∀ m ys m', f m ys = .ok m' → Rewrites m (g ys) m')
    (h : (batches n xs).foldlM f l = .ok l') : Rewrites l (g xs) l' := by
  refine foldlM_batches_along (P := fun ys m => Rewrites l (g ys) m) hn ?_ ?_ h
  · exact (Rewrites.id l).congr fun b _ => (hnil b).symm
  · intro ys zs m m' hpre hm hf
    exact (hm.trans (hbody m zs m' hf)).congr fun b _ => happend ys zs b hpre

/-- The rows that match `p` are gone, and their jobs with them. -/
structure Dropped (l : Ledger) (p : StorageBlob → Bool) (l' : Ledger) : Prop where
  quota : l'.quota = l.quota
  nextJobID : l'.nextJobID = l.nextJobID
  rows : l'.blobs.rows = l.blobs.rows.filter fun b => !p b
  jobs : l'.jobs.rows =
    l.jobs.rows.filter fun j => !l.blobs.rows.any fun b => p b && b.id == j.blobID

/-- `DELETE … WHERE`, with the jobs that the foreign key takes along. -/
theorem dropped_deleteBlobs (l : Ledger) (p : StorageBlob → Bool) :
    Dropped l p (l.deleteBlobs p) := by
  refine ⟨rfl, rfl, rfl, ?_⟩
  show l.jobs.rows.filter _ = _
  refine List.filter_congr fun j _ => ?_
  show (!(List.filter p l.blobs.rows).any _) = _
  rw [List.any_filter]

/-- The jobs left are those of rows that stay. -/
theorem Dropped.mem_jobs {p : StorageBlob → Bool} (h : Dropped l p l') {j : StorageCleanupJob} :
    j ∈ l'.jobs.rows ↔
      j ∈ l.jobs.rows ∧ ∀ b ∈ l.blobs.rows, p b = true → b.id ≠ j.blobID := by
  rw [h.jobs, List.mem_filter]
  simp

/-- The rows left do not meet the condition. -/
theorem Dropped.mem_rows {p : StorageBlob → Bool} (h : Dropped l p l') {b : StorageBlob} :
    b ∈ l'.blobs.rows ↔ b ∈ l.blobs.rows ∧ p b = false := by
  rw [h.rows, List.mem_filter, Bool.not_eq_true']

/-- Dropping in two rounds, the second of which names rows by their id. -/
theorem Dropped.trans {p q : StorageBlob → Bool} {m : Ledger} (h1 : Dropped l p m)
    (h2 : Dropped m q l') : Dropped l (fun b => p b || q b) l' := by
  refine ⟨h2.quota.trans h1.quota, h2.nextJobID.trans h1.nextJobID, ?_, ?_⟩
  · rw [h2.rows, h1.rows, List.filter_filter]
    refine List.filter_congr fun b _ => ?_
    cases p b <;> cases q b <;> rfl
  · rw [h2.jobs, h1.jobs, List.filter_filter]
    refine List.filter_congr fun j _ => ?_
    rw [h1.rows, List.any_filter, Bool.eq_iff_iff]
    simp only [Bool.and_eq_true, Bool.not_eq_true', List.any_eq_false, Bool.or_eq_true,
      beq_iff_eq]
    constructor
    · rintro ⟨hq, hp⟩ b hb ⟨hpq, hid⟩
      cases hpb : p b with
      | true => exact hp b hb ⟨hpb, hid⟩
      | false => exact hq b hb ⟨hpb, hpq.resolve_left (by simp [hpb]), hid⟩
    · intro hall
      exact ⟨fun b hb h => hall b hb ⟨Or.inr h.2.1, h.2.2⟩,
        fun b hb h => hall b hb ⟨Or.inl h.1, h.2⟩⟩

/-- A job of this blob exists. -/
def HasJob (l : Ledger) (blobID : String) : Prop := ∃ j ∈ l.jobs.rows, j.blobID = blobID

/-- The row `j'` continues the row `j`, with the same path or the one of a job in
    `new`. -/
def Continues (new : List StorageCleanupJob) (j j' : StorageCleanupJob) : Prop :=
  j'.id = j.id ∧ j'.blobID = j.blobID
    ∧ (j'.storagePath = j.storagePath
      ∨ ∃ n ∈ new, n.blobID = j'.blobID ∧ n.storagePath = j'.storagePath)

/-- The jobs `new` were upserted: an old row is as it was or lost its lease, a new
    row has no lease and an id that was not used before. -/
structure Enqueued (l : Ledger) (new : List StorageCleanupJob) (l' : Ledger) : Prop where
  quota : l'.quota = l.quota
  blobs : l'.blobs = l.blobs
  nextJobID : l.nextJobID ≤ l'.nextJobID
  foreign : ∀ n ∈ new, ∃ b ∈ l.blobs.rows, b.id = n.blobID
  hasJob : ∀ blobID, HasJob l' blobID ↔ HasJob l blobID ∨ blobID ∈ new.map (·.blobID)
  kept : ∀ j ∈ l.jobs.rows, ∃ j' ∈ l'.jobs.rows,
    j' = j ∨ (j'.leaseOwner = none ∧ Continues new j j')
  origin : ∀ j' ∈ l'.jobs.rows, j' ∈ l.jobs.rows
    ∨ (j'.leaseOwner = none ∧ (
      (∃ j ∈ l.jobs.rows, Continues new j j')
      ∨ (l.nextJobID ≤ j'.id ∧ j'.id < l'.nextJobID
        ∧ ∃ n ∈ new, n.blobID = j'.blobID ∧ n.storagePath = j'.storagePath)))

theorem Enqueued.nil (l : Ledger) : Enqueued l [] l where
  quota := rfl
  blobs := rfl
  nextJobID := Nat.le_refl _
  foreign := fun _ h => nomatch h
  hasJob := by simp
  kept := fun j hj => ⟨j, hj, Or.inl rfl⟩
  origin := fun _ h => Or.inl h

/-- Two rounds of inserts on the same job. -/
theorem Continues.append {xs ys : List StorageCleanupJob} {j j' j'' : StorageCleanupJob}
    (h1 : Continues xs j j') (h2 : Continues ys j' j'') : Continues (xs ++ ys) j j'' := by
  obtain ⟨hid1, hblob1, hpath1⟩ := h1
  obtain ⟨hid2, hblob2, hpath2⟩ := h2
  refine ⟨hid2.trans hid1, hblob2.trans hblob1, ?_⟩
  rcases hpath2 with heq | ⟨n, hn, hnb, hnp⟩
  · rcases hpath1 with heq' | ⟨n, hn, hnb, hnp⟩
    · exact Or.inl (heq.trans heq')
    · exact Or.inr ⟨n, List.mem_append_left _ hn, hnb.trans hblob2.symm, hnp.trans heq.symm⟩
  · exact Or.inr ⟨n, List.mem_append_right _ hn, hnb, hnp⟩

/-- More inserted jobs leave more paths to take. -/
theorem Continues.mono {xs ys : List StorageCleanupJob} (hsub : ∀ n ∈ xs, n ∈ ys)
    {j j' : StorageCleanupJob} (h : Continues xs j j') : Continues ys j j' :=
  ⟨h.1, h.2.1, h.2.2.imp_right fun ⟨n, hn, hrest⟩ => ⟨n, hsub n hn, hrest⟩⟩

theorem Enqueued.append {m : Ledger} {xs ys : List StorageCleanupJob} (h1 : Enqueued l xs m)
    (h2 : Enqueued m ys l') : Enqueued l (xs ++ ys) l' where
  quota := h2.quota.trans h1.quota
  blobs := h2.blobs.trans h1.blobs
  nextJobID := Nat.le_trans h1.nextJobID h2.nextJobID
  foreign := by
    intro n hn
    rcases List.mem_append.mp hn with hn | hn
    · exact h1.foreign n hn
    · exact h1.blobs ▸ h2.foreign n hn
  hasJob := by
    intro blobID
    rw [h2.hasJob, h1.hasJob, List.map_append, List.mem_append, or_assoc]
  kept := by
    intro j hj
    obtain ⟨j', hj', h⟩ := h1.kept j hj
    obtain ⟨j'', hj'', h'⟩ := h2.kept j' hj'
    refine ⟨j'', hj'', ?_⟩
    have hleft : ∀ n ∈ xs, n ∈ xs ++ ys := fun n hn => List.mem_append_left _ hn
    have hright : ∀ n ∈ ys, n ∈ xs ++ ys := fun n hn => List.mem_append_right _ hn
    -- the old job is untouched or was replaced, in either round
    rcases h with rfl | ⟨hnone, hc⟩ <;> rcases h' with rfl | ⟨hnone', hc'⟩
    · exact Or.inl rfl
    · exact Or.inr ⟨hnone', hc'.mono hright⟩
    · exact Or.inr ⟨hnone, hc.mono hleft⟩
    · exact Or.inr ⟨hnone', hc.append hc'⟩
  origin := by
    intro j'' hj''
    have hright : ∀ n ∈ ys, n ∈ xs ++ ys := fun n hn => List.mem_append_right _ hn
    have hleft : ∀ n ∈ xs, n ∈ xs ++ ys := fun n hn => List.mem_append_left _ hn
    have widen : ∀ j' : StorageCleanupJob,
      (∃ n ∈ xs, n.blobID = j'.blobID ∧ n.storagePath = j'.storagePath) →
        ∃ n ∈ xs ++ ys, n.blobID = j'.blobID ∧ n.storagePath = j'.storagePath :=
      fun j' ⟨n, hn, h⟩ => ⟨n, hleft n hn, h⟩
    -- a job of the end was there after the first round, continues one of it, or is new
    rcases h2.origin j'' hj'' with hmem | ⟨hnone, ⟨j', hj', hc'⟩ | ⟨hlo, hhi, n, hn, h⟩⟩
    · rcases h1.origin j'' hmem with hmem | ⟨hnone, ⟨j, hj, hc⟩ | ⟨hlo, hhi, h⟩⟩
      · exact Or.inl hmem
      · exact Or.inr ⟨hnone, Or.inl ⟨j, hj, hc.mono hleft⟩⟩
      · exact Or.inr ⟨hnone, Or.inr ⟨hlo, Nat.lt_of_lt_of_le hhi h2.nextJobID, widen _ h⟩⟩
    · rcases h1.origin j' hj' with hmem | ⟨-, ⟨j, hj, hc⟩ | ⟨hlo, hhi, n, hn, hnb, hnp⟩⟩
      · exact Or.inr ⟨hnone, Or.inl ⟨j', hmem, hc'.mono hright⟩⟩
      · exact Or.inr ⟨hnone, Or.inl ⟨j, hj, hc.append hc'⟩⟩
      · obtain ⟨hid, hblob, hpath⟩ := hc'
        refine Or.inr ⟨hnone, Or.inr ⟨hid ▸ hlo, hid ▸ Nat.lt_of_lt_of_le hhi h2.nextJobID, ?_⟩⟩
        rcases hpath with heq | ⟨n', hn', hnb', hnp'⟩
        · exact ⟨n, hleft n hn, hnb.trans hblob.symm, hnp.trans heq.symm⟩
        · exact ⟨n', hright n' hn', hnb', hnp'⟩
    · exact Or.inr ⟨hnone, Or.inr
        ⟨Nat.le_trans h1.nextJobID hlo, hhi, n, hright n hn, h⟩⟩

/-- One job upsert whose conflict assignment keeps the row or clears its lease. -/
theorem createJob_ok {job : StorageCleanupJob} {onConflict : StorageCleanupJob → StorageCleanupJob}
    {hf : KeepsKey StorageCleanupJob.clash onConflict} (hlease : job.leaseOwner = none)
    (hconflict : ∀ j, j.blobID = job.blobID →
      onConflict j = j ∨ ((onConflict j).leaseOwner = none ∧ Continues [job] j (onConflict j)))
    (h : l.createJob job onConflict hf = .ok l') : Enqueued l [job] l' := by
  rw [Ledger.createJob] at h
  split at h
  case isFalse => exact nomatch h
  next hforeign =>
  have hforeign : ∃ b ∈ l.blobs.rows, b.id = job.blobID := by simpa using hforeign
  split at h
  · next hthere =>
      -- `ON CONFLICT`: the job that is there is rewritten in place
      obtain ⟨j0, hj0, hblob0⟩ : ∃ j ∈ l.jobs.rows, j.blobID = job.blobID := by simpa using hthere
      cases h
      have hblobs : ∀ j,
          (if j.blobID == job.blobID then onConflict j else j).blobID = j.blobID := by
        intro j
        by_cases hj : j.blobID = job.blobID
        · rw [if_pos (by simpa using hj)]
          rcases hconflict j hj with heq | ⟨-, hc⟩
          · rw [heq]
          · exact hc.2.1
        · rw [if_neg (by simpa using hj)]
      refine ⟨rfl, rfl, Nat.le_refl _, by simpa using hforeign, ?_, ?_, ?_⟩
      · intro blobID
        have hsame : HasJob (l.updateJobs (fun j => j.blobID == job.blobID) onConflict hf) blobID
            ↔ HasJob l blobID := by
          constructor
          · rintro ⟨j', hj', hid⟩
            obtain ⟨j, hj, rfl⟩ := List.mem_map.mp hj'
            exact ⟨j, hj, (hblobs j).symm.trans hid⟩
          · rintro ⟨j, hj, hid⟩
            exact ⟨_, List.mem_map_of_mem hj, (hblobs j).trans hid⟩
        refine hsame.trans ?_
        constructor
        · exact Or.inl
        · rintro (hjob | hid)
          · exact hjob
          · rw [List.map_singleton, List.mem_singleton] at hid
            exact ⟨j0, hj0, hblob0.trans hid.symm⟩
      · intro j hj
        refine ⟨_, List.mem_map_of_mem hj, ?_⟩
        by_cases hb : j.blobID = job.blobID
        · simpa [hb] using hconflict j hb
        · exact Or.inl (by simp [hb])
      · intro j' hj'
        rcases (Table.mem_updateWhere _ _ _ hf).mp hj' with ⟨j, hj, hp, rfl⟩ | ⟨hmem, -⟩
        · rcases hconflict j (by simpa using hp) with heq | ⟨hnone, hc⟩
          · exact Or.inl (heq.symm ▸ hj)
          · exact Or.inr ⟨hnone, Or.inl ⟨j, hj, hc⟩⟩
        · exact Or.inl hmem
  · split at h
    case h_2 => exact nomatch h
    next jobs hins =>
    cases h
    obtain ⟨-, hrows⟩ := Table.insert?_eq_some.mp hins
    refine ⟨rfl, rfl, Nat.le_succ _, by simpa using hforeign, ?_, ?_, ?_⟩
    · intro blobID
      simp [HasJob, hrows, or_and_right, exists_or, eq_comm]
    · intro j hj
      exact ⟨j, by simp [hrows, hj], Or.inl rfl⟩
    · intro j' hj'
      have hj' : j' ∈ l.jobs.rows ++ [{ job with id := l.nextJobID }] := hrows ▸ hj'
      rcases List.mem_append.mp hj' with hmem | hmem
      · exact Or.inl hmem
      · rw [List.mem_singleton] at hmem
        subst hmem
        exact Or.inr ⟨hlease, Or.inr ⟨Nat.le_refl _, Nat.lt_succ_self _, job, by simp, rfl, rfl⟩⟩

/-- One insert: the job is new, or the blob has one already, which stays. -/
theorem createJobDoNothing_ok {job : StorageCleanupJob} (hlease : job.leaseOwner = none)
    (h : l.createJobDoNothing job = .ok l') : Enqueued l [job] l' :=
  createJob_ok hlease (fun _ _ => Or.inl rfl) h

/-- A loop of upserts over the batches. -/
theorem enqueued_batches {f : Ledger → StorageCleanupJob → Except Err Ledger}
    {jobs : List StorageCleanupJob} {n : Nat} (hn : 0 < n)
    (hbody : ∀ m job m', job ∈ jobs → f m job = .ok m' → Enqueued m [job] m')
    (h : (batches n jobs).foldlM (fun m batch => batch.foldlM f m) l = .ok l') :
    Enqueued l jobs l' := by
  rw [foldlM_batches hn] at h
  refine foldlM_along (P := fun xs m => Enqueued l xs m) (Enqueued.nil l) ?_ h
  intro xs job m m' hpre hm hf
  have hmem : job ∈ jobs := hpre.subset (by simp)
  exact hm.append (hbody m job m' hmem hf)

theorem enqueueCleanupBatch_ok {jobs : List StorageCleanupJob} {batchSize : Int}
    (hlease : ∀ j ∈ jobs, j.leaseOwner = none)
    (h : enqueueCleanupBatch l jobs batchSize = .ok l') : Enqueued l jobs l' :=
  enqueued_batches (normalizeStorageBlobBatchSize_pos batchSize)
    (fun _ _ _ hmem hf => createJobDoNothing_ok (hlease _ hmem) hf) h

/-! ## The quota row -/

/-- The ledger with other counters. -/
def withQuota (l : Ledger) (used reserved : Nat) : Ledger :=
  { l with quota := { l.quota with usedBytes := used, reservedBytes := reserved } }

/-- The reservation was within the limit and the column. -/
theorem reserveQuota_ok {bytes : Nat} (h : reserveQuota l bytes = .ok l') :
    l.quota.usedBytes + l.quota.reservedBytes + bytes ≤ l.quota.maxBytes
      ∧ l.quota.reservedBytes + bytes ≤ maxUint64
      ∧ l' = withQuota l l.quota.usedBytes (l.quota.reservedBytes + bytes) := by
  rw [reserveQuota] at h
  split at h
  · next hguard =>
      obtain ⟨reserved, hadd, hl'⟩ := bind_eq_ok.mp h
      obtain ⟨hrange, rfl⟩ := u64Add_eq_ok.mp hadd
      exact ⟨by omega, hrange, (pure_eq_ok.mp hl').symm⟩
  · exact nomatch h

/-- A release that succeeds found so many bytes reserved. -/
theorem releaseQuota_ok {bytes : Nat} {err : Err} (h : releaseQuota l bytes err = .ok l') :
    bytes ≤ l.quota.reservedBytes
      ∧ l' = withQuota l l.quota.usedBytes (l.quota.reservedBytes - bytes) := by
  rw [releaseQuota] at h
  split at h
  · obtain ⟨reserved, hsub, hl'⟩ := bind_eq_ok.mp h
    obtain ⟨hle, rfl⟩ := u64Sub_eq_ok.mp hsub
    exact ⟨hle, (pure_eq_ok.mp hl').symm⟩
  · exact nomatch h

/-- An activation that succeeds found so many bytes reserved, and what is used fits the
    column. -/
theorem moveReservedToUsed_ok {reserved actual : Nat} {err : Err}
    (h : moveReservedToUsed l reserved actual err = .ok l') :
    reserved ≤ l.quota.reservedBytes ∧ l.quota.usedBytes + actual ≤ maxUint64
      ∧ l' = withQuota l (l.quota.usedBytes + actual) (l.quota.reservedBytes - reserved) := by
  rw [moveReservedToUsed] at h
  obtain ⟨_, hguard, h⟩ := bind_eq_ok.mp h
  obtain ⟨r, hsub, h⟩ := bind_eq_ok.mp h
  obtain ⟨u, hadd, h⟩ := bind_eq_ok.mp h
  obtain ⟨hle, rfl⟩ := u64Sub_eq_ok.mp hsub
  obtain ⟨hrange, rfl⟩ := u64Add_eq_ok.mp hadd
  exact ⟨hle, hrange, (pure_eq_ok.mp h).symm⟩

/-! ## Staging rows and their leases -/

/-- The lease of the staging rows in `ids` is set to `expiresAt`. -/
def renewed (ids : List String) (expiresAt : Time) (b : StorageBlob) : StorageBlob :=
  if b.id ∈ ids ∧ b.status = .staging then { b with stagingLeaseExpiresAt := some expiresAt } else b

/-- Renewing twice with one expiry is renewing the ids of both. -/
theorem renewed_renewed (xs ys : List String) (t : Time) (b : StorageBlob) :
    renewed ys t (renewed xs t b) = renewed (xs ++ ys) t b := by
  by_cases hs : b.status = .staging <;> by_cases hx : b.id ∈ xs <;> by_cases hy : b.id ∈ ys <;>
    simp [renewed, hs, hx, hy]

/-- Even when the loop stops early, some of the ids were renewed and nothing else happened. -/
theorem renewLeaseBatches_rewrites (expiresAt : Time) :
    ∀ (bs : List (List String)) (l : Ledger), ∃ ids,
      Rewrites l (renewed ids expiresAt) (renewLeaseBatches expiresAt l bs).1
        ∧ ((renewLeaseBatches expiresAt l bs).2 = .ok () → ids = bs.flatten) := by
  intro bs
  induction bs with
  | nil =>
      intro l
      exact ⟨[], (Rewrites.id l).congr fun b _ => by simp [renewed], fun _ => rfl⟩
  | cons batch rest ih =>
      intro l
      have hstep : Rewrites l (renewed batch expiresAt) (renewLeaseBatch l batch expiresAt) := by
        refine (rewrites_updateBlobs l _ _ _).congr fun b _ => ?_
        simp only [renewed, decide_eq_true_eq]
      rw [renewLeaseBatches]
      split
      · obtain ⟨ids, hr, hids⟩ := ih (renewLeaseBatch l batch expiresAt)
        refine ⟨batch ++ ids, (hstep.trans hr).congr fun b _ => renewed_renewed _ _ _ b, ?_⟩
        intro hok
        rw [hids hok, List.flatten_cons]
      · exact ⟨batch, hstep, fun h => nomatch h⟩

/-- The distinct ids are those of the call. -/
theorem leaseIDs_ok : ∀ (xs seen ids : List String), leaseIDs seen xs = .ok ids →
    ∀ x, x ∈ ids ∨ x ∈ seen ↔ x ∈ xs ∨ x ∈ seen := by
  intro xs
  induction xs with
  | nil =>
      intro seen ids h x
      cases h
      rfl
  | cons a rest ih =>
      intro seen ids h x
      rw [leaseIDs] at h
      split at h
      · exact nomatch h
      split at h
      · next hseen =>
          rw [ih seen ids h x, List.mem_cons]
          constructor
          · exact fun h => h.elim (fun h => Or.inl (Or.inr h)) Or.inr
          · rintro ((rfl | h) | h)
            · exact Or.inr hseen
            · exact Or.inl h
            · exact Or.inr h
      · obtain ⟨ids', hids', h⟩ := bind_eq_ok.mp h
        obtain rfl := pure_eq_ok.mp h
        have := ih (a :: seen) ids' hids' x
        simp only [List.mem_cons] at this ⊢
        constructor
        · intro h
          have := this.mp (by tauto)
          tauto
        · intro h
          have := this.mpr (by tauto)
          tauto

/-- `RenewStagingLease` renews some staging rows; when it succeeds, the given ones. -/
theorem renewStagingLease_rewrites (l : Ledger) (blobIDs : List String) (lease : Duration)
    (batchSize : Int) (now : Time) : ∃ ids,
      Rewrites l (renewed ids (now + lease)) (renewStagingLease l blobIDs lease batchSize now).1
        ∧ ((renewStagingLease l blobIDs lease batchSize now).2 = .ok () →
          ∀ id, id ∈ ids ↔ id ∈ blobIDs) := by
  have hnone : Rewrites l (renewed [] (now + lease)) l :=
    (Rewrites.id l).congr fun b _ => by simp [renewed]
  rw [renewStagingLease]
  split
  · next hnil => exact ⟨[], hnone, fun _ id => by rw [hnil]⟩
  split
  · exact ⟨[], hnone, fun h => nomatch h⟩
  split
  · exact ⟨[], hnone, fun h => nomatch h⟩
  next ids hids =>
  obtain ⟨ids', hr, hok⟩ := renewLeaseBatches_rewrites (now + lease)
    (batches (normalizeStorageBlobBatchSize batchSize) ids) l
  refine ⟨ids', hr, ?_⟩
  intro h id
  rw [hok h, flatten_batches (normalizeStorageBlobBatchSize_pos batchSize)]
  simpa using leaseIDs_ok blobIDs [] ids hids id

/-- A renewal that succeeds renews every row of the call. -/
theorem renewStagingLeaseTx_ok {blobIDs : List String} {lease : Duration} {batchSize : Int}
    {now : Time} (h : renewStagingLeaseTx l blobIDs lease batchSize now = .ok l') :
    Rewrites l (renewed blobIDs (now + lease)) l' := by
  rw [renewStagingLeaseTx] at h
  split at h
  · next l'' heq =>
      cases h
      obtain ⟨ids, hr, hok⟩ := renewStagingLease_rewrites l blobIDs lease batchSize now
      rw [heq] at hr hok
      exact hr.congr fun b _ => by simp only [renewed, hok rfl]
  · exact nomatch h

/-- Staging rows `blobs` were added under a lease until `expiresAt`, and `total`
    bytes reserved for them. -/
structure Staged (l : Ledger) (blobs : List StorageBlob) (total : Nat) (expiresAt : Time)
    (l' : Ledger) : Prop where
  quota : l'.quota = (withQuota l l.quota.usedBytes (l.quota.reservedBytes + total)).quota
  fits : 0 < total → l.quota.usedBytes + l.quota.reservedBytes + total ≤ l.quota.maxBytes
    ∧ l.quota.reservedBytes + total ≤ maxUint64
  jobs : l'.jobs = l.jobs
  nextJobID : l'.nextJobID = l.nextJobID
  rows : l'.blobs.rows =
    (l.blobs.rows ++ blobs).map (renewed (blobs.map (·.id)) expiresAt)
  unique : (l.blobs.rows ++ blobs).Pairwise fun a b => a.clash b = false

/-- A new row comes last, and nothing else changes. -/
theorem createBlob_ok {blob : StorageBlob} (h : l.createBlob blob = .ok l') :
    l'.quota = l.quota ∧ l'.jobs = l.jobs ∧ l'.nextJobID = l.nextJobID
      ∧ l'.blobs.rows = l.blobs.rows ++ [blob] := by
  rw [Ledger.createBlob] at h
  split at h
  · next blobs hins =>
      cases h
      exact ⟨rfl, rfl, rfl, (Table.insert?_eq_some.mp hins).2⟩
  · exact nomatch h

/-- Several new rows come last, in their order. -/
theorem createBlobsInBatches_ok {blobs : List StorageBlob} {n : Nat} (hn : 0 < n)
    (h : createBlobsInBatches l blobs n = .ok l') :
    l'.quota = l.quota ∧ l'.jobs = l.jobs ∧ l'.nextJobID = l.nextJobID
      ∧ l'.blobs.rows = l.blobs.rows ++ blobs := by
  rw [createBlobsInBatches, foldlM_batches hn] at h
  refine foldlM_along (P := fun xs m => m.quota = l.quota ∧ m.jobs = l.jobs
    ∧ m.nextJobID = l.nextJobID ∧ m.blobs.rows = l.blobs.rows ++ xs) ?_ ?_ h
  · exact ⟨rfl, rfl, rfl, (List.append_nil _).symm⟩
  · rintro xs blob m m' - ⟨hq, hj, hn, hrows⟩ hm
    obtain ⟨hq', hj', hn', hrows'⟩ := createBlob_ok hm
    exact ⟨hq'.trans hq, hj'.trans hj, hn'.trans hn, by rw [hrows', hrows, List.append_assoc]⟩

/-- The loop that adds up what a batch reserves. -/
theorem totalReserved_ok : ∀ (blobs : List StorageBlob) (total r : Nat),
    totalReserved total blobs = .ok r → r = total + (blobs.map (·.size)).sum := by
  intro blobs
  induction blobs with
  | nil =>
      intro total r h
      cases h
      rfl
  | cons blob rest ih =>
      intro total r h
      rw [totalReserved] at h
      split at h
      · exact nomatch h
      · rw [ih _ _ h, List.map_cons, List.sum_cons, Nat.add_assoc]

/-- One new staging row, with its lease. -/
theorem createStagingWithLease_ok {blob : StorageBlob} {lease : Duration} {now : Time}
    (h : createStagingWithLease l blob lease now = .ok l') :
    Staged l [blob] 0 (now + lease) l' := by
  rw [createStagingWithLease] at h
  obtain ⟨m, hm, h⟩ := bind_eq_ok.mp h
  obtain ⟨hq, hj, hn, hrows⟩ := createBlob_ok hm
  have hr := renewStagingLeaseTx_ok h
  exact ⟨hr.quota.trans hq, fun h => absurd h (Nat.lt_irrefl 0), hr.jobs.trans hj,
    hr.nextJobID.trans hn, by rw [hr.rows, hrows]; rfl, hrows ▸ m.blobs.unique⟩

/-- New staging rows, their bytes reserved. -/
theorem createStagingBatchWithLease_ok {blobs : List StorageBlob} {batchSize : Int}
    {lease : Duration} {now : Time}
    (h : createStagingBatchWithLease l blobs batchSize lease now = .ok l') :
    Staged l blobs (blobs.map (·.size)).sum (now + lease) l' := by
  rw [createStagingBatchWithLease] at h
  split at h
  · exact nomatch h
  next hlease =>
  rw [createStagingBatch] at h
  split at h
  · next hnil =>
      cases h
      rw [hnil]
      refine ⟨rfl, fun h => absurd h (Nat.lt_irrefl 0), rfl, rfl, ?_, ?_⟩
      · rw [List.append_nil]
        exact (List.map_id'' (fun b => by simp [renewed]) _).symm
      · rw [List.append_nil]
        exact l.blobs.unique
  obtain ⟨total, htotal, h⟩ := bind_eq_ok.mp h
  obtain ⟨m, hm, h⟩ := bind_eq_ok.mp h
  obtain ⟨k, hk, h⟩ := bind_eq_ok.mp h
  have htotal : total = (blobs.map (·.size)).sum := by simpa using totalReserved_ok _ _ _ htotal
  obtain ⟨hq, hj, hn, hrows⟩ := createBlobsInBatches_ok (normalizeStorageBlobBatchSize_pos _) hk
  have hr := renewStagingLeaseTx_ok h
  have hm' : m = withQuota l l.quota.usedBytes (l.quota.reservedBytes + total)
      ∧ (0 < total → l.quota.usedBytes + l.quota.reservedBytes + total ≤ l.quota.maxBytes
        ∧ l.quota.reservedBytes + total ≤ maxUint64) := by
    split at hm
    · obtain ⟨hmax, hrange, hm⟩ := reserveQuota_ok hm
      exact ⟨hm, fun _ => ⟨hmax, hrange⟩⟩
    · next hpos =>
        cases hm
        obtain rfl : total = 0 := by omega
        exact ⟨rfl, fun h => absurd h hpos⟩
  obtain ⟨rfl, hfits⟩ := hm'
  rw [← htotal]
  exact ⟨hr.quota.trans hq, hfits, hr.jobs.trans hj, hr.nextJobID.trans hn,
    by rw [hr.rows, hrows]; rfl, hrows ▸ k.blobs.unique⟩

/-- The staging row `blobID` grows by `bytes`. -/
def grown (blobID : String) (bytes : Nat) (b : StorageBlob) : StorageBlob :=
  if b.id = blobID ∧ b.status = .staging then { b with size := b.size + bytes } else b

/-- The row grows by what the quota reserved, or nothing was asked for. -/
theorem reserve_ok {blobID : String} {bytes : Nat} (h : reserve l blobID bytes = .ok l') :
    l' = l ∨ (0 < bytes
      ∧ (∃ b ∈ l.blobs.rows, b.id = blobID ∧ b.status = .staging ∧ b.size + bytes ≤ maxUint64)
      ∧ l.quota.usedBytes + l.quota.reservedBytes + bytes ≤ l.quota.maxBytes
      ∧ l.quota.reservedBytes + bytes ≤ maxUint64
      ∧ Rewrites (withQuota l l.quota.usedBytes (l.quota.reservedBytes + bytes))
          (grown blobID bytes) l') := by
  rw [reserve] at h
  split at h
  · cases h
    exact Or.inl rfl
  next hpos =>
  obtain ⟨blob, hblob, h⟩ := bind_eq_ok.mp h
  obtain ⟨m, hm, h⟩ := bind_eq_ok.mp h
  obtain ⟨size, hsize, h⟩ := bind_eq_ok.mp h
  obtain ⟨hmem, hp⟩ := Table.first?_eq_some (orElseThrow_eq_ok.mp hblob)
  obtain ⟨hid, hstaging⟩ : blob.id = blobID ∧ blob.status = .staging := by simpa using hp
  obtain ⟨hmax, hrange, rfl⟩ := reserveQuota_ok hm
  obtain ⟨hsizeRange, rfl⟩ := u64Add_eq_ok.mp hsize
  obtain rfl := pure_eq_ok.mp h
  refine Or.inr ⟨Nat.pos_of_ne_zero hpos, ⟨blob, hmem, hid, hstaging, hsizeRange⟩, hmax,
    hrange, ?_⟩
  refine (rewrites_updateBlobs _ _ _ _).congr fun b hb => ?_
  simp only [grown, decide_eq_true_eq]
  by_cases hmatch : b.id = blobID ∧ b.status = .staging
  · obtain rfl : b = blob := l.blobs.eq_of_clash hb hmem
      (StorageBlob.clash_of_id (hmatch.1.trans hid.symm))
    rfl
  · rw [if_neg hmatch, if_neg hmatch]

end LedgerSpecs
