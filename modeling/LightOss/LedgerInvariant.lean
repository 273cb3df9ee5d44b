import Mathlib.Data.Multiset.Filter
import Mathlib.Data.Multiset.Count
import LightOss.LedgerMoves

/-! # The ledger invariant — counters, rows, jobs and references agree

    What the ledger is for: `used_bytes` pays for the files at their final path,
    `reserved_bytes` for those that still have a staging path, an active blob has
    exactly as many references as metadata rows name its path, and a blob without
    references is on its way out through a cleanup job.  The invariant is stated
    against the multiset of references the metadata holds; every repository call
    keeps it and moves the multiset as its caller intends.

    `LedgerOk` gathers the parts: the two sums and their ranges, `RowOk` of every row,
    an owner for every reference, `JobsOk` and `PathsOk`.  The lemmas below say how
    each part fares under the few kinds of change that the calls are made of. -/

namespace LedgerInvariant

open KeyedTable Fallible LedgerRows BlobRepository LedgerSpecs LedgerMoves

/-- What a metadata row says about its file: storage path and size. -/
abbrev Reference := String × Int

/-- The number of references to a path. -/
def refCount (R : Multiset Reference) (path : String) : Nat := R.countP fun r => r.1 = path

theorem refCount_add (R S : Multiset Reference) (path : String) :
    refCount (R + S) path = refCount R path + refCount S path := Multiset.countP_add _ _ _

/-- A path with references is named by one. -/
theorem refCount_pos {R : Multiset Reference} {path : String} :
    0 < refCount R path ↔ ∃ r ∈ R, r.1 = path := Multiset.countP_pos

theorem refCount_eq_zero {R : Multiset Reference} {path : String} :
    refCount R path = 0 ↔ ∀ r ∈ R, r.1 ≠ path := Multiset.countP_eq_zero

/-- What the status of a row promises. -/
def RowOk (l : Ledger) (R : Multiset Reference) (b : StorageBlob) : Prop :=
  match b.status with
  | .staging =>
      b.hasStagingPath = true ∧ b.stagingLeaseExpiresAt.isSome = true ∧ b.refCount = 0
  | .active =>
      b.hasStagingPath = false ∧ b.stagingLeaseExpiresAt = none ∧ 0 < b.refCount
        ∧ b.refCount = refCount R b.storagePath ∧ ¬ HasJob l b.id
        ∧ ∀ r ∈ R, r.1 = b.storagePath → r.2 = b.size
  | .pendingDelete =>
      b.stagingLeaseExpiresAt = none ∧ b.refCount = 0 ∧ HasJob l b.id
  | .orphaned =>
      b.hasStagingPath = false ∧ b.stagingLeaseExpiresAt = none ∧ b.refCount = 0
        ∧ ¬ HasJob l b.id

/-- No two rows manage one path, and no final path is empty. -/
structure PathsOk (rows : List StorageBlob) : Prop where
  nonempty : ∀ b ∈ rows, b.storagePath ≠ ""
  final : ∀ b ∈ rows, b.hasStagingPath = true → ∀ c ∈ rows, b.stagingPath ≠ some c.storagePath
  staging : ∀ b ∈ rows, b.hasStagingPath = true → ∀ c ∈ rows, c.stagingPath = b.stagingPath → c = b

/-- Job ids are below the counter, and a job's blob is there, under the path that the job
    names. -/
structure JobsOk (l : Ledger) : Prop where
  fresh : ∀ j ∈ l.jobs.rows, j.id < l.nextJobID
  blob : ∀ j ∈ l.jobs.rows, ∃ b ∈ l.blobs.rows, b.id = j.blobID ∧ b.storagePath = j.storagePath

/-- **The ledger invariant**, against the references `R` of the metadata. -/
structure LedgerOk (l : Ledger) (R : Multiset Reference) : Prop where
  used : l.quota.usedBytes = l.blobs.sum (·.usedSize)
  reserved : l.quota.reservedBytes = l.blobs.sum (·.reservedSize)
  usedRange : l.quota.usedBytes ≤ maxUint64
  reservedRange : l.quota.reservedBytes ≤ maxUint64
  rows : ∀ b ∈ l.blobs.rows, RowOk l R b
  owned : ∀ r ∈ R, ∃ b ∈ l.blobs.rows, b.status = .active ∧ b.storagePath = r.1
  jobs : JobsOk l
  paths : PathsOk l.blobs.rows

theorem ledgerOk_migrated : LedgerOk Ledger.migrated 0 where
  used := rfl
  reserved := rfl
  usedRange := Nat.zero_le _
  reservedRange := Nat.zero_le _
  rows := by simp [Ledger.migrated]
  owned := by simp
  jobs := ⟨by simp [Ledger.migrated], by simp [Ledger.migrated]⟩
  paths := ⟨by simp [Ledger.migrated], by simp [Ledger.migrated], by simp [Ledger.migrated]⟩

/-! ## Reading a row -/

section Rows

variable {l l' : Ledger} {R R' : Multiset Reference} {b : StorageBlob}

/-- A staging row has a lease and no reference. -/
theorem rowOk_staging (h : b.status = .staging) : RowOk l R b ↔
    b.hasStagingPath = true ∧ b.stagingLeaseExpiresAt.isSome = true ∧ b.refCount = 0 := by
  rw [RowOk, h]

/-- An active row has as many references as the metadata names, of its own size, and no job. -/
theorem rowOk_active (h : b.status = .active) : RowOk l R b ↔
    b.hasStagingPath = false ∧ b.stagingLeaseExpiresAt = none ∧ 0 < b.refCount
      ∧ b.refCount = refCount R b.storagePath ∧ ¬ HasJob l b.id
      ∧ ∀ r ∈ R, r.1 = b.storagePath → r.2 = b.size := by
  rw [RowOk, h]

/-- A row that waits for its deletion has a job. -/
theorem rowOk_pendingDelete (h : b.status = .pendingDelete) : RowOk l R b ↔
    b.stagingLeaseExpiresAt = none ∧ b.refCount = 0 ∧ HasJob l b.id := by
  rw [RowOk, h]

/-- An orphan has neither lease nor reference nor job. -/
theorem rowOk_orphaned (h : b.status = .orphaned) : RowOk l R b ↔
    b.hasStagingPath = false ∧ b.stagingLeaseExpiresAt = none ∧ b.refCount = 0
      ∧ ¬ HasJob l b.id := by
  rw [RowOk, h]

/-- A row that is not active does not look at the references. -/
theorem RowOk.of_inactive (h : RowOk l R b) (hs : b.status ≠ .active)
    (hjob : HasJob l' b.id ↔ HasJob l b.id) : RowOk l' R' b := by
  cases hst : b.status with
  | active => exact absurd hst hs
  | staging => exact (rowOk_staging hst).mpr ((rowOk_staging hst).mp h)
  | pendingDelete =>
      obtain ⟨h1, h2, h3⟩ := (rowOk_pendingDelete hst).mp h
      exact (rowOk_pendingDelete hst).mpr ⟨h1, h2, hjob.mpr h3⟩
  | orphaned =>
      obtain ⟨h1, h2, h3, h4⟩ := (rowOk_orphaned hst).mp h
      exact (rowOk_orphaned hst).mpr ⟨h1, h2, h3, fun hj => h4 (hjob.mp hj)⟩

/-- A row looks at the jobs only for its own. -/
theorem RowOk.of_jobs (h : RowOk l R b) (hjob : HasJob l' b.id ↔ HasJob l b.id) :
    RowOk l' R b := by
  by_cases hs : b.status = .active
  · obtain ⟨h1, h2, h3, h4, h5, h6⟩ := (rowOk_active hs).mp h
    exact (rowOk_active hs).mpr ⟨h1, h2, h3, h4, fun hj => h5 (hjob.mp hj), h6⟩
  · exact h.of_inactive hs hjob

/-- An active row keeps its promise while the references to its path stay. -/
theorem RowOk.of_refs (h : RowOk l R b) (hjob : HasJob l' b.id ↔ HasJob l b.id)
    (hrefs : b.status = .active → ∀ r, r.1 = b.storagePath → (r ∈ R' ↔ r ∈ R))
    (hcount : b.status = .active → refCount R' b.storagePath = refCount R b.storagePath) :
    RowOk l' R' b := by
  by_cases hs : b.status = .active
  · obtain ⟨h1, h2, h3, h4, h5, h6⟩ := (rowOk_active hs).mp h
    exact (rowOk_active hs).mpr ⟨h1, h2, h3, h4.trans (hcount hs).symm,
      fun hj => h5 (hjob.mp hj), fun r hr hp => h6 r ((hrefs hs r hp).mp hr) hp⟩
  · exact h.of_inactive hs hjob

theorem RowOk.refCount_pos_iff (h : RowOk l R b) : 0 < b.refCount ↔ b.status = .active := by
  cases hst : b.status with
  | active => exact iff_of_true ((rowOk_active hst).mp h).2.2.1 rfl
  | staging => simp [((rowOk_staging hst).mp h).2.2]
  | pendingDelete => simp [((rowOk_pendingDelete hst).mp h).2.1]
  | orphaned => simp [((rowOk_orphaned hst).mp h).2.2.1]

/-- Only active rows have references. -/
theorem LedgerOk.refs_of_inactive (h : LedgerOk l R) (hb : b ∈ l.blobs.rows)
    (hs : b.status ≠ .active) : ∀ r ∈ R, r.1 ≠ b.storagePath := by
  intro r hr hp
  obtain ⟨c, hc, hact, hpath⟩ := h.owned r hr
  have hbc := l.blobs.eq_of_clash hc hb (StorageBlob.clash_of_path (hpath.trans hp))
  exact hs (hbc ▸ hact)

/-- In every state the counter of a row is what the metadata names. -/
theorem LedgerOk.refCount_of_mem (h : LedgerOk l R) (hb : b ∈ l.blobs.rows) :
    b.refCount = refCount R b.storagePath := by
  by_cases hs : b.status = .active
  · exact ((rowOk_active hs).mp (h.rows b hb)).2.2.2.1
  · rw [refCount_eq_zero.mpr (h.refs_of_inactive hb hs)]
    have := (h.rows b hb).refCount_pos_iff
    by_contra hne
    exact hs (this.mp (Nat.pos_of_ne_zero hne))

end Rows

/-! ## Frame lemmas for paths and jobs -/

section Frames

variable {l l' m : Ledger} {g : StorageBlob → StorageBlob}

/-- `g` keeps the key columns and at most clears the staging path. -/
def KeepsPaths (g : StorageBlob → StorageBlob) : Prop :=
  ∀ b, (g b).id = b.id ∧ (g b).storagePath = b.storagePath
    ∧ ((g b).stagingPath = b.stagingPath ∨ (g b).stagingPath = none)

/-- Rows that keep their paths stay apart. -/
theorem PathsOk.map {rows : List StorageBlob} (h : PathsOk rows) (hg : KeepsPaths g) :
    PathsOk (rows.map g) := by
  -- a staging path of the image was there before
  have hstaging : ∀ b, (g b).hasStagingPath = true →
      b.hasStagingPath = true ∧ (g b).stagingPath = b.stagingPath := by
    intro b hb
    rcases (hg b).2.2 with heq | hnone
    · rw [StorageBlob.hasStagingPath, heq] at hb
      exact ⟨hb, heq⟩
    · rw [StorageBlob.hasStagingPath, hnone] at hb
      exact nomatch hb
  refine ⟨?_, ?_, ?_⟩
  · intro b hb
    obtain ⟨a, ha, rfl⟩ := List.mem_map.mp hb
    rw [(hg a).2.1]
    exact h.nonempty a ha
  · intro b hb hs c hc
    obtain ⟨a, ha, rfl⟩ := List.mem_map.mp hb
    obtain ⟨d, hd, rfl⟩ := List.mem_map.mp hc
    obtain ⟨hs', heq⟩ := hstaging a hs
    rw [heq, (hg d).2.1]
    exact h.final a ha hs' d hd
  · intro b hb hs c hc hbc
    obtain ⟨a, ha, rfl⟩ := List.mem_map.mp hb
    obtain ⟨d, hd, rfl⟩ := List.mem_map.mp hc
    obtain ⟨hs', heq⟩ := hstaging a hs
    rcases (hg d).2.2 with hsame | hnone
    · rw [h.staging a ha hs' d hd (hsame.symm.trans (hbc.trans heq))]
    · rw [hnone, heq] at hbc
      rw [StorageBlob.hasStagingPath, ← hbc] at hs'
      exact nomatch hs'

theorem PathsOk.sublist {rows rows' : List StorageBlob} (h : PathsOk rows)
    (hsub : ∀ b ∈ rows', b ∈ rows) : PathsOk rows' :=
  ⟨fun b hb => h.nonempty b (hsub b hb),
    fun b hb hs c hc => h.final b (hsub b hb) hs c (hsub c hc),
    fun b hb hs c hc => h.staging b (hsub b hb) hs c (hsub c hc)⟩

/-- The jobs are untouched and the rows keep their keys. -/
theorem JobsOk.map (h : JobsOk l) (hjobs : l'.jobs = l.jobs) (hnext : l'.nextJobID = l.nextJobID)
    (hrows : ∀ b ∈ l.blobs.rows, ∃ b' ∈ l'.blobs.rows,
      b'.id = b.id ∧ b'.storagePath = b.storagePath) : JobsOk l' := by
  refine ⟨fun j hj => hnext ▸ h.fresh j (hjobs ▸ hj), ?_⟩
  intro j hj
  obtain ⟨b, hb, hid, hpath⟩ := h.blob j (hjobs ▸ hj)
  obtain ⟨b', hb', hid', hpath'⟩ := hrows b hb
  exact ⟨b', hb', hid'.trans hid, hpath'.trans hpath⟩

theorem JobsOk.withQuota (h : JobsOk l) (used reserved : Nat) :
    JobsOk (withQuota l used reserved) := ⟨h.fresh, h.blob⟩

/-- Rows that keep id and path keep their jobs. -/
theorem JobsOk.rewrites (h : JobsOk l) (hr : Rewrites l g l') (hg : KeepsPaths g) : JobsOk l' :=
  h.map hr.jobs hr.nextJobID fun b hb =>
    ⟨g b, hr.mem.mpr ⟨b, hb, rfl⟩, (hg b).1, (hg b).2.1⟩

theorem hasJob_of_jobs (hjobs : l'.jobs = l.jobs) (id : String) : HasJob l' id ↔ HasJob l id := by
  rw [HasJob, HasJob, hjobs]

theorem JobsOk.enqueued {jobs : List StorageCleanupJob} (h : JobsOk l) (he : Enqueued l jobs l')
    (hpaths : ∀ n ∈ jobs, ∀ b ∈ l.blobs.rows, b.id = n.blobID → b.storagePath = n.storagePath) :
    JobsOk l' := by
  constructor
  · intro j' hj'
    rcases he.origin j' hj' with hj | ⟨-, ⟨j, hj, hid, -⟩ | ⟨-, hlt, -⟩⟩
    · exact Nat.lt_of_lt_of_le (h.fresh j' hj) he.nextJobID
    · rw [hid]
      exact Nat.lt_of_lt_of_le (h.fresh j hj) he.nextJobID
    · exact hlt
  · intro j' hj'
    rw [he.blobs]
    have hnew : ∀ n ∈ jobs, n.blobID = j'.blobID → n.storagePath = j'.storagePath →
        ∃ b ∈ l.blobs.rows, b.id = j'.blobID ∧ b.storagePath = j'.storagePath := by
      intro n hn hblob hpath
      obtain ⟨b, hb, hid⟩ := he.foreign n hn
      exact ⟨b, hb, hid.trans hblob, (hpaths n hn b hb hid).trans hpath⟩
    rcases he.origin j' hj' with hj | ⟨-, ⟨j, hj, -, hblob, hpath⟩ | ⟨-, -, n, hn, hb, hp⟩⟩
    · exact h.blob j' hj
    · rcases hpath with heq | ⟨n, hn, hb, hp⟩
      · obtain ⟨b, hb, hid, hbp⟩ := h.blob j hj
        exact ⟨b, hb, hid.trans hblob.symm, hbp.trans heq.symm⟩
      · exact hnew n hn hb hp
    · exact hnew n hn hb hp

/-- The jobs of a deleted row go with it. -/
theorem JobsOk.dropped {p : StorageBlob → Bool} (h : JobsOk l) (hd : Dropped l p l') :
    JobsOk l' := by
  constructor
  · intro j hj
    rw [hd.nextJobID]
    exact h.fresh j (hd.mem_jobs.mp hj).1
  · intro j hj
    obtain ⟨hmem, hkept⟩ := hd.mem_jobs.mp hj
    obtain ⟨b, hb, hid, hpath⟩ := h.blob j hmem
    refine ⟨b, hd.mem_rows.mpr ⟨hb, ?_⟩, hid, hpath⟩
    cases hp : p b with
    | false => rfl
    | true => exact absurd hid (hkept b hb hp)

/-- A row that stays keeps its job. -/
theorem hasJob_dropped {p : StorageBlob → Bool} (hd : Dropped l p l') {b : StorageBlob}
    (hb : b ∈ l'.blobs.rows) : HasJob l' b.id ↔ HasJob l b.id := by
  obtain ⟨hmem, hp⟩ := hd.mem_rows.mp hb
  constructor
  · rintro ⟨j, hj, hid⟩
    exact ⟨j, (hd.mem_jobs.mp hj).1, hid⟩
  · rintro ⟨j, hj, hid⟩
    refine ⟨j, hd.mem_jobs.mpr ⟨hj, ?_⟩, hid⟩
    intro c hc hpc heq
    rw [l.blobs.eq_of_clash hc hmem (StorageBlob.clash_of_id (heq.trans hid)), hp] at hpc
    exact nomatch hpc

/-- Leases and retries do not move a job to another blob. -/
theorem jobsOk_touched (h : JobsOk l) (ht : JobsTouched l l') :
    JobsOk l' ∧ ∀ id, HasJob l' id ↔ HasJob l id := by
  obtain ⟨g, hrows, hg⟩ := ht.rows
  refine ⟨⟨?_, ?_⟩, ?_⟩
  · intro j' hj'
    obtain ⟨j, hj, rfl⟩ := List.mem_map.mp (hrows ▸ hj')
    rw [(hg j).1, ht.nextJobID]
    exact h.fresh j hj
  · intro j' hj'
    obtain ⟨j, hj, rfl⟩ := List.mem_map.mp (hrows ▸ hj')
    rw [(hg j).2.1, (hg j).2.2, ht.blobs]
    exact h.blob j hj
  · intro id
    constructor
    · rintro ⟨j', hj', hid⟩
      obtain ⟨j, hj, rfl⟩ := List.mem_map.mp (hrows ▸ hj')
      exact ⟨j, hj, (hg j).2.1.symm.trans hid⟩
    · rintro ⟨j, hj, hid⟩
      exact ⟨g j, hrows ▸ List.mem_map_of_mem hj, (hg j).2.1.trans hid⟩

end Frames

end LedgerInvariant
