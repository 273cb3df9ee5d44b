import LightOss.StorageAudit
import LightOss.LedgerPreserved
import LightOss.LedgerEvolution

/-! # The publish lifecycle — one transaction, and the one that asks what became of it

    `Publish` activates the staged blobs, lets the service write its metadata and
    drops the references the service gave up, all in one transaction (`Published`,
    `publishTransaction_ok`).  When that transaction reports an error,
    `confirmPublishOutcome` infers from the rows whether it took effect, and seals the
    blobs when it did not (`confirmPublishOutcome_ok`). -/

namespace PublishLifecycle

open KeyedTable Fallible LedgerRows BlobRepository LedgerSpecs LedgerMoves LedgerEvolution
open LedgerInvariant Catalog MetadataServices MetadataReferences StorageAudit

variable {k : Collation}

/-- How many ledger rows one statement writes. -/
def blobLedgerWriteBatchSize : Int := 100

/-- What `Publish` asks the ledger for. -/
def activationsOf (stagedBlobs : List StagedBlob) : List StorageBlobActivation :=
  stagedBlobs.map fun staged => { id := staged.id, actualSize := staged.size }

/-- The transaction of `Publish`. -/
def publishTransaction (db : Database k) (stagedBlobs : List StagedBlob)
    (publishMetadata : Callback k) (now : Time) : Except Err (Database k) := do
  let ledger ← activateStagingBatch db.ledger (activationsOf stagedBlobs) blobLedgerWriteBatchSize
  let (catalog, releasedPaths) ← publishMetadata db.catalog
  let ledger ← (if 0 < releasedPaths.length then
      releaseReferences ledger releasedPaths now blobLedgerWriteBatchSize
    else .ok ledger)
  return { catalog := catalog, ledger := ledger }

/-! ## `confirmPublishOutcome` -/

/-- What `confirmPublishOutcome` may find. -/
inductive PublishOutcome where
  | publishOutcomeRolledBack
  | publishOutcomeCommitted
  deriving DecidableEq

/-- Every staged blob has an id, and no two have the same. -/
def checkIdentities : List String → List StagedBlob → Except Err Unit
  | _, [] => .ok ()
  | seen, staged :: rest =>
      if staged.id = "" then .error (.errorf "staged blob identity is missing")
      else if staged.id ∈ seen then .error (.errorf s!"staged blob {staged.id} is duplicated")
      else checkIdentities (staged.id :: seen) rest

/-- The row of a published handle. -/
def committed (expected : StagedBlob) (blob : StorageBlob) : Bool :=
  decide (blob.status = .active ∧ blob.storagePath = expected.storagePath
    ∧ blob.size = expected.size ∧ blob.refCount = 1 ∧ blob.stagingPath = none)

/-- The row of a handle that is still staged. -/
def rolledBack (expected : StagedBlob) (blob : StorageBlob) : Bool :=
  decide (blob.status = .staging ∧ blob.storagePath = expected.storagePath
    ∧ blob.stagingPath = some expected.stagingPath ∧ blob.refCount = 0)

/-- `allCommitted` and `allRolledBack`; a blob that is missing is neither. -/
def allBlobs (test : StagedBlob → StorageBlob → Bool) (blobs : List StorageBlob)
    (stagedBlobs : List StagedBlob) : Bool :=
  stagedBlobs.all fun staged =>
    ((blobs.find? fun b => b.id == staged.id).map (test staged)).getD false

/-- The job for a file whose publication did not take effect. -/
def rolledBackJob (now : Time) (staged : StagedBlob) : StorageCleanupJob where
  blobID := staged.id
  storagePath := staged.storagePath
  nextRetryAt := now
  lastError := "storage publish transaction rolled back"

/-- An error is `publishOutcomeUnknown`, and leaves the ledger as it was. -/
def confirmPublishOutcome (l : Ledger) (stagedBlobs : List StagedBlob) (now : Time) :
    Except Err (PublishOutcome × Ledger) := do
  checkIdentities [] stagedBlobs
  let ids := stagedBlobs.map (·.id)
  let blobs := findBlobsByID l ids 100
  ensure (blobs.length = ids.length)
    (.errorf "storage publish confirmation is missing blob rows")
  if allBlobs committed blobs stagedBlobs then return (.publishOutcomeCommitted, l)
  else if allBlobs rolledBack blobs stagedBlobs then do
    let l ← sealStagingForCleanupBatch l ids blobLedgerWriteBatchSize
    let l ← enqueueCleanupBatch l (stagedBlobs.map (rolledBackJob now)) blobLedgerWriteBatchSize
    return (.publishOutcomeRolledBack, l)
  else .error (.errorf "storage publish confirmation found mixed blob states")

/-! ## What the transaction did -/

section Transaction

variable {db db' : Database k} {stagedBlobs : List StagedBlob} {f : Callback k} {now : Time}

/-- Everything a successful publication did. -/
structure Published (db : Database k) (stagedBlobs : List StagedBlob) (f : Callback k)
    (found : List StorageBlob) (m : Ledger) (releasedPaths : List String) (db' : Database k) :
    Prop where
  activation : Activation db.ledger (activationsOf stagedBlobs) found m
  metadata : f db.catalog = .ok (db'.catalog, releasedPaths)
  released : Released m releasedPaths db'.ledger

theorem releaseReferences_nil (l : Ledger) (now : Time) (batchSize : Int) :
    releaseReferences l [] now batchSize = .ok l := by
  rw [releaseReferences, if_pos]
  simp [sortedStoragePaths]

/-- A publication that commits went through its three parts. -/
theorem publishTransaction_ok (h : publishTransaction db stagedBlobs f now = .ok db') :
    ∃ found m releasedPaths, Published db stagedBlobs f found m releasedPaths db' := by
  rw [publishTransaction] at h
  obtain ⟨m, hm, h⟩ := bind_eq_ok.mp h
  obtain ⟨⟨catalog, releasedPaths⟩, hf, h⟩ := bind_eq_ok.mp h
  obtain ⟨ledger, hledger, h⟩ := bind_eq_ok.mp h
  obtain ⟨found, ha⟩ := activateStagingBatch_ok hm
  cases pure_eq_ok.mp h
  refine ⟨found, m, releasedPaths, ha, hf, ?_⟩
  by_cases hlen : 0 < releasedPaths.length
  · exact releaseReferences_ok ((if_pos hlen).symm.trans hledger)
  · have hnil := List.length_eq_zero_iff.mp (Nat.eq_zero_of_not_pos hlen)
    rw [hnil]
    have heq : m = ledger := Except.ok.inj ((if_neg hlen).symm.trans hledger)
    exact heq ▸ releaseReferences_ok (releaseReferences_nil m now blobLedgerWriteBatchSize)

/-- The references of the staged files: path and `int64(Size)`. -/
def stagedRefs (stagedBlobs : List StagedBlob) : Multiset Reference :=
  ↑(stagedBlobs.map fun staged => (staged.storagePath, int64 staged.size))

theorem int64_of_lt {n : Nat} (h : n < 2 ^ 63) : int64 n = n := by
  have hmod : n % 2 ^ 64 = n := Nat.mod_eq_of_lt (by omega)
  rw [int64, hmod, if_pos h]

/-- The rows of the handles are those `Stage` created, with sizes that fit an `int64`. -/
structure HandlesOk (l : Ledger) (stagedBlobs : List StagedBlob) : Prop where
  path : ∀ s ∈ stagedBlobs, ∀ b ∈ l.blobs.rows, b.id = s.id → b.storagePath = s.storagePath
  size : ∀ s ∈ stagedBlobs, s.size < 2 ^ 63
  nojob : ∀ s ∈ stagedBlobs, ∀ b ∈ l.blobs.rows, b.id = s.id → b.status = .staging →
    ¬ HasJob l b.id

/-- The references that activation counts are those of the handles. -/
theorem publishedRefs_eq {l m : Ledger} {found : List StorageBlob} (hh : HandlesOk l stagedBlobs)
    (ha : Activation l (activationsOf stagedBlobs) found m) :
    publishedRefs (activationsOf stagedBlobs) found = stagedRefs stagedBlobs := by
  have hids := ha.ids
  have hsizes := ha.sizes
  rw [activationsOf, List.map_map] at hids hsizes
  have hlen : found.length = stagedBlobs.length := by
    have := congrArg List.length hids
    rwa [List.length_map, List.length_map] at this
  have hlists :
    found.map (fun b => (b.storagePath, (activatedSize (activationsOf stagedBlobs) b : Int)))
      = stagedBlobs.map fun s => (s.storagePath, int64 s.size) := ?_
  · rw [publishedRefs, stagedRefs, hlists]
  refine List.ext_getElem (by simpa using hlen) fun i h1 h2 => ?_
  rw [List.length_map] at h1 h2
  have hid : found[i].id = stagedBlobs[i].id := by
    have := List.getElem_of_eq hids (i := i) (by simpa using h1)
    simpa using this
  have hsize : activatedSize (activationsOf stagedBlobs) found[i] = stagedBlobs[i].size := by
    have := List.getElem_of_eq hsizes (i := i) (by simpa using h1)
    simpa [activationsOf] using this
  have hmem := List.getElem_mem h2
  rw [List.getElem_map, List.getElem_map, hsize, int64_of_lt (hh.size _ hmem),
    hh.path _ hmem _ (ha.staging _ (List.getElem_mem h1)).1 hid]

/-- **A publication keeps the ledger invariant.** -/
theorem ledgerOk_published {found : List StorageBlob} {m : Ledger} {releasedPaths : List String}
    (h : LedgerOk db.ledger (references db.catalog)) (hh : HandlesOk db.ledger stagedBlobs)
    (hf : Disciplined f (stagedRefs stagedBlobs))
    (hp : Published db stagedBlobs f found m releasedPaths db') :
    LedgerOk db'.ledger (references db'.catalog) := by
  obtain ⟨D, hrefs, hD⟩ := hf _ _ _ hp.metadata
  have hnojob : ∀ b ∈ found, ¬ HasJob db.ledger b.id := by
    intro b hb
    obtain ⟨hmem, hst⟩ := hp.activation.staging b hb
    have hid : b.id ∈ (activationsOf stagedBlobs).map (·.id) :=
      hp.activation.ids ▸ List.mem_map_of_mem hb
    rw [activationsOf, List.map_map] at hid
    obtain ⟨s, hs, hsid⟩ := List.mem_map.mp hid
    exact hh.nojob s hs b hmem hsid.symm hst
  have hact := h.activated hp.activation hnojob
  rw [publishedRefs_eq hh hp.activation, ← hrefs] at hact
  exact hact.released hD hp.released

/-- A publication evolves the rows in two moves. -/
theorem evolution_published {found : List StorageBlob} {m : Ledger} {releasedPaths : List String}
    (hp : Published db stagedBlobs f found m releasedPaths db') :
    Evolution { activations := activationsOf stagedBlobs } db.ledger m
      ∧ Evolution {} m db'.ledger :=
  ⟨evolution_activation hp.activation, evolution_released hp.released⟩

end Transaction

/-! ## What the confirmation did -/

section Confirmation

variable {l l' : Ledger} {stagedBlobs : List StagedBlob} {now : Time}

/-- The test held for the row of every handle. -/
theorem allBlobs_ok {test : StagedBlob → StorageBlob → Bool} {ids : List String}
    (h : allBlobs test (findBlobsByID l ids 100) stagedBlobs = true) :
    ∀ s ∈ stagedBlobs, ∃ b ∈ l.blobs.rows, b.id = s.id ∧ test s b = true := by
  intro s hs
  have hone := List.all_eq_true.mp h s hs
  cases hf : (findBlobsByID l ids 100).find? fun b => b.id == s.id with
  | none => rw [hf] at hone; exact nomatch hone
  | some b =>
      rw [hf] at hone
      have hid := List.find?_some hf
      exact ⟨b, mem_findBlobsByID (List.mem_of_find?_eq_some hf), beq_iff_eq.mp hid, hone⟩

/-- Every handle has its row, and all rows are as the transaction left them. -/
def AllRows (test : StagedBlob → StorageBlob → Bool) (l : Ledger)
    (stagedBlobs : List StagedBlob) : Prop :=
  ∀ s ∈ stagedBlobs, ∃ b ∈ l.blobs.rows, b.id = s.id ∧ test s b = true

/-- The rows that a confirmation seals. -/
def unpublished (ids : List String) (b : StorageBlob) : Bool :=
  decide (b.id ∈ ids ∧ b.status = .staging ∧ b.refCount = 0)

/-- A confirmation that is certain: nothing changes when everything is committed; when
    everything is still staging, all of it is sealed with its job. -/
theorem confirmPublishOutcome_ok {outcome : PublishOutcome}
    (h : confirmPublishOutcome l stagedBlobs now = .ok (outcome, l')) :
    (outcome = .publishOutcomeCommitted ∧ l' = l ∧ AllRows committed l stagedBlobs)
      ∨ (outcome = .publishOutcomeRolledBack ∧ AllRows rolledBack l stagedBlobs
        ∧ Sealed l (unpublished (stagedBlobs.map (·.id)))
            (stagedBlobs.map (rolledBackJob now)) l') := by
  rw [confirmPublishOutcome] at h
  obtain ⟨_, -, h⟩ := bind_eq_ok.mp h
  obtain ⟨_, -, h⟩ := bind_eq_ok.mp h
  by_cases hcommitted :
    allBlobs committed (findBlobsByID l (stagedBlobs.map (·.id)) 100) stagedBlobs
      = true
  -- every row is published: the confirmation only reads
  · cases pure_eq_ok.mp ((if_pos hcommitted).symm.trans h)
    exact Or.inl ⟨rfl, rfl, allBlobs_ok hcommitted⟩
  replace h := (if_neg hcommitted).symm.trans h
  by_cases hrolled : allBlobs rolledBack (findBlobsByID l (stagedBlobs.map (·.id)) 100) stagedBlobs
      = true
  · replace h := (if_pos hrolled).symm.trans h
    obtain ⟨m, hm, h⟩ := bind_eq_ok.mp h
    obtain ⟨l₂, hl₂, h⟩ := bind_eq_ok.mp h
    cases pure_eq_ok.mp h
    have hrows := allBlobs_ok hrolled
    -- every row is still staged: they are sealed, each with its job
    have hjobs : Enqueued m (stagedBlobs.map (rolledBackJob now)) l' := by
      refine enqueueCleanupBatch_ok (fun j hj => ?_) hl₂
      obtain ⟨s, -, rfl⟩ := List.mem_map.mp hj
      rfl
    refine Or.inr ⟨rfl, hrows, ?_, ?_, ?_, m, ?_, hjobs⟩
    · intro b _ hp
      exact (of_decide_eq_true hp).2.1
    · intro b _ hp
      obtain ⟨s, hs, hid⟩ := List.mem_map.mp (of_decide_eq_true hp).1
      exact List.mem_map.mpr ⟨rolledBackJob now s, List.mem_map_of_mem hs, hid⟩
    · intro n hn
      obtain ⟨s, hs, rfl⟩ := List.mem_map.mp hn
      obtain ⟨b, hb, hid, htest⟩ := hrows s hs
      obtain ⟨hst, hpath, -, hcount⟩ := of_decide_eq_true htest
      refine ⟨b, hb, decide_eq_true ⟨?_, hst, hcount⟩, hid, hpath⟩
      exact hid ▸ List.mem_map_of_mem hs
    · refine (sealStagingForCleanupBatch_ok hm).congr fun b _ => ?_
      rw [sealedIn, unpublished]
      simp only [decide_eq_true_eq]
  -- anything in between is reported as unknown
  · have hfailed := (if_neg hrolled).symm.trans h
    cases hfailed

end Confirmation

end PublishLifecycle
