import LightOss.MetadataReferences

/-! # The storage audit — `ValidateAndMarkReconciled`

    The audit recomputes everything the ledger claims from the rows: every managed
    path has one owner, every reference names an active blob of its size, every job
    a blob of its path, every status keeps its promise, and both counters are the
    sums of the sizes they pay for.  The ledger invariant is exactly strong enough
    that the audit passes (`validateAndMarkReconciled_ok`), one lemma for each of its
    loops: `checkManagedPaths_ok`, `checkReference_ok`, `checkCleanupJob_ok` and
    `expectBlobs_ok`. -/

namespace StorageAudit

open KeyedTable Fallible LedgerRows Catalog MetadataServices LedgerSpecs LedgerInvariant
open MetadataReferences

variable {k : Collation}

/-- The whole database: metadata and ledger. -/
structure Database (k : Collation) where
  catalog : Tables k := {}
  ledger : Ledger

/-- The freshly migrated database. -/
def Database.migrated (k : Collation) : Database k := { ledger := Ledger.migrated }

/-! ## The queries of the audit -/

/-- One row of the query that groups the references by path. -/
structure StorageReferenceCount where
  storagePath : String
  referenceCount : Nat
  minimumSize : Int
  maximumSize : Int

/-- The `UNION ALL` of the two metadata tables. -/
def storageReferences (c : Tables k) : List Reference :=
  ((c.objects.rows.map fun o => (o.storagePath, o.size)).filter fun r => r.1 != "")
    ++ (c.recycleBin.rows.map fun r => (r.storagePath, r.size)).filter fun r => r.1 != ""

/-- The sizes under which a path is referenced. -/
def sizesOf (references : List Reference) (path : String) : List Int :=
  (references.filter fun r => r.1 == path).map (·.2)

/-- One group of `GROUP BY storage_path`. -/
def referenceGroup (references : List Reference) (path : String) : StorageReferenceCount where
  storagePath := path
  referenceCount := (sizesOf references path).length
  minimumSize := (sizesOf references path).min?.getD 0
  maximumSize := (sizesOf references path).max?.getD 0

/-- `storageReferenceCounts`: the references of both tables by path, with the smallest and
    the largest size. -/
def storageReferenceCounts (c : Tables k) : List StorageReferenceCount :=
  ((((storageReferences c).map (·.1)).dedup).mergeSort fun a b => decide (a ≤ b)).map
    (referenceGroup (storageReferences c))

/-! ## The checks, in the order of the code -/

/-- `managedPaths[path] = blobID`, unless the path has an owner. -/
def claimPath (managedPaths : List (String × String)) (path blobID : String) :
    Except Err (List (String × String)) :=
  match managedPaths.find? fun entry => entry.1 == path with
  | some (_, ownerID) =>
      .error (.errorf s!"managed storage path {path} belongs to blobs {ownerID} and {blobID}")
  | none => .ok ((path, blobID) :: managedPaths)

/-- The second path of a blob, if it has one. -/
def claimStagingPath (managedPaths : List (String × String)) (blob : StorageBlob) :
    Except Err (List (String × String)) :=
  match blob.stagingPath with
  | none => .ok managedPaths
  | some path => if path = "" then .ok managedPaths else claimPath managedPaths path blob.id

/-- The loop that gives every managed path to one blob. -/
def checkManagedPaths : List (String × String) → List StorageBlob → Except Err Unit
  | _, [] => .ok ()
  | managedPaths, blob :: rest => do
      ensure (blob.storagePath ≠ "")
        (.errorf s!"storage blob {blob.id} has an empty storage path")
      let managedPaths ← claimPath managedPaths blob.storagePath blob.id
      let managedPaths ← claimStagingPath managedPaths blob
      checkManagedPaths managedPaths rest

/-- The paths are unique, so the map `blobsByPath` is a search. -/
def checkReference (blobs : List StorageBlob) (reference : StorageReferenceCount) :
    Except Err Unit := do
  let blob ← orElseThrow (blobs.find? fun b => b.storagePath == reference.storagePath)
    (.errorf
      s!"storage reference path {reference.storagePath} has no storage blob ledger entry")
  ensure (blob.status = .active)
    (.errorf s!"storage blob {blob.id} in status {blob.status.text} has {reference.referenceCount} metadata references")
  ensure (¬ (reference.minimumSize < 0 ∨ reference.maximumSize < 0
      ∨ reference.minimumSize ≠ reference.maximumSize
      ∨ reference.maximumSize.toNat ≠ blob.size))
    (.errorf s!"storage blob {blob.id} ledger size {blob.size} does not match metadata size range {reference.minimumSize}..{reference.maximumSize}")

/-- The check of one job. -/
def checkCleanupJob (blobs : List StorageBlob) (job : StorageCleanupJob) : Except Err Unit := do
  let blob ← orElseThrow (blobs.find? fun b => b.id == job.blobID)
    (.errorf s!"cleanup job references missing storage blob {job.blobID}")
  ensure (job.storagePath = blob.storagePath)
    (.errorf s!"cleanup job path {job.storagePath} does not match storage blob {blob.id} path {blob.storagePath}")

/-- The sum with an overflow check. -/
def addStorageLedgerBytes (total size : Nat) : Except Err Nat :=
  if maxUint64 - total < size then .error (.errorf "storage blob ledger size overflow")
  else .ok (total + size)

/-- One more file at its final path. -/
def addUsed (totals : Nat × Nat) (size : Nat) : Except Err (Nat × Nat) :=
  (addStorageLedgerBytes totals.1 size).map fun used => (used, totals.2)

/-- One more file that is still staged. -/
def addReserved (totals : Nat × Nat) (size : Nat) : Except Err (Nat × Nat) :=
  (addStorageLedgerBytes totals.2 size).map fun reserved => (totals.1, reserved)

/-- `referencesByPath[path]`. -/
def referencesByPath (references : List StorageReferenceCount) (path : String) : Nat :=
  ((references.find? fun r => r.storagePath == path).map (·.referenceCount)).getD 0

/-- The switch over the status of one blob; the totals are `expectedUsed` and
    `expectedReserved`. -/
def expectBlob (references : List StorageReferenceCount) (jobs : List StorageCleanupJob)
    (totals : Nat × Nat) (blob : StorageBlob) : Except Err (Nat × Nat) :=
  let referenceCount := referencesByPath references blob.storagePath
  let hasJob := jobs.any fun j => j.blobID == blob.id
  let hasStagingLease := blob.stagingLeaseExpiresAt.isSome
  let stagingPath := blob.stagingPath.getD ""
  match blob.status with
  | .active => do
      ensure (hasJob = false) (.errorf s!"active storage blob {blob.id} has a cleanup job")
      ensure (blob.hasStagingPath = false)
        (.errorf s!"active storage blob {blob.id} retains staging path {stagingPath}")
      ensure (hasStagingLease = false)
        (.errorf s!"active storage blob {blob.id} retains a staging lease")
      ensure (¬ (referenceCount = 0 ∨ blob.refCount ≠ referenceCount))
        (.errorf s!"active storage blob {blob.id} reference count {blob.refCount} does not match metadata references {referenceCount}")
      addUsed totals blob.size
  | .staging => do
      ensure (¬ (blob.hasStagingPath = false ∨ hasStagingLease = false ∨ blob.refCount ≠ 0
          ∨ referenceCount ≠ 0))
        (.errorf s!"staging storage blob {blob.id} has inconsistent staging path or references")
      addReserved totals blob.size
  | .pendingDelete => do
      ensure (¬ (blob.refCount ≠ 0 ∨ referenceCount ≠ 0))
        (.errorf s!"pending-delete storage blob {blob.id} still has references")
      ensure (hasStagingLease = false)
        (.errorf s!"pending-delete storage blob {blob.id} retains a staging lease")
      ensure (hasJob = true)
        (.errorf s!"pending-delete storage blob {blob.id} has no cleanup job")
      if blob.hasStagingPath then addReserved totals blob.size else addUsed totals blob.size
  | .orphaned => do
      ensure (hasJob = false) (.errorf s!"orphaned storage blob {blob.id} has a cleanup job")
      ensure (¬ (blob.hasStagingPath = true ∨ hasStagingLease = true ∨ blob.refCount ≠ 0
          ∨ referenceCount ≠ 0))
        (.errorf s!"orphaned storage blob {blob.id} has a staging path or references")
      addUsed totals blob.size

/-- `Update("reconciled_at", reconciledAt)`. -/
def Database.reconciled (db : Database k) (reconciledAt : Time) : Database k :=
  { db with
    ledger := { db.ledger with
      quota := { db.ledger.quota with reconciledAt := some reconciledAt } } }

/-- `ValidateAndMarkReconciled`: every check, and then the mark. -/
def validateAndMarkReconciled (db : Database k) (reconciledAt : Time) :
    Except Err (Database k) := do
  let blobs := db.ledger.blobs.rows.mergeSort fun a b => decide (a.storagePath ≤ b.storagePath)
  let references := storageReferenceCounts db.catalog
  let cleanupJobs := db.ledger.jobs.rows.mergeSort fun a b => decide (a.blobID ≤ b.blobID)
  checkManagedPaths [] blobs
  references.forM (checkReference blobs)
  cleanupJobs.forM (checkCleanupJob blobs)
  let totals ← blobs.foldlM (expectBlob references cleanupJobs) (0, 0)
  ensure (db.ledger.quota.usedBytes = totals.1 ∧ db.ledger.quota.reservedBytes = totals.2)
    (.errorf s!"storage quota ledger mismatch: used_bytes={db.ledger.quota.usedBytes} expected={totals.1} reserved_bytes={db.ledger.quota.reservedBytes} expected={totals.2}")
  return db.reconciled reconciledAt

/-! ## The audit passes -/

section Passes

variable {c : Tables k} {l : Ledger} {R : Multiset Reference}

/-- The query leaves out what the bag of references leaves out. -/
theorem coe_filter_rows {α : Type} (path : α → String) (size : α → Int) (rows : List α) :
    (↑((rows.map fun r => (path r, size r)).filter fun r => r.1 != "") : Multiset Reference)
      = (rows.map fun r => fileRef (path r) (size r)).sum := by
  induction rows with
  | nil => rfl
  | cons r rest ih =>
      rw [List.map_cons, List.map_cons, List.sum_cons, ← ih]
      by_cases hp : path r = "" <;> simp [fileRef, hp, ← Multiset.cons_coe]

/-- The union the audit groups is the bag of references. -/
theorem coe_storageReferences (c : Tables k) :
    (↑(storageReferences c) : Multiset Reference) = references c := by
  rw [storageReferences, ← Multiset.coe_add]
  exact congrArg₂ _ (coe_filter_rows Object.storagePath Object.size _)
    (coe_filter_rows RecycleBinObject.storagePath RecycleBinObject.size _)

/-- The rows of the query are the references of the catalog. -/
theorem mem_storageReferences {r : Reference} : r ∈ storageReferences c ↔ r ∈ references c := by
  rw [← coe_storageReferences, Multiset.mem_coe]

theorem length_sizesOf (c : Tables k) (path : String) :
    (sizesOf (storageReferences c) path).length = refCount (references c) path := by
  rw [sizesOf, List.length_map, refCount, ← coe_storageReferences, Multiset.coe_countP,
    List.countP_eq_length_filter]
  refine congrArg _ (List.filter_congr fun r _ => ?_)
  by_cases hp : r.1 = path <;> simp [hp]

/-- The groups are those of the referenced paths. -/
theorem mem_storageReferenceCounts {g : StorageReferenceCount} :
    g ∈ storageReferenceCounts c ↔ ∃ path, 0 < refCount (references c) path
      ∧ referenceGroup (storageReferences c) path = g := by
  rw [storageReferenceCounts, List.mem_map]
  refine exists_congr fun path => and_congr_left fun _ => ?_
  rw [List.mem_mergeSort, List.mem_dedup, List.mem_map, refCount_pos]
  exact exists_congr fun r => and_congr_left fun _ => mem_storageReferences

/-- What the audit looks up is what the invariant counts. -/
theorem referencesByPath_eq (c : Tables k) (path : String) :
    referencesByPath (storageReferenceCounts c) path = refCount (references c) path := by
  rw [referencesByPath]
  cases hf : (storageReferenceCounts c).find? fun r => r.storagePath == path with
  | none =>
      by_contra hne
      have hpos : 0 < refCount (references c) path := Nat.pos_of_ne_zero fun h => hne h.symm
      have hnone := List.find?_eq_none.mp hf _ (mem_storageReferenceCounts.mpr ⟨path, hpos, rfl⟩)
      exact hnone (beq_self_eq_true path)
  | some g =>
      obtain ⟨q, -, rfl⟩ := mem_storageReferenceCounts.mp (List.mem_of_find?_eq_some hf)
      have hq := List.find?_some hf
      have hpath : q = path := beq_iff_eq.mp hq
      rw [← hpath]
      exact length_sizesOf c q

/-- The smallest and the largest of equal sizes. -/
theorem min?_max?_of_const {sizes : List Int} {n : Int} (hne : sizes ≠ [])
    (hall : ∀ m ∈ sizes, m = n) : sizes.min?.getD 0 = n ∧ sizes.max?.getD 0 = n := by
  obtain ⟨m, hm⟩ := List.exists_mem_of_ne_nil _ hne
  have hn : n ∈ sizes := hall m hm ▸ hm
  have hmin : sizes.min? = some n :=
    List.min?_eq_some_iff.mpr ⟨hn, fun b hb => le_of_eq (hall b hb).symm⟩
  have hmax : sizes.max? = some n :=
    List.max?_eq_some_iff.mpr ⟨hn, fun b hb => le_of_eq (hall b hb)⟩
  rw [hmin, hmax]
  exact ⟨rfl, rfl⟩

/-- A path that no blob has yet can be claimed. -/
theorem claimPath_ok {managedPaths : List (String × String)} {path blobID : String}
    (h : ∀ entry ∈ managedPaths, entry.1 ≠ path) :
    claimPath managedPaths path blobID = .ok ((path, blobID) :: managedPaths) := by
  have hnone : (managedPaths.find? fun entry => entry.1 == path) = none := by
    refine List.find?_eq_none.mpr fun entry hentry heq => ?_
    exact h entry hentry (beq_iff_eq.mp heq)
  rw [claimPath, hnone]

/-- The paths a row manages. -/
def manages (b : StorageBlob) (path : String) : Prop :=
  path = b.storagePath ∨ (b.hasStagingPath = true ∧ b.stagingPath = some path)

theorem claimStagingPath_ok {managedPaths : List (String × String)} {b : StorageBlob}
    (h : b.hasStagingPath = true → ∀ entry ∈ managedPaths, b.stagingPath ≠ some entry.1) :
    ∃ managed, claimStagingPath managedPaths b = .ok managed
      ∧ ∀ entry ∈ managed, entry ∈ managedPaths ∨ manages b entry.1 := by
  rw [claimStagingPath]
  split
  · exact ⟨_, rfl, fun _ h => Or.inl h⟩
  · next path hpath =>
      split
      · exact ⟨_, rfl, fun _ h => Or.inl h⟩
      · next hne =>
          have hs : b.hasStagingPath = true := by
            rw [StorageBlob.hasStagingPath, hpath]
            exact bne_iff_ne.mpr hne
          refine ⟨_, claimPath_ok fun entry hentry heq => h hs entry hentry (heq ▸ hpath), ?_⟩
          intro entry hentry
          rcases List.mem_cons.mp hentry with rfl | hold
          · exact Or.inr (Or.inr ⟨hs, hpath⟩)
          · exact Or.inl hold

/-- The managed paths met so far belong to the rows `done`. -/
theorem checkManagedPaths_ok (hpaths : PathsOk l.blobs.rows) :
    ∀ (rest done : List StorageBlob) (managedPaths : List (String × String)),
      (∀ b ∈ done ++ rest, b ∈ l.blobs.rows) → (done ++ rest).Nodup →
      (∀ entry ∈ managedPaths, ∃ b ∈ done, manages b entry.1) →
      checkManagedPaths managedPaths rest = .ok () := by
  intro rest
  induction rest with
  | nil => intros; rfl
  | cons b rest ih =>
      intro done managedPaths hmem hnd hdone
      have hb : b ∈ l.blobs.rows := hmem b (List.mem_append_right _ List.mem_cons_self)
      have hother : ∀ a ∈ done, a ∈ l.blobs.rows ∧ a ≠ b := by
        intro a ha
        refine ⟨hmem a (List.mem_append_left _ ha), ?_⟩
        exact (List.nodup_append.mp hnd).2.2 a ha b List.mem_cons_self
      -- a final path met before is that of another row, or another row's staging path
      have hfinal : ∀ entry ∈ managedPaths, entry.1 ≠ b.storagePath := by
        intro entry hentry heq
        obtain ⟨a, ha, hpath | ⟨hs, hpath⟩⟩ := hdone entry hentry
        · exact (hother a ha).2 (l.blobs.eq_of_clash (hother a ha).1 hb
            (StorageBlob.clash_of_path (hpath.symm.trans heq)))
        · exact hpaths.final a (hother a ha).1 hs b hb (hpath.trans (congrArg some heq))
      have hstaging : b.hasStagingPath = true →
          ∀ entry ∈ (b.storagePath, b.id) :: managedPaths, b.stagingPath ≠ some entry.1 := by
        intro hs entry hentry heq
        rcases List.mem_cons.mp hentry with rfl | hold
        · exact hpaths.final b hb hs b hb heq
        · obtain ⟨a, ha, hpath | ⟨-, hpath⟩⟩ := hdone entry hold
          · exact hpaths.final b hb hs a (hother a ha).1 (heq.trans (congrArg some hpath))
          · exact (hother a ha).2 (hpaths.staging b hb hs a (hother a ha).1 (hpath.trans heq.symm))
      obtain ⟨managed, hclaim, hmanaged⟩ := claimStagingPath_ok hstaging
      -- the paths met so far now include those of `b`
      have hrest : checkManagedPaths managed rest = .ok () := by
        refine ih (done ++ [b]) managed ?_ ?_ ?_
        · simpa using hmem
        · simpa using hnd
        · intro entry hentry
          rcases hmanaged entry hentry with hold | hnew
          · rcases List.mem_cons.mp hold with rfl | hold
            · exact ⟨b, List.mem_append_right _ (List.mem_singleton_self b), Or.inl rfl⟩
            · obtain ⟨a, ha, hm⟩ := hdone entry hold
              exact ⟨a, List.mem_append_left _ ha, hm⟩
          · exact ⟨b, List.mem_append_right _ (List.mem_singleton_self b), hnew⟩
      rw [checkManagedPaths]
      refine bind_eq_ok.mpr ⟨(), ensure_eq_ok.mpr (hpaths.nonempty b hb), ?_⟩
      exact bind_eq_ok.mpr ⟨_, claimPath_ok hfinal, bind_eq_ok.mpr ⟨_, hclaim, hrest⟩⟩

/-- Among the rows in any order, a search by path or by id finds the row. -/
theorem find?_blob {blobs : List StorageBlob} (hperm : blobs.Perm l.blobs.rows) {b : StorageBlob}
    (hb : b ∈ l.blobs.rows) :
    (blobs.find? fun a => a.storagePath == b.storagePath) = some b
      ∧ (blobs.find? fun a => a.id == b.id) = some b := by
  have hone : ∀ p : StorageBlob → Bool, p b = true →
      (∀ a, p a = true → StorageBlob.clash a b = true) → blobs.find? p = some b := by
    intro p hp hclash
    cases hf : blobs.find? p with
    | none => exact absurd hp (List.find?_eq_none.mp hf b (hperm.mem_iff.mpr hb))
    | some a =>
        have ha := hperm.mem_iff.mp (List.mem_of_find?_eq_some hf)
        rw [l.blobs.eq_of_clash ha hb (hclash a (List.find?_some hf))]
  constructor
  · exact hone _ (beq_self_eq_true _) fun a ha => StorageBlob.clash_of_path (beq_iff_eq.mp ha)
  · exact hone _ (beq_self_eq_true _) fun a ha => StorageBlob.clash_of_id (beq_iff_eq.mp ha)

/-- Under the invariant every reference passes. -/
theorem checkReference_ok (h : LedgerOk l (references c)) {blobs : List StorageBlob}
    (hperm : blobs.Perm l.blobs.rows) {g : StorageReferenceCount}
    (hg : g ∈ storageReferenceCounts c) : checkReference blobs g = .ok () := by
  obtain ⟨path, hpos, rfl⟩ := mem_storageReferenceCounts.mp hg
  obtain ⟨r, hr, rfl⟩ := refCount_pos.mp hpos
  obtain ⟨b, hb, hactive, hpath⟩ := h.owned r hr
  have hsize := ((rowOk_active hactive).mp (h.rows b hb)).2.2.2.2.2
  have hall : ∀ n ∈ sizesOf (storageReferences c) r.1, n = b.size := by
    intro n hn
    obtain ⟨q, hq, rfl⟩ := List.mem_map.mp hn
    obtain ⟨hmem, hkey⟩ := List.mem_filter.mp hq
    exact hsize q (mem_storageReferences.mp hmem) ((beq_iff_eq.mp hkey).trans hpath.symm)
  have hne : sizesOf (storageReferences c) r.1 ≠ [] := by
    rw [← List.length_pos_iff, length_sizesOf]
    exact hpos
  obtain ⟨hmin, hmax⟩ := min?_max?_of_const hne hall
  rw [checkReference]
  refine bind_eq_ok.mpr ⟨b, orElseThrow_eq_ok.mpr (hpath ▸ (find?_blob hperm hb).1), ?_⟩
  refine bind_eq_ok.mpr ⟨(), ensure_eq_ok.mpr hactive, ensure_eq_ok.mpr ?_⟩
  rw [referenceGroup]
  dsimp only
  rw [hmin, hmax]
  simp

/-- Every job passes the check. -/
theorem checkCleanupJob_ok (h : JobsOk l) {blobs : List StorageBlob}
    (hperm : blobs.Perm l.blobs.rows) {j : StorageCleanupJob} (hj : j ∈ l.jobs.rows) :
    checkCleanupJob blobs j = .ok () := by
  obtain ⟨b, hb, hid, hpath⟩ := h.blob j hj
  rw [checkCleanupJob]
  refine bind_eq_ok.mpr ⟨b, orElseThrow_eq_ok.mpr (hid ▸ (find?_blob hperm hb).2), ?_⟩
  exact ensure_eq_ok.mpr hpath.symm

theorem addStorageLedgerBytes_ok {total size : Nat} (h : total + size ≤ maxUint64) :
    addStorageLedgerBytes total size = .ok (total + size) := by
  rw [addStorageLedgerBytes, if_neg]
  omega

/-- The switch adds a row's size to the counter that pays for it. -/
theorem expectBlob_ok (h : LedgerOk l (references c)) {jobs : List StorageCleanupJob}
    (hjobs : jobs.Perm l.jobs.rows) {b : StorageBlob} (hb : b ∈ l.blobs.rows) (used reserved : Nat)
    (hused : used + b.usedSize ≤ maxUint64) (hreserved : reserved + b.reservedSize ≤ maxUint64) :
    expectBlob (storageReferenceCounts c) jobs (used, reserved) b
      = .ok (used + b.usedSize, reserved + b.reservedSize) := by
  have hrow := h.rows b hb
  have hcount : referencesByPath (storageReferenceCounts c) b.storagePath = b.refCount := by
    rw [referencesByPath_eq, h.refCount_of_mem hb]
  have hjob : (jobs.any fun j => j.blobID == b.id) = true ↔ HasJob l b.id := by
    rw [List.any_eq_true]
    exact exists_congr fun j => and_congr hjobs.mem_iff beq_iff_eq
  -- without a staging path the size is paid for by the used bytes
  have haddUsed : b.hasStagingPath = false →
      addUsed (used, reserved) b.size = .ok (used + b.usedSize, reserved + b.reservedSize) := by
    intro hs
    have hsize : b.usedSize = b.size := by rw [StorageBlob.usedSize, hs]; rfl
    have hzero : b.reservedSize = 0 := by rw [StorageBlob.reservedSize, hs]; rfl
    rw [hsize] at hused
    rw [hsize, hzero]
    exact map_eq_ok.mpr ⟨_, addStorageLedgerBytes_ok hused, rfl⟩
  -- and with one by the reserved bytes
  have haddReserved : b.hasStagingPath = true →
      addReserved (used, reserved) b.size
        = .ok (used + b.usedSize, reserved + b.reservedSize) := by
    intro hs
    have hsize := StorageBlob.reservedSize_of_staging hs
    rw [hsize] at hreserved
    rw [hsize, StorageBlob.usedSize_of_staging hs]
    exact map_eq_ok.mpr ⟨_, addStorageLedgerBytes_ok hreserved, rfl⟩
  rw [expectBlob, hcount]
  cases hst : b.status with
  | active =>
      obtain ⟨hs, hlease, hpos, -, hnojob, -⟩ := (rowOk_active hst).mp hrow
      have hnone := Bool.eq_false_iff.mpr fun hj => hnojob (hjob.mp hj)
      refine bind_eq_ok.mpr
        ⟨(), ensure_eq_ok.mpr hnone, bind_eq_ok.mpr ⟨(), ensure_eq_ok.mpr hs, ?_⟩⟩
      refine bind_eq_ok.mpr ⟨(), ensure_eq_ok.mpr (by rw [hlease]; rfl), ?_⟩
      exact bind_eq_ok.mpr ⟨(), ensure_eq_ok.mpr (by omega), haddUsed hs⟩
  | staging =>
      obtain ⟨hs, hlease, hzero⟩ := (rowOk_staging hst).mp hrow
      refine bind_eq_ok.mpr ⟨(), ensure_eq_ok.mpr ?_, haddReserved hs⟩
      simp [hs, hlease, hzero]
  -- sealed with or without a staging path: both counters occur
  | pendingDelete =>
      obtain ⟨hlease, hzero, hhas⟩ := (rowOk_pendingDelete hst).mp hrow
      refine bind_eq_ok.mpr ⟨(), ensure_eq_ok.mpr (by simp [hzero]), ?_⟩
      refine bind_eq_ok.mpr ⟨(), ensure_eq_ok.mpr (by rw [hlease]; rfl), ?_⟩
      refine bind_eq_ok.mpr ⟨(), ensure_eq_ok.mpr (hjob.mpr hhas), ?_⟩
      cases hs : b.hasStagingPath with
      | true => exact haddReserved hs
      | false => exact haddUsed hs
  | orphaned =>
      obtain ⟨hs, hlease, hzero, hnojob⟩ := (rowOk_orphaned hst).mp hrow
      have hnone := Bool.eq_false_iff.mpr fun hj => hnojob (hjob.mp hj)
      refine bind_eq_ok.mpr ⟨(), ensure_eq_ok.mpr hnone, ?_⟩
      refine bind_eq_ok.mpr ⟨(), ensure_eq_ok.mpr ?_, haddUsed hs⟩
      simp [hs, hlease, hzero]

/-- The loop over the blobs passes and ends with the sums of both columns. -/
theorem expectBlobs_ok (h : LedgerOk l (references c)) {jobs : List StorageCleanupJob}
    (hjobs : jobs.Perm l.jobs.rows) :
    ∀ (blobs : List StorageBlob) (used reserved : Nat), (∀ b ∈ blobs, b ∈ l.blobs.rows) →
      used + (blobs.map (·.usedSize)).sum ≤ maxUint64 →
      reserved + (blobs.map (·.reservedSize)).sum ≤ maxUint64 →
      blobs.foldlM (expectBlob (storageReferenceCounts c) jobs) (used, reserved)
        = .ok (used + (blobs.map (·.usedSize)).sum,
            reserved + (blobs.map (·.reservedSize)).sum) := by
  intro blobs
  induction blobs with
  | nil => intros; rfl
  | cons b rest ih =>
      intro used reserved hmem hused hreserved
      rw [List.map_cons, List.sum_cons, ← Nat.add_assoc] at hused hreserved
      have hb := expectBlob_ok h hjobs (hmem b List.mem_cons_self) used reserved
        (by omega) (by omega)
      have hrest := ih (used + b.usedSize) (reserved + b.reservedSize)
        (fun a ha => hmem a (List.mem_cons_of_mem _ ha)) hused hreserved
      rw [List.foldlM_cons, List.map_cons, List.sum_cons, List.map_cons, List.sum_cons,
        ← Nat.add_assoc, ← Nat.add_assoc]
      exact bind_eq_ok.mpr ⟨_, hb, hrest⟩

/-- **The audit passes** on every database whose ledger keeps the invariant. -/
theorem validateAndMarkReconciled_ok {db : Database k}
    (h : LedgerOk db.ledger (references db.catalog)) (reconciledAt : Time) :
    validateAndMarkReconciled db reconciledAt = .ok (db.reconciled reconciledAt) := by
  have hblobs := List.mergeSort_perm db.ledger.blobs.rows
    fun a b => decide (a.storagePath ≤ b.storagePath)
  have hjobs := List.mergeSort_perm db.ledger.jobs.rows fun a b => decide (a.blobID ≤ b.blobID)
  have hused := h.used.trans (hblobs.map StorageBlob.usedSize).sum_eq.symm
  have hreserved := h.reserved.trans (hblobs.map StorageBlob.reservedSize).sum_eq.symm
  refine bind_eq_ok.mpr ⟨(), ?_, bind_eq_ok.mpr ⟨(), ?_, bind_eq_ok.mpr ⟨(), ?_, ?_⟩⟩⟩
  · refine checkManagedPaths_ok h.paths _ [] [] (fun b hb => hblobs.mem_iff.mp hb) ?_ (by simp)
    exact hblobs.nodup_iff.mpr db.ledger.blobs.rows_nodup
  · exact forM_ok _ fun g hg => checkReference_ok h hblobs hg
  · exact forM_ok _ fun j hj => checkCleanupJob_ok h.jobs hblobs (hjobs.mem_iff.mp hj)
  · refine bind_eq_ok.mpr
      ⟨_, expectBlobs_ok h hjobs _ 0 0 (fun b hb => hblobs.mem_iff.mp hb) ?_ ?_, ?_⟩
    · rw [Nat.zero_add, ← hused]
      exact h.usedRange
    · rw [Nat.zero_add, ← hreserved]
      exact h.reservedRange
    · refine bind_eq_ok.mpr ⟨(), ensure_eq_ok.mpr ?_, rfl⟩
      rw [Nat.zero_add, Nat.zero_add]
      exact ⟨hused, hreserved⟩

end Passes

end StorageAudit
