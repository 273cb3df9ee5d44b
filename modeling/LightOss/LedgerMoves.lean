import Mathlib.Data.List.Dedup
import Mathlib.Data.List.Forall2
import LightOss.LedgerSpecs

/-! # Ledger moves — rows that change hands

    The inversion lemmas of the calls that move bytes between the two counters or
    out of the ledger: activation (`Activation`), release of references (`Released`),
    release of staging (`StagingReleased`), expiry and sealing (`Sealed`), orphans, and
    the end of a cleanup job (`Completed`).

    The calls work in batches.  Each batch is one rewrite, and rewrites of batches that
    name no id twice compose to the rewrite of the whole call, so what a call does is
    said without its batch size. -/

namespace LedgerMoves

open KeyedTable Fallible LedgerRows BlobRepository LedgerSpecs

variable {l l' : Ledger}

/-! ## Activation -/

/-- The staging rows named by `activations` become active with one reference. -/
def activated (activations : List StorageBlobActivation) (b : StorageBlob) : StorageBlob :=
  if b.id ∈ activations.map (·.id) ∧ b.status = .staging then
    { b with
      size := activatedSize activations b
      refCount := 1
      status := .active
      stagingPath := none
      stagingLeaseExpiresAt := none }
  else b

/-- A later batch does not change the size that an earlier one gave. -/
theorem activatedSize_append (ys zs : List StorageBlobActivation) (b : StorageBlob)
    (h : b.id ∈ ys.map (·.id)) : activatedSize (ys ++ zs) b = activatedSize ys b := by
  rw [activatedSize, activatedSize, List.find?_append]
  cases hf : ys.find? fun activation => activation.id == b.id with
  | none =>
      obtain ⟨a, ha, hid⟩ := List.mem_map.mp h
      exact absurd hid (by simpa using List.find?_eq_none.mp hf a ha)
  | some a => rfl

/-- Activating in two batches is activating in one. -/
theorem activated_activated (ys zs : List StorageBlobActivation) (b : StorageBlob) :
    activated zs (activated ys b) = activated (ys ++ zs) b := by
  by_cases hs : b.status = .staging
  · by_cases hy : b.id ∈ ys.map (·.id)
    · have hyz : b.id ∈ (ys ++ zs).map (·.id) := by
        rw [List.map_append]
        exact List.mem_append_left _ hy
      have hleft : activated ys b = { b with
          size := activatedSize ys b, refCount := 1, status := .active,
          stagingPath := none, stagingLeaseExpiresAt := none } := if_pos ⟨hy, hs⟩
      rw [hleft, activated, if_neg (fun h => nomatch h.2), activated, if_pos ⟨hyz, hs⟩,
        activatedSize_append ys zs b hy]
    · have hleft : activated ys b = b := if_neg fun h => hy h.1
      have hsize : activatedSize (ys ++ zs) b = activatedSize zs b := by
        have hf : ys.find? (fun activation => activation.id == b.id) = none := by
          refine List.find?_eq_none.mpr fun a ha => ?_
          simpa using fun hid : a.id = b.id => hy (List.mem_map.mpr ⟨a, ha, hid⟩)
        rw [activatedSize, activatedSize, List.find?_append, hf, Option.none_or]
      rw [hleft, activated, activated, hsize]
      simp only [List.map_append, List.mem_append, hy, false_or]
  · have h1 : ∀ xs, activated xs b = b := fun xs => if_neg fun h => hs h.2
    rw [h1, h1, h1]

theorem checkActivations_ok : ∀ (as : List StorageBlobActivation) (seen : List String),
    checkActivations seen as = .ok () →
      (as.map (·.id)).Nodup ∧ ∀ a ∈ as, a.id ∉ seen := by
  intro as
  induction as with
  | nil =>
      intro seen _
      exact ⟨List.nodup_nil, fun _ h => nomatch h⟩
  | cons a rest ih =>
      intro seen h
      rw [checkActivations] at h
      split at h
      · exact nomatch h
      split at h
      · exact nomatch h
      next hseen =>
      obtain ⟨hnd, hfresh⟩ := ih _ h
      refine ⟨?_, ?_⟩
      · refine List.nodup_cons.mpr ⟨?_, hnd⟩
        intro hmem
        obtain ⟨b, hb, hid⟩ := List.mem_map.mp hmem
        exact hfresh b hb (hid ▸ List.mem_cons_self)
      · intro b hb
        rcases List.mem_cons.mp hb with rfl | hb
        · exact hseen
        · exact fun hmem => hfresh b hb (List.mem_cons_of_mem _ hmem)

/-- The loop finds a staging row for every activation, in their order, with room for the
    size. -/
theorem activationTotals_ok (blobs : List StorageBlob) :
    ∀ (as : List StorageBlobActivation) (reserved actual r a : Nat),
      activationTotals blobs reserved actual as = .ok (r, a) → ∃ found : List StorageBlob,
        List.Forall₂ (fun b activation => b.id = activation.id ∧ activation.actualSize ≤ b.size)
          found as
        ∧ (∀ b ∈ found, b ∈ blobs ∧ b.status = .staging)
        ∧ r = reserved + (found.map (·.size)).sum
        ∧ a = actual + (as.map (·.actualSize)).sum := by
  intro as
  induction as with
  | nil =>
      intro reserved actual r a h
      cases h
      exact ⟨[], .nil, by simp, rfl, rfl⟩
  | cons activation rest ih =>
      intro reserved actual r a h
      rw [activationTotals] at h
      obtain ⟨blob, hblob, h⟩ := bind_eq_ok.mp h
      obtain ⟨_, hstaging, h⟩ := bind_eq_ok.mp h
      obtain ⟨_, hsize, h⟩ := bind_eq_ok.mp h
      obtain ⟨_, -, h⟩ := bind_eq_ok.mp h
      obtain ⟨found, hall, hmem, hr, ha⟩ := ih _ _ _ _ h
      have hfind := orElseThrow_eq_ok.mp hblob
      have hid : blob.id = activation.id := by simpa using List.find?_some hfind
      refine ⟨blob :: found, .cons ⟨hid, ensure_eq_ok.mp hsize⟩ hall, ?_, ?_, ?_⟩
      · intro b hb
        rcases List.mem_cons.mp hb with rfl | hb
        · exact ⟨List.mem_of_find?_eq_some hfind, ensure_eq_ok.mp hstaging⟩
        · exact hmem b hb
      · rw [hr, List.map_cons, List.sum_cons, Nat.add_assoc]
      · rw [ha, List.map_cons, List.sum_cons, Nat.add_assoc]

theorem mem_findBlobsByID {ids : List String} {n : Nat} {b : StorageBlob}
    (h : b ∈ findBlobsByID l ids n) : b ∈ l.blobs.rows := by
  obtain ⟨batch, -, hb⟩ := List.mem_flatMap.mp h
  exact (Table.mem_select.mp hb).1

/-- Everything a successful `ActivateStagingBatch` tested and did; `found` are the
    rows of the activations, in their order. -/
structure Activation (l : Ledger) (activations : List StorageBlobActivation)
    (found : List StorageBlob) (l' : Ledger) : Prop where
  ids : found.map (·.id) = activations.map (·.id)
  nodup : (activations.map (·.id)).Nodup
  staging : ∀ b ∈ found, b ∈ l.blobs.rows ∧ b.status = .staging
  sizes : found.map (activatedSize activations) = activations.map (·.actualSize)
  shrinks : ∀ b ∈ found, activatedSize activations b ≤ b.size
  covered : (found.map (·.size)).sum ≤ l.quota.reservedBytes
  range : activations ≠ [] → l.quota.usedBytes + (activations.map (·.actualSize)).sum ≤ maxUint64
  rewrites : Rewrites
    (withQuota l (l.quota.usedBytes + (activations.map (·.actualSize)).sum)
      (l.quota.reservedBytes - (found.map (·.size)).sum))
    (activated activations) l'

theorem activateBatch_ok {batch : List StorageBlobActivation}
    (h : activateBatch l batch = .ok l') : Rewrites l (activated batch) l' := by
  rw [activateBatch] at h
  obtain ⟨_, -, h⟩ := bind_eq_ok.mp h
  obtain rfl := pure_eq_ok.mp h
  refine (rewrites_updateBlobs l _ _ _).congr fun b _ => ?_
  simp only [activated, decide_eq_true_eq]

/-- Each row gets the size that its own activation names. -/
private theorem found_sizes {as : List StorageBlobActivation} {found : List StorageBlob}
    (hnd : (as.map (·.id)).Nodup)
    (hall : List.Forall₂ (fun b activation => b.id = activation.id
      ∧ activation.actualSize ≤ b.size) found as) :
    found.map (activatedSize as) = as.map (·.actualSize)
      ∧ ∀ b ∈ found, activatedSize as b ≤ b.size := by
  have hsize : ∀ a ∈ as, ∀ b : StorageBlob, b.id = a.id → activatedSize as b = a.actualSize := by
    intro a ha b hid
    have hf := Table.find?_of_nodup hnd ha (p := fun activation => activation.id == b.id)
      (by simp [hid]) (fun x hx => (by simpa using hx : x.id = b.id).trans hid)
    rw [activatedSize, hf]
  have hmain : ∀ (bs : List StorageBlob) (xs : List StorageBlobActivation),
      List.Forall₂ (fun b activation => b.id = activation.id
        ∧ activation.actualSize ≤ b.size) bs xs → (∀ x ∈ xs, x ∈ as) →
      bs.map (activatedSize as) = xs.map (·.actualSize)
        ∧ ∀ b ∈ bs, activatedSize as b ≤ b.size := by
    intro bs xs h
    induction h with
    | nil => intro _; exact ⟨rfl, fun _ h => nomatch h⟩
    | cons hba _ ih =>
        intro hsub
        obtain ⟨heq, hle⟩ := ih fun x hx => hsub x (List.mem_cons_of_mem _ hx)
        have hb := hsize _ (hsub _ List.mem_cons_self) _ hba.1
        refine ⟨by rw [List.map_cons, List.map_cons, hb, heq], ?_⟩
        intro b' hb'
        rcases List.mem_cons.mp hb' with rfl | hb'
        · rw [hb]
          exact hba.2
        · exact hle b' hb'
  exact hmain found as hall fun _ h => h

/-- **Activation**: the rows it found become active, all or none. -/
theorem activateStagingBatch_ok {as : List StorageBlobActivation} {batchSize : Int}
    (h : activateStagingBatch l as batchSize = .ok l') : ∃ found, Activation l as found l' := by
  rw [activateStagingBatch] at h
  split at h
  · next hnil =>
      cases h
      rw [hnil]
      refine ⟨[], rfl, List.nodup_nil, by simp, rfl, by simp, Nat.zero_le _,
        fun h => absurd rfl h, ?_⟩
      exact (Rewrites.id l).congr fun b _ => by simp [activated]
  obtain ⟨_, hcheck, h⟩ := bind_eq_ok.mp h
  obtain ⟨_, -, h⟩ := bind_eq_ok.mp h
  obtain ⟨⟨reserved, actual⟩, htotals, h⟩ := bind_eq_ok.mp h
  obtain ⟨m, hm, h⟩ := bind_eq_ok.mp h
  obtain ⟨hnd, -⟩ := checkActivations_ok as [] hcheck
  obtain ⟨found, hall, hmem, hr, ha⟩ := activationTotals_ok _ as 0 0 _ _ htotals
  obtain ⟨hcovered, hrange, rfl⟩ := moveReservedToUsed_ok hm
  obtain ⟨hsizes, hshrinks⟩ := found_sizes hnd hall
  rw [Nat.zero_add] at hr ha
  subst hr ha
  have hids : found.map (·.id) = as.map (·.id) := by
    rw [← List.forall₂_eq_eq_eq, List.forall₂_map_left_iff, List.forall₂_map_right_iff]
    exact hall.imp fun _ _ hba => hba.1
  refine ⟨found, hids, hnd, fun b hb => ⟨mem_findBlobsByID (hmem b hb).1, (hmem b hb).2⟩,
    hsizes, hshrinks, hcovered, fun _ => hrange, ?_⟩
  exact rewrites_batches (normalizeStorageBlobBatchSize_pos batchSize)
    (fun b => by simp [activated]) (fun ys zs b _ => activated_activated ys zs b)
    (fun _ _ _ => activateBatch_ok) h

/-! ## Release of references -/

/-- A row loses the references released on its path; without one left it is
    sealed for cleanup. -/
def dereferenced (paths : List String) (b : StorageBlob) : StorageBlob :=
  if countStoragePaths paths b.storagePath = 0 then b
  else
    { b with
      refCount := b.refCount - countStoragePaths paths b.storagePath
      status :=
        if b.refCount - countStoragePaths paths b.storagePath = 0 then .pendingDelete else .active }

theorem countStoragePaths_pos {paths : List String} {path : String} :
    0 < countStoragePaths paths path ↔ path ∈ paths ∧ path ≠ "" := by
  rw [countStoragePaths, List.count_pos_iff, List.mem_filter]
  simp

/-- The paths of the loop are those that are counted. -/
theorem mem_sortedStoragePaths {paths : List String} {path : String} :
    path ∈ sortedStoragePaths paths ↔ 0 < countStoragePaths paths path := by
  rw [sortedStoragePaths, List.mem_mergeSort, List.mem_dedup, countStoragePaths,
    List.count_pos_iff]

theorem sortedStoragePaths_nodup (paths : List String) : (sortedStoragePaths paths).Nodup :=
  (List.mergeSort_perm _ _).nodup_iff.mpr (List.nodup_dedup _)

/-- The update and the cleanup job planned for the row `b`. -/
def plannedUpdate (paths : List String) (b : StorageBlob) : ReferenceUpdate :=
  let remaining := b.refCount - countStoragePaths paths b.storagePath
  ⟨b.id, remaining, if remaining = 0 then .pendingDelete else .active⟩

/-- The job for a blob that lost its last reference. -/
def plannedJob (now : Time) (b : StorageBlob) : StorageCleanupJob where
  blobID := b.id
  storagePath := b.storagePath
  nextRetryAt := now
  lastError := ""

/-- The jobs planned for the rows `found`: one for each that loses its last reference. -/
def plannedJobs (paths : List String) (now : Time) (found : List StorageBlob) :
    List StorageCleanupJob :=
  (found.filter fun b =>
    decide (b.refCount - countStoragePaths paths b.storagePath = 0)).map (plannedJob now)

/-- The loop finds an active row with enough references for every path; what it plans
    follows from the rows. -/
theorem referenceUpdates_ok (blobs : List StorageBlob) (storagePaths : List String) (now : Time) :
    ∀ (paths : List String) (updates : List ReferenceUpdate) (jobs : List StorageCleanupJob),
      referenceUpdates blobs storagePaths now paths = .ok (updates, jobs) →
      ∃ found : List StorageBlob, found.map (·.storagePath) = paths
        ∧ (∀ b ∈ found, b ∈ blobs ∧ b.status = .active
          ∧ countStoragePaths storagePaths b.storagePath ≤ b.refCount)
        ∧ updates = found.map (plannedUpdate storagePaths)
        ∧ jobs = plannedJobs storagePaths now found := by
  intro paths
  induction paths with
  | nil =>
      intro updates jobs h
      cases h
      exact ⟨[], rfl, by simp, rfl, rfl⟩
  | cons path rest ih =>
      intro updates jobs h
      rw [referenceUpdates] at h
      obtain ⟨blob, hblob, h⟩ := bind_eq_ok.mp h
      obtain ⟨_, hguard, h⟩ := bind_eq_ok.mp h
      obtain ⟨⟨updates', jobs'⟩, hrest, h⟩ := bind_eq_ok.mp h
      obtain ⟨found, hpaths, hfound, rfl, rfl⟩ := ih _ _ hrest
      have hfind := orElseThrow_eq_ok.mp hblob
      obtain rfl : blob.storagePath = path := by simpa using List.find?_some hfind
      have hguard := ensure_eq_ok.mp hguard
      rw [not_or, not_not, Nat.not_lt] at hguard
      refine ⟨blob :: found, by rw [List.map_cons, hpaths], ?_, ?_⟩
      · intro b hb
        rcases List.mem_cons.mp hb with rfl | hb
        · exact ⟨List.mem_of_find?_eq_some hfind, hguard⟩
        · exact hfound b hb
      · rw [plannedJobs, List.map_cons, List.filter_cons]
        by_cases hzero : blob.refCount - countStoragePaths storagePaths blob.storagePath = 0
        · obtain ⟨rfl, rfl⟩ := Prod.mk.inj (pure_eq_ok.mp ((if_pos hzero).symm.trans h))
          simp [plannedUpdate, plannedJobs, plannedJob, hzero]
        · obtain ⟨rfl, rfl⟩ := Prod.mk.inj (pure_eq_ok.mp ((if_neg hzero).symm.trans h))
          simp [plannedUpdate, plannedJobs, hzero]

/-- The active rows named in `updates` get their planned count and status. -/
def referenceUpdated (updates : List ReferenceUpdate) (b : StorageBlob) : StorageBlob :=
  if b.id ∈ updates.map (·.id) ∧ b.status = .active then applyReferenceUpdate updates b else b

theorem referenceBatch_ok {batch : List ReferenceUpdate} (h : referenceBatch l batch = .ok l') :
    Rewrites l (referenceUpdated batch) l' := by
  rw [referenceBatch] at h
  obtain ⟨_, -, h⟩ := bind_eq_ok.mp h
  obtain rfl := pure_eq_ok.mp h
  refine (rewrites_updateBlobs l _ _ _).congr fun b _ => ?_
  simp only [referenceUpdated, decide_eq_true_eq]

/-- A row takes the update that bears its id. -/
theorem applyReferenceUpdate_of_mem {updates : List ReferenceUpdate}
    (hnd : (updates.map (·.id)).Nodup) {u : ReferenceUpdate} (hu : u ∈ updates) {b : StorageBlob}
    (hid : u.id = b.id) :
    applyReferenceUpdate updates b = { b with refCount := u.refCount, status := u.status } := by
  have hf := Table.find?_of_nodup hnd hu (p := fun update => update.id == b.id) (by simp [hid])
    (fun x hx => (by simpa using hx : x.id = b.id).trans hid.symm)
  rw [applyReferenceUpdate, hf]

theorem applyReferenceUpdate_id (updates : List ReferenceUpdate) (b : StorageBlob) :
    (applyReferenceUpdate updates b).id = b.id := by
  rw [applyReferenceUpdate]
  split <;> rfl

/-- Updating in two batches is updating in one. -/
theorem referenceUpdated_append {ys zs : List ReferenceUpdate}
    (hnd : ((ys ++ zs).map (·.id)).Nodup) (b : StorageBlob) :
    referenceUpdated zs (referenceUpdated ys b) = referenceUpdated (ys ++ zs) b := by
  have hnd' := hnd
  rw [List.map_append, List.nodup_append] at hnd'
  obtain ⟨hys, hzs, hdisj⟩ := hnd'
  by_cases hy : b.id ∈ ys.map (·.id)
  · have hz : b.id ∉ zs.map (·.id) := fun hz => hdisj _ hy _ hz rfl
    by_cases hs : b.status = .active
    · obtain ⟨u, hu, hid⟩ := List.mem_map.mp hy
      have hyz : b.id ∈ (ys ++ zs).map (·.id) := by
        rw [List.map_append]
        exact List.mem_append_left _ hy
      have hleft : referenceUpdated ys b = applyReferenceUpdate ys b := if_pos ⟨hy, hs⟩
      have hright : referenceUpdated (ys ++ zs) b = applyReferenceUpdate (ys ++ zs) b :=
        if_pos ⟨hyz, hs⟩
      rw [hleft, hright, referenceUpdated, if_neg, applyReferenceUpdate_of_mem hys hu hid,
        applyReferenceUpdate_of_mem hnd (List.mem_append_left _ hu) hid]
      intro h
      rw [applyReferenceUpdate_id] at h
      exact hz h.1
    · have h1 : ∀ xs, referenceUpdated xs b = b := fun xs => if_neg fun h => hs h.2
      rw [h1, h1, h1]
  · have hleft : referenceUpdated ys b = b := if_neg fun h => hy h.1
    rw [hleft]
    by_cases hz : b.id ∈ zs.map (·.id) ∧ b.status = .active
    · obtain ⟨u, hu, hid⟩ := List.mem_map.mp hz.1
      have hyz : b.id ∈ (ys ++ zs).map (·.id) := by
        rw [List.map_append]
        exact List.mem_append_right _ hz.1
      rw [referenceUpdated, if_pos hz, referenceUpdated, if_pos ⟨hyz, hz.2⟩,
        applyReferenceUpdate_of_mem hzs hu hid,
        applyReferenceUpdate_of_mem hnd (List.mem_append_right _ hu) hid]
    · rw [referenceUpdated, if_neg hz, referenceUpdated, if_neg]
      rintro ⟨hmem, hs⟩
      rw [List.map_append, List.mem_append] at hmem
      exact hz ⟨hmem.resolve_left hy, hs⟩

/-- Everything a successful `ReleaseReferences` tested and did. -/
structure Released (l : Ledger) (paths : List String) (l' : Ledger) : Prop where
  active : ∀ b ∈ l.blobs.rows, 0 < countStoragePaths paths b.storagePath →
    b.status = .active ∧ countStoragePaths paths b.storagePath ≤ b.refCount
  owned : ∀ path, 0 < countStoragePaths paths path → ∃ b ∈ l.blobs.rows, b.storagePath = path
  moves : ∃ m jobs, Rewrites l (dereferenced paths) m ∧ Enqueued m jobs l'
    ∧ (∀ b ∈ l.blobs.rows, b.id ∈ jobs.map (·.blobID) ↔
        0 < countStoragePaths paths b.storagePath
          ∧ b.refCount = countStoragePaths paths b.storagePath)
    ∧ ∀ n ∈ jobs, ∃ b ∈ l.blobs.rows, b.id = n.blobID ∧ b.storagePath = n.storagePath

theorem mem_findBlobsByPath {paths : List String} {n : Nat} {b : StorageBlob}
    (h : b ∈ findBlobsByPath l paths n) : b ∈ l.blobs.rows := by
  obtain ⟨batch, -, hb⟩ := List.mem_flatMap.mp h
  exact (Table.mem_select.mp hb).1

/-- Rows with distinct paths have distinct ids. -/
theorem nodup_ids_of_paths {found : List StorageBlob} (hmem : ∀ b ∈ found, b ∈ l.blobs.rows)
    (hnd : (found.map (·.storagePath)).Nodup) : (found.map (·.id)).Nodup := by
  refine List.Nodup.map_on ?_ (List.Nodup.of_map _ hnd)
  intro a ha b hb hid
  exact l.blobs.eq_of_clash (hmem a ha) (hmem b hb) (StorageBlob.clash_of_id hid)

/-- The updates planned for all rows of the released paths take their references. -/
theorem referenceUpdated_planned {storagePaths : List String} {found : List StorageBlob}
    (hpaths : found.map (·.storagePath) = sortedStoragePaths storagePaths)
    (hrows : ∀ b ∈ found, b ∈ l.blobs.rows ∧ b.status = .active) :
    ∀ b ∈ l.blobs.rows, referenceUpdated (found.map (plannedUpdate storagePaths)) b
      = dereferenced storagePaths b := by
  have hids : ((found.map (plannedUpdate storagePaths)).map (·.id)).Nodup := by
    rw [List.map_map]
    exact nodup_ids_of_paths (fun b hb => (hrows b hb).1)
      (hpaths ▸ sortedStoragePaths_nodup storagePaths)
  intro b hb
  by_cases hin : b ∈ found
  · have hmem : plannedUpdate storagePaths b ∈ found.map (plannedUpdate storagePaths) :=
      List.mem_map_of_mem hin
    have hid : b.id ∈ (found.map (plannedUpdate storagePaths)).map (·.id) :=
      List.mem_map_of_mem (f := fun u : ReferenceUpdate => u.id) hmem
    have hpath : b.storagePath ∈ sortedStoragePaths storagePaths :=
      hpaths ▸ List.mem_map_of_mem hin
    -- a row that was found: the planned update is the one that carries its id
    have hcount := Nat.pos_iff_ne_zero.mp (mem_sortedStoragePaths.mp hpath)
    rw [referenceUpdated, if_pos ⟨hid, (hrows b hin).2⟩,
      applyReferenceUpdate_of_mem hids hmem rfl, dereferenced, if_neg hcount]
    rfl
  -- any other row: its path is not released, since each released path found its row
  · have hcount : countStoragePaths storagePaths b.storagePath = 0 := by
      refine Nat.eq_zero_of_not_pos fun hpos => hin ?_
      rw [← mem_sortedStoragePaths, ← hpaths] at hpos
      obtain ⟨f, hf, hpath⟩ := List.mem_map.mp hpos
      rwa [← l.blobs.eq_of_clash (hrows f hf).1 hb (StorageBlob.clash_of_path hpath)]
    rw [dereferenced, if_pos hcount, referenceUpdated, if_neg]
    rintro ⟨hmem, -⟩
    rw [List.map_map] at hmem
    obtain ⟨f, hf, hid⟩ := List.mem_map.mp hmem
    refine hin ?_
    rwa [← l.blobs.eq_of_clash (hrows f hf).1 hb (StorageBlob.clash_of_id hid)]

/-- The transaction behind the call, for the sorted paths. -/
theorem releasePaths_ok {storagePaths : List String} {now : Time} {n : Nat} (hn : 0 < n)
    (h : releasePaths l storagePaths (sortedStoragePaths storagePaths) now n = .ok l') :
    Released l storagePaths l' := by
  rw [releasePaths] at h
  obtain ⟨_, -, h⟩ := bind_eq_ok.mp h
  obtain ⟨⟨updates, jobs⟩, hplan, h⟩ := bind_eq_ok.mp h
  obtain ⟨m, hm, hjobs⟩ := bind_eq_ok.mp h
  obtain ⟨found, hpaths, hfound, rfl, rfl⟩ := referenceUpdates_ok _ _ _ _ _ _ hplan
  have hrows : ∀ b ∈ found, b ∈ l.blobs.rows := fun b hb => mem_findBlobsByPath (hfound b hb).1
  have hids : (found.map (·.id)).Nodup :=
    nodup_ids_of_paths hrows (hpaths ▸ sortedStoragePaths_nodup storagePaths)
  have hupdates : ((found.map (plannedUpdate storagePaths)).map (·.id)).Nodup := by
    rw [List.map_map]
    exact hids
  -- the rows under the released paths are the rows that were found
  have hreleased : ∀ b ∈ l.blobs.rows, 0 < countStoragePaths storagePaths b.storagePath ↔
      b ∈ found := by
    intro b hb
    rw [← mem_sortedStoragePaths, ← hpaths, List.mem_map]
    constructor
    · rintro ⟨f, hf, hpath⟩
      rwa [← l.blobs.eq_of_clash (hrows f hf) hb (StorageBlob.clash_of_path hpath)]
    · intro hf
      exact ⟨b, hf, rfl⟩
  -- the updates in batches are one rewrite of all of them
  have hrewrite : Rewrites l (referenceUpdated (found.map (plannedUpdate storagePaths))) m := by
    refine rewrites_batches hn (fun b => by simp [referenceUpdated]) ?_
      (fun _ _ _ => referenceBatch_ok) hm
    rintro ys zs b hpre
    exact referenceUpdated_append (hupdates.sublist (hpre.sublist.map _)) b
  refine ⟨?_, ?_, m, plannedJobs storagePaths now found, hrewrite.congr
    (referenceUpdated_planned hpaths fun b hb => ⟨hrows b hb, (hfound b hb).2.1⟩), ?_, ?_, ?_⟩
  · intro b hb hpos
    exact (hfound b ((hreleased b hb).mp hpos)).2
  · intro path hpos
    rw [← mem_sortedStoragePaths, ← hpaths] at hpos
    obtain ⟨b, hb, hpath⟩ := List.mem_map.mp hpos
    exact ⟨b, hrows b hb, hpath⟩
  · refine enqueued_batches hn ?_ hjobs
    intro m job m' hjob hf
    obtain ⟨b, -, rfl⟩ := List.mem_map.mp hjob
    refine createJob_ok rfl ?_ hf
    exact fun j _ => Or.inr ⟨rfl, rfl, rfl, Or.inl rfl⟩
  · intro b hb
    rw [plannedJobs, List.map_map, List.mem_map]
    constructor
    · rintro ⟨f, hf, hid⟩
      obtain ⟨hf, hzero⟩ := List.mem_filter.mp hf
      obtain rfl := l.blobs.eq_of_clash (hrows f hf) hb (StorageBlob.clash_of_id hid)
      have hle := (hfound f hf).2.2
      have hzero : f.refCount - countStoragePaths storagePaths f.storagePath = 0 := by
        simpa using hzero
      exact ⟨(hreleased f hb).mpr hf, by omega⟩
    · rintro ⟨hpos, heq⟩
      refine ⟨b, List.mem_filter.mpr ⟨(hreleased b hb).mp hpos, ?_⟩, rfl⟩
      simp [heq]
  · intro n hn
    obtain ⟨b, hb, rfl⟩ := List.mem_map.mp hn
    exact ⟨b, hrows b (List.mem_filter.mp hb).1, rfl, rfl⟩

/-- **Release of references**: each path loses as many as the call names. -/
theorem releaseReferences_ok {paths : List String} {now : Time} {batchSize : Int}
    (h : releaseReferences l paths now batchSize = .ok l') : Released l paths l' := by
  rw [releaseReferences] at h
  split at h
  · next hnil =>
      cases h
      have hzero : ∀ path, countStoragePaths paths path = 0 := by
        intro path
        refine Nat.eq_zero_of_not_pos fun hpos => ?_
        rw [← mem_sortedStoragePaths, hnil] at hpos
        exact nomatch hpos
      refine ⟨?_, ?_, l, [], ?_, Enqueued.nil l, ?_, by simp⟩
      · intro b _ hpos
        rw [hzero] at hpos
        exact absurd hpos (Nat.lt_irrefl 0)
      · intro path hpos
        rw [hzero] at hpos
        exact absurd hpos (Nat.lt_irrefl 0)
      · exact (Rewrites.id l).congr fun b _ => by simp [dereferenced, hzero]
      · intro b _
        simp [hzero]
  · exact releasePaths_ok (normalizeStorageBlobBatchSize_pos batchSize) h

/-! ## Release of staging -/

/-- Staging rows that match `p` are dropped and their reservation is returned. -/
structure StagingReleased (l : Ledger) (p : StorageBlob → Bool) (l' : Ledger) : Prop where
  staging : ∀ b ∈ l.blobs.rows, p b = true → b.status = .staging
  covered : ((l.blobs.select p).map (·.size)).sum ≤ l.quota.reservedBytes
  dropped : Dropped (withQuota l l.quota.usedBytes
    (l.quota.reservedBytes - ((l.blobs.select p).map (·.size)).sum)) p l'

theorem StagingReleased.none (l : Ledger) : StagingReleased l (fun _ => false) l := by
  have hsel : l.blobs.select (fun _ => false) = [] := List.filter_false _
  refine ⟨by simp, by simp [hsel], ?_⟩
  rw [hsel]
  refine ⟨rfl, rfl, ?_, ?_⟩
  · exact (List.filter_eq_self.mpr fun _ _ => rfl).symm
  · refine (List.filter_eq_self.mpr fun j _ => ?_).symm
    simp

/-- Only the rows that are there count. -/
theorem StagingReleased.congr {p q : StorageBlob → Bool} (h : StagingReleased l p l')
    (heq : ∀ b ∈ l.blobs.rows, p b = q b) : StagingReleased l q l' := by
  have hsel : l.blobs.select q = l.blobs.select p :=
    List.filter_congr fun b hb => (heq b hb).symm
  obtain ⟨hstaging, hcovered, hdropped⟩ := h
  refine ⟨fun b hb hq => hstaging b hb ((heq b hb).trans hq), hsel ▸ hcovered, ?_⟩
  rw [hsel]
  refine ⟨hdropped.quota, hdropped.nextJobID, ?_, ?_⟩
  · rw [hdropped.rows]
    exact List.filter_congr fun b hb => by rw [heq b hb]
  · rw [hdropped.jobs]
    refine List.filter_congr fun j _ => ?_
    refine congrArg not (Bool.eq_iff_iff.mpr ?_)
    simp only [List.any_eq_true]
    constructor <;> rintro ⟨b, hb, h⟩ <;> refine ⟨b, hb, ?_⟩
    · rwa [← heq b hb]
    · rwa [heq b hb]

theorem releaseStaging_ok {blobID : String} (h : releaseStaging l blobID = .ok l') :
    ∃ p : StorageBlob → Bool, (∀ b, p b = true → b.id = blobID) ∧ StagingReleased l p l' := by
  rw [releaseStaging] at h
  split at h
  · cases h
    exact ⟨fun _ => false, by simp, StagingReleased.none l⟩
  next blob hblob =>
  obtain ⟨hmem, hid⟩ := Table.first?_eq_some hblob
  obtain rfl : blob.id = blobID := by simpa using hid
  obtain ⟨_, hstaging, h⟩ := bind_eq_ok.mp h
  obtain ⟨m, hm, h⟩ := bind_eq_ok.mp h
  obtain rfl := pure_eq_ok.mp h
  -- the id selects this one row
  have hsel : l.blobs.select (fun b => b.id == blob.id) = [blob] :=
    l.blobs.select_eq_singleton hmem (by simp)
      fun a ha => StorageBlob.clash_of_id (by simpa using ha)
  -- a row without a size takes nothing from the quota
  have hm' : blob.size ≤ l.quota.reservedBytes
      ∧ m = withQuota l l.quota.usedBytes (l.quota.reservedBytes - blob.size) := by
    split at hm
    · exact releaseQuota_ok hm
    · next hzero =>
        cases hm
        obtain hz : blob.size = 0 := by omega
        rw [hz]
        exact ⟨Nat.zero_le _, rfl⟩
  obtain ⟨hcovered, rfl⟩ := hm'
  refine ⟨fun b => b.id == blob.id, fun b hb => by simpa using hb, ?_, ?_, ?_⟩
  · intro b hb hp
    rw [l.blobs.eq_of_clash hb hmem (StorageBlob.clash_of_id (by simpa using hp))]
    exact ensure_eq_ok.mp hstaging
  · simpa [hsel] using hcovered
  · rw [hsel, List.map_singleton, List.sum_singleton]
    exact dropped_deleteBlobs _ _

theorem distinctIDs_ok : ∀ (ids seen : List String),
    (distinctIDs seen ids).Nodup ∧ ∀ id ∈ distinctIDs seen ids, id ∈ ids ∧ id ∉ seen := by
  intro ids
  induction ids with
  | nil =>
      intro seen
      exact ⟨List.nodup_nil, by simp [distinctIDs]⟩
  | cons a rest ih =>
      intro seen
      rw [distinctIDs]
      split
      · obtain ⟨hnd, hmem⟩ := ih seen
        exact ⟨hnd, fun id hid => ⟨List.mem_cons_of_mem _ (hmem id hid).1, (hmem id hid).2⟩⟩
      · next hseen =>
          obtain ⟨hnd, hmem⟩ := ih (a :: seen)
          refine ⟨List.nodup_cons.mpr ⟨fun ha => (hmem a ha).2 List.mem_cons_self, hnd⟩, ?_⟩
          intro id hid
          rcases List.mem_cons.mp hid with rfl | hid
          · exact ⟨List.mem_cons_self, fun h => hseen (Or.inr h)⟩
          · obtain ⟨h1, h2⟩ := hmem id hid
            exact ⟨List.mem_cons_of_mem _ h1, fun h => h2 (List.mem_cons_of_mem _ h)⟩

/-- No id but the empty one is lost. -/
theorem mem_distinctIDs : ∀ (ids seen : List String) {id : String}, id ∈ ids → id ≠ "" →
    id ∉ seen → id ∈ distinctIDs seen ids := by
  intro ids
  induction ids with
  | nil => exact fun _ _ h => nomatch h
  | cons a rest ih =>
      intro seen id hmem hne hseen
      rw [distinctIDs]
      split
      · next hskip =>
          rcases List.mem_cons.mp hmem with rfl | hmem
          · exact (hskip.elim hne hseen).elim
          · exact ih seen hmem hne hseen
      · by_cases ha : id = a
        · exact List.mem_cons.mpr (Or.inl ha)
        · have hrest := (List.mem_cons.mp hmem).resolve_left ha
          have hnot : id ∉ a :: seen := by
            rw [List.mem_cons]
            exact not_or.mpr ⟨ha, hseen⟩
          exact List.mem_cons_of_mem _ (ih (a :: seen) hrest hne hnot)

/-- The query finds every row whose id is asked for. -/
theorem mem_findBlobsByID_of_mem {ids : List String} {n : Nat} (hn : 0 < n) {b : StorageBlob}
    (hb : b ∈ l.blobs.rows) (hid : b.id ∈ ids) : b ∈ findBlobsByID l ids n := by
  rw [← flatten_batches hn ids] at hid
  obtain ⟨batch, hbatch, hmem⟩ := List.mem_flatten.mp hid
  exact List.mem_flatMap.mpr ⟨batch, hbatch, Table.mem_select.mpr ⟨hb, decide_eq_true hmem⟩⟩

/-- The query finds no row twice when no id is asked for twice. -/
theorem findBlobsByID_nodup {ids : List String} (hnd : ids.Nodup) {n : Nat} (hn : 0 < n) :
    (findBlobsByID l ids n).Nodup := by
  rw [← flatten_batches hn ids] at hnd
  obtain ⟨-, hdisj⟩ := List.nodup_flatten.mp hnd
  refine List.nodup_flatMap.mpr ⟨fun _ _ => l.blobs.rows_nodup.filter _, hdisj.imp ?_⟩
  intro xs ys hxy b hbx hby
  have hx : b.id ∈ xs := by simpa using (Table.mem_select.mp hbx).2
  have hy : b.id ∈ ys := by simpa using (Table.mem_select.mp hby).2
  exact hxy hx hy

theorem mem_ids_of_findBlobsByID {ids : List String} {n : Nat} (hn : 0 < n) {b : StorageBlob}
    (h : b ∈ findBlobsByID l ids n) : b.id ∈ ids := by
  obtain ⟨batch, hbatch, hb⟩ := List.mem_flatMap.mp h
  rw [← flatten_batches hn ids]
  exact List.mem_flatten.mpr ⟨batch, hbatch, by simpa using (Table.mem_select.mp hb).2⟩

/-- The loop adds up the sizes and lets only staging rows through. -/
theorem releasedTotals_ok : ∀ (blobs : List StorageBlob) (total r : Nat) (ids : List String),
    releasedTotals total blobs = .ok (r, ids) →
      ids = blobs.map (·.id) ∧ r = total + (blobs.map (·.size)).sum
        ∧ ∀ b ∈ blobs, b.status = .staging := by
  intro blobs
  induction blobs with
  | nil =>
      intro total r ids h
      cases h
      exact ⟨rfl, rfl, by simp⟩
  | cons blob rest ih =>
      intro total r ids h
      rw [releasedTotals] at h
      obtain ⟨_, hstaging, h⟩ := bind_eq_ok.mp h
      obtain ⟨_, -, h⟩ := bind_eq_ok.mp h
      obtain ⟨⟨r', ids'⟩, hrest, h⟩ := bind_eq_ok.mp h
      obtain ⟨rfl, rfl⟩ := Prod.mk.inj (pure_eq_ok.mp h)
      obtain ⟨rfl, rfl, hall⟩ := ih _ _ _ hrest
      refine ⟨rfl, by rw [List.map_cons, List.sum_cons, Nat.add_assoc], ?_⟩
      intro b hb
      rcases List.mem_cons.mp hb with rfl | hb
      · exact ensure_eq_ok.mp hstaging
      · exact hall b hb

theorem deleteBatch_ok {batch : List String} (h : deleteBatch l batch = .ok l') :
    Dropped l (fun b => decide (b.id ∈ batch)) l' := by
  rw [deleteBatch] at h
  obtain ⟨_, -, h⟩ := bind_eq_ok.mp h
  obtain rfl := pure_eq_ok.mp h
  exact dropped_deleteBlobs l _

theorem deleteBatches_ok {ids : List String} {n : Nat} (hn : 0 < n)
    (h : (batches n ids).foldlM deleteBatch l = .ok l') :
    Dropped l (fun b => decide (b.id ∈ ids)) l' := by
  refine foldlM_batches_along (P := fun xs m => Dropped l (fun b => decide (b.id ∈ xs)) m) hn
    ?_ ?_ h
  · refine ⟨rfl, rfl, ?_, ?_⟩
    · exact (List.filter_eq_self.mpr fun _ _ => by simp).symm
    · exact (List.filter_eq_self.mpr fun _ _ => by simp).symm
  · intro xs ys m m' _ hm hf
    have := hm.trans (deleteBatch_ok hf)
    simpa only [← Bool.decide_or, ← List.mem_append] using this

/-- A release takes every listed row that is there. -/
theorem releaseStagingBatch_rows {blobIDs : List String} {batchSize : Int}
    (h : releaseStagingBatch l blobIDs batchSize = .ok l') :
    ∃ p : StorageBlob → Bool, (∀ b, p b = true → b.id ∈ blobIDs)
      ∧ (∀ b ∈ l.blobs.rows, b.id ∈ blobIDs → b.id ≠ "" → p b = true)
      ∧ StagingReleased l p l' := by
  rw [releaseStagingBatch] at h
  split at h
  · next hnil =>
      cases h
      refine ⟨fun _ => false, by simp, fun b _ hid => ?_, StagingReleased.none l⟩
      rw [hnil] at hid
      exact nomatch hid
  have hn := normalizeStorageBlobBatchSize_pos batchSize
  obtain ⟨hnd, hsub⟩ := distinctIDs_ok blobIDs []
  obtain ⟨⟨total, foundIDs⟩, htotals, h⟩ := bind_eq_ok.mp h
  obtain ⟨rfl, htotal, hstaging⟩ := releasedTotals_ok _ _ _ _ htotals
  rw [Nat.zero_add] at htotal
  dsimp only at h
  -- every listed row is found
  have hall : ∀ b ∈ l.blobs.rows, b.id ∈ blobIDs → b.id ≠ "" → b ∈ findBlobsByID l
      (distinctIDs [] blobIDs) (normalizeStorageBlobBatchSize batchSize) := fun b hb hid hne =>
    mem_findBlobsByID_of_mem hn hb (mem_distinctIDs blobIDs [] hid hne List.not_mem_nil)
  split at h
  · next hnone =>
      cases h
      refine ⟨fun _ => false, by simp, fun b hb hid hne => ?_, StagingReleased.none l⟩
      have hmem := hall b hb hid hne
      rw [List.map_eq_nil_iff.mp hnone] at hmem
      exact nomatch hmem
  obtain ⟨m, hm, h⟩ := bind_eq_ok.mp h
  generalize hblobs : findBlobsByID l (distinctIDs [] blobIDs)
    (normalizeStorageBlobBatchSize batchSize) = blobs at *
  have hrows : ∀ b ∈ blobs, b ∈ l.blobs.rows := fun b hb => mem_findBlobsByID (hblobs ▸ hb)
  have hids : (blobs.map (·.id)).Nodup := by
    refine List.Nodup.map_on ?_ (hblobs ▸ findBlobsByID_nodup hnd hn)
    intro a ha b hb hid
    exact l.blobs.eq_of_clash (hrows a ha) (hrows b hb) (StorageBlob.clash_of_id hid)
  -- and the rows selected by the ids are the rows found, so their sizes sum to the same
  have hperm : (l.blobs.select fun b => decide (b.id ∈ blobs.map (·.id))).Perm blobs := by
    refine l.blobs.select_perm_found (k := fun b => b.id) ?_ rfl hids
      (fun r hr => by simpa using hr)
      (fun a b hid => StorageBlob.clash_of_id hid)
    intro b hb
    exact ⟨hrows b hb, decide_eq_true (List.mem_map_of_mem hb)⟩
  have hsum : ((l.blobs.select fun b => decide (b.id ∈ blobs.map (·.id))).map (·.size)).sum
      = total := by
    rw [htotal]
    exact (hperm.map _).sum_nat
  have hm' : total ≤ l.quota.reservedBytes
      ∧ m = withQuota l l.quota.usedBytes (l.quota.reservedBytes - total) := by
    split at hm
    · exact releaseQuota_ok hm
    · next hzero =>
        cases hm
        obtain hz : total = 0 := by omega
        rw [hz]
        exact ⟨Nat.zero_le _, rfl⟩
  obtain ⟨hcovered, rfl⟩ := hm'
  refine ⟨fun b => decide (b.id ∈ blobs.map (·.id)), ?_, fun b hb hid hne => ?_, ?_,
    hsum ▸ hcovered, ?_⟩
  · intro b hb
    obtain ⟨f, hf, hid⟩ := List.mem_map.mp (of_decide_eq_true hb)
    exact hid ▸ (hsub _ (mem_ids_of_findBlobsByID hn (hblobs ▸ hf))).1
  · exact decide_eq_true (List.mem_map_of_mem (hall b hb hid hne))
  · intro b hb hp
    exact hstaging b (hperm.mem_iff.mp (Table.mem_select.mpr ⟨hb, hp⟩))
  · rw [hsum]
    exact deleteBatches_ok hn h

/-- **Release of staging rows**: those found go, and their bytes with them. -/
theorem releaseStagingBatch_ok {blobIDs : List String} {batchSize : Int}
    (h : releaseStagingBatch l blobIDs batchSize = .ok l') :
    ∃ p : StorageBlob → Bool, (∀ b, p b = true → b.id ∈ blobIDs) ∧ StagingReleased l p l' := by
  obtain ⟨p, hp, -, hs⟩ := releaseStagingBatch_rows h
  exact ⟨p, hp, hs⟩

/-! ## Expiry and sealing -/

/-- The staging rows that match `p` are sealed; `jobs` were upserted for them. -/
structure Sealed (l : Ledger) (p : StorageBlob → Bool) (jobs : List StorageCleanupJob)
    (l' : Ledger) : Prop where
  staging : ∀ b ∈ l.blobs.rows, p b = true → b.status = .staging
  covered : ∀ b ∈ l.blobs.rows, p b = true → b.id ∈ jobs.map (·.blobID)
  paths : ∀ n ∈ jobs, ∃ b ∈ l.blobs.rows, p b = true ∧ b.id = n.blobID
    ∧ b.storagePath = n.storagePath
  steps : ∃ m, Rewrites l (fun b => if p b then sealed b else b) m ∧ Enqueued m jobs l'

/-- Expiry seals the rows it counts, one job for each; a short count is all of them. -/
theorem expireStagingForCleanup_counts {before now : Time} {limit : Int} {n : Nat}
    (h : expireStagingForCleanup l before limit now = .ok (n, l')) :
    ∃ p jobs, (∀ b, p b = true → stagingExpired before now b = true) ∧ jobs.length = n
      ∧ (n < normalizeStorageBlobBatchSize limit →
        ∀ b ∈ l.blobs.rows, stagingExpired before now b = true → p b = true)
      ∧ Sealed l p jobs l' := by
  rw [expireStagingForCleanup] at h
  generalize hblobs : (((l.blobs.select (stagingExpired before now)).mergeSort
    createdBefore).take (normalizeStorageBlobBatchSize limit)) = blobs at h
  have hsub : ∀ b ∈ blobs, b ∈ l.blobs.rows ∧ stagingExpired before now b = true := by
    intro b hb
    rw [← hblobs] at hb
    exact Table.mem_select.mp (List.mem_mergeSort.mp (List.mem_of_mem_take hb))
  -- fewer rows than the limit: the query was not cut off
  have hall : blobs.length < normalizeStorageBlobBatchSize limit →
      ∀ b ∈ l.blobs.rows, stagingExpired before now b = true → b ∈ blobs := by
    intro hshort b hb hexp
    rw [← hblobs, List.length_take] at hshort
    rw [← hblobs, List.take_of_length_le (by omega)]
    exact List.mem_mergeSort.mpr (Table.mem_select.mpr ⟨hb, hexp⟩)
  split at h
  · next hnil =>
      cases h
      refine ⟨fun _ => false, [], by simp, rfl, fun hpos b hb hexp => ?_, by simp, by simp, by simp,
        l, ?_, Enqueued.nil l⟩
      · have hmem := hall (hnil ▸ hpos) b hb hexp
        rw [hnil] at hmem
        exact nomatch hmem
      · exact (Rewrites.id l).congr fun b _ => by simp
  rw [expireBlobs] at h
  obtain ⟨_, -, h⟩ := bind_eq_ok.mp h
  obtain ⟨m, hm, h⟩ := bind_eq_ok.mp h
  obtain ⟨rfl, rfl⟩ := Prod.mk.inj (pure_eq_ok.mp h)
  -- sealed are the rows that were read and are still expired
  refine ⟨fun b => decide (b.id ∈ blobs.map (·.id)) && stagingExpired before now b, _, ?_,
    List.length_map _, fun hshort b hb hexp => ?_, ?_, ?_, ?_, _, rewrites_updateBlobs l _ _ _,
    enqueued_batches (normalizeStorageBlobBatchSize_pos limit) ?_ hm⟩
  · intro b hb
    exact (Bool.and_eq_true_iff.mp hb).2
  · exact Bool.and_eq_true_iff.mpr
      ⟨decide_eq_true (List.mem_map_of_mem (hall hshort b hb hexp)), hexp⟩
  · intro b _ hb
    have := of_decide_eq_true (Bool.and_eq_true_iff.mp hb).2
    exact this.1
  · intro b _ hb
    rw [List.map_map]
    exact of_decide_eq_true (Bool.and_eq_true_iff.mp hb).1
  · intro n hn
    obtain ⟨b, hb, rfl⟩ := List.mem_map.mp hn
    obtain ⟨hmem, hexp⟩ := hsub b hb
    refine ⟨b, hmem, ?_, rfl, rfl⟩
    rw [hexp, Bool.and_true]
    exact decide_eq_true (List.mem_map_of_mem hb)
  · intro m job m' hjob hf
    obtain ⟨b, -, rfl⟩ := List.mem_map.mp hjob
    exact createJobDoNothing_ok rfl hf

/-- **Expiry** seals only rows that have expired. -/
theorem expireStagingForCleanup_ok {before now : Time} {limit : Int} {n : Nat}
    (h : expireStagingForCleanup l before limit now = .ok (n, l')) :
    ∃ p jobs, (∀ b, p b = true → stagingExpired before now b = true) ∧ Sealed l p jobs l' := by
  obtain ⟨p, jobs, hp, -, -, hs⟩ := expireStagingForCleanup_counts h
  exact ⟨p, jobs, hp, hs⟩

/-- The unreferenced staging rows in `ids` are sealed. -/
def sealedIn (ids : List String) (b : StorageBlob) : StorageBlob :=
  if b.id ∈ ids ∧ b.status = .staging ∧ b.refCount = 0 then sealed b else b

/-- Sealing in two batches is sealing in one. -/
theorem sealedIn_sealedIn (xs ys : List String) (b : StorageBlob) :
    sealedIn ys (sealedIn xs b) = sealedIn (xs ++ ys) b := by
  by_cases hx : b.id ∈ xs ∧ b.status = .staging ∧ b.refCount = 0
  · have hxy : b.id ∈ xs ++ ys ∧ b.status = .staging ∧ b.refCount = 0 :=
      ⟨List.mem_append_left _ hx.1, hx.2⟩
    have hleft : sealedIn xs b = sealed b := if_pos hx
    rw [hleft, sealedIn, if_neg (fun h => nomatch h.2.1), sealedIn, if_pos hxy]
  · have hleft : sealedIn xs b = b := if_neg hx
    rw [hleft, sealedIn, sealedIn]
    refine ite_congr (propext ?_) (fun _ => rfl) (fun _ => rfl)
    rw [List.mem_append]
    constructor
    · exact fun h => ⟨Or.inr h.1, h.2⟩
    · exact fun h => ⟨h.1.resolve_left fun hmem => hx ⟨hmem, h.2⟩, h.2⟩

/-- A sealing call rewrites the rows of its ids. -/
theorem sealStagingForCleanupBatch_ok {ids : List String} {batchSize : Int}
    (h : sealStagingForCleanupBatch l ids batchSize = .ok l') : Rewrites l (sealedIn ids) l' := by
  refine rewrites_batches (normalizeStorageBlobBatchSize_pos batchSize)
    (fun b => by simp [sealedIn]) (fun ys zs b _ => sealedIn_sealedIn ys zs b) ?_ h
  intro m batch m' hf
  rw [sealBatch] at hf
  obtain ⟨_, -, hf⟩ := bind_eq_ok.mp hf
  obtain rfl := pure_eq_ok.mp hf
  refine (rewrites_updateBlobs m _ _ _).congr fun b _ => ?_
  simp only [sealedIn, decide_eq_true_eq]

/-! ## Orphans -/

/-- An orphan comes last, and its bytes are used from then on. -/
theorem registerOrphan_ok {blob : StorageBlob} (h : registerOrphan l blob = .ok l') :
    l.quota.usedBytes + blob.size ≤ maxUint64
      ∧ l'.quota =
        (withQuota l (l.quota.usedBytes + blob.size) l.quota.reservedBytes).quota
      ∧ l'.jobs = l.jobs ∧ l'.nextJobID = l.nextJobID
      ∧ l'.blobs.rows = l.blobs.rows ++ [blob] := by
  rw [registerOrphan] at h
  obtain ⟨m, hm, h⟩ := bind_eq_ok.mp h
  obtain ⟨used, hused, h⟩ := bind_eq_ok.mp h
  obtain ⟨hq, hj, hn, hrows⟩ := createBlob_ok hm
  obtain ⟨hrange, rfl⟩ := u64Add_eq_ok.mp hused
  obtain rfl := pure_eq_ok.mp h
  rw [hq] at hrange
  refine ⟨hrange, ?_, hj, hn, hrows⟩
  show _ = { l.quota with
    usedBytes := l.quota.usedBytes + blob.size, reservedBytes := l.quota.reservedBytes }
  rw [← hq]

/-- The unreferenced orphan `id` is scheduled for deletion. -/
def scheduled (id : String) (b : StorageBlob) : StorageBlob :=
  if b.id = id ∧ b.status = .orphaned ∧ b.refCount = 0 then { b with status := .pendingDelete }
  else b

theorem scheduleJob_ok {blob : StorageBlob} {now : Time} (h : scheduleJob l blob now = .ok l') :
    Enqueued l [plannedJob now blob] l' := by
  refine createJob_ok rfl ?_ h
  intro j hj
  exact Or.inr ⟨rfl, rfl, rfl, Or.inr ⟨plannedJob now blob, by simp, hj.symm, rfl⟩⟩

/-- **An orphan scheduled**: it waits for its deletion, and so does one that waited already. -/
theorem scheduleOrphanCleanup_ok {id : String} {now : Time}
    (h : scheduleOrphanCleanup l id now = .ok l') :
    ∃ blob ∈ l.blobs.rows, blob.id = id ∧ blob.refCount = 0
      ∧ ((blob.status = .orphaned ∧ blob.hasStagingPath = false) ∨ blob.status = .pendingDelete)
      ∧ ∃ m, Rewrites l (scheduled id) m ∧ Enqueued m [plannedJob now blob] l' := by
  rw [scheduleOrphanCleanup] at h
  obtain ⟨blob, hblob, h⟩ := bind_eq_ok.mp h
  obtain ⟨_, hcount, hmatch⟩ := bind_eq_ok.mp h
  obtain ⟨hmem, hid⟩ := Table.first?_eq_some (orElseThrow_eq_ok.mp hblob)
  obtain rfl : blob.id = id := by simpa using hid
  have hcount := ensure_eq_ok.mp hcount
  refine ⟨blob, hmem, rfl, hcount, ?_⟩
  split at hmatch
  · next hstatus =>
      obtain ⟨_, hpath, hrest⟩ := bind_eq_ok.mp hmatch
      obtain ⟨_, -, hjob⟩ := bind_eq_ok.mp hrest
      refine ⟨Or.inl ⟨hstatus, ensure_eq_ok.mp hpath⟩, _, ?_, scheduleJob_ok hjob⟩
      refine (rewrites_updateBlobs l _ _ _).congr fun b _ => ?_
      simp only [scheduled, decide_eq_true_eq]
  · next hstatus =>
      refine ⟨Or.inr hstatus, l, ?_, scheduleJob_ok hmatch⟩
      refine (Rewrites.id l).congr fun b hb => ?_
      rw [scheduled, if_neg]
      · rfl
      · rintro ⟨hid, horphaned, -⟩
        rw [l.blobs.eq_of_clash hb hmem (StorageBlob.clash_of_id hid), hstatus] at horphaned
        exact nomatch horphaned
  · exact nomatch hmatch

/-! ## The cleanup worker's statements -/

/-- Only the lease columns of some jobs changed. -/
structure JobsTouched (l l' : Ledger) : Prop where
  quota : l'.quota = l.quota
  blobs : l'.blobs = l.blobs
  nextJobID : l'.nextJobID = l.nextJobID
  rows : ∃ g : StorageCleanupJob → StorageCleanupJob, l'.jobs.rows = l.jobs.rows.map g
    ∧ ∀ j, (g j).id = j.id ∧ (g j).blobID = j.blobID ∧ (g j).storagePath = j.storagePath

/-- An update of the job columns that name no blob. -/
theorem jobsTouched_updateJobs (l : Ledger) (p : StorageCleanupJob → Bool)
    {f : StorageCleanupJob → StorageCleanupJob} (hf : KeepsKey StorageCleanupJob.clash f)
    (hsame : ∀ j, (f j).id = j.id ∧ (f j).blobID = j.blobID ∧ (f j).storagePath = j.storagePath) :
    JobsTouched l (l.updateJobs p f hf) := by
  refine ⟨rfl, rfl, rfl, fun j => if p j then f j else j, rfl, ?_⟩
  intro j
  dsimp only
  split
  · exact hsame j
  · exact ⟨rfl, rfl, rfl⟩

theorem claimCleanupJob_touches (l : Ledger) (id : Nat) (owner : String) (now leaseUntil : Time) :
    JobsTouched l (claimCleanupJob l id owner now leaseUntil).2 :=
  jobsTouched_updateJobs l _ _ fun _ => ⟨rfl, rfl, rfl⟩

theorem renewCleanupJobLease_touches (l : Ledger) (id : Nat) (owner : String) (leaseUntil : Time) :
    JobsTouched l (renewCleanupJobLease l id owner leaseUntil).2 :=
  jobsTouched_updateJobs l _ _ fun _ => ⟨rfl, rfl, rfl⟩

/-- A failure writes the lease and the retry. -/
theorem failCleanupJob_ok {id : Nat} {owner message : String} {nextRetryAt : Time}
    (h : failCleanupJob l id owner message nextRetryAt = .ok l') : JobsTouched l l' := by
  rw [failCleanupJob] at h
  obtain ⟨_, -, h⟩ := bind_eq_ok.mp h
  obtain rfl := pure_eq_ok.mp h
  exact jobsTouched_updateJobs l _ _ fun _ => ⟨rfl, rfl, rfl⟩

/-- The counters have what the row says it costs. -/
theorem refundBlob_ok {blob : StorageBlob} (h : refundBlob l blob = .ok l') :
    blob.usedSize ≤ l.quota.usedBytes ∧ blob.reservedSize ≤ l.quota.reservedBytes
      ∧ l' = withQuota l (l.quota.usedBytes - blob.usedSize)
        (l.quota.reservedBytes - blob.reservedSize) := by
  rw [refundBlob] at h
  dsimp only at h
  rw [StorageBlob.usedSize, StorageBlob.reservedSize]
  split at h
  · next hstaging =>
      obtain ⟨hle, rfl⟩ := releaseQuota_ok h
      simp only [hstaging, if_true]
      exact ⟨Nat.zero_le _, hle, rfl⟩
  · next hfinal =>
      split at h
      · next hle =>
          obtain ⟨used, hused, h⟩ := bind_eq_ok.mp h
          obtain ⟨-, rfl⟩ := u64Sub_eq_ok.mp hused
          obtain rfl := pure_eq_ok.mp h
          simp only [hfinal, if_false, Bool.false_eq_true]
          exact ⟨hle, Nat.zero_le _, rfl⟩
      · exact nomatch h

/-- Everything a successful `CompleteCleanupJob` tested and did. -/
structure Completed (l : Ledger) (id : Nat) (owner : String) (blob : StorageBlob) (l' : Ledger) :
    Prop where
  claimed : ∃ j ∈ l.jobs.rows, j.id = id ∧ j.leaseOwner = some owner ∧ j.blobID = blob.id
  mem : blob ∈ l.blobs.rows
  inactive : blob.status ≠ .active
  refCount : blob.refCount = 0
  used : blob.usedSize ≤ l.quota.usedBytes
  reserved : blob.reservedSize ≤ l.quota.reservedBytes
  dropped : Dropped (withQuota l (l.quota.usedBytes - blob.usedSize)
    (l.quota.reservedBytes - blob.reservedSize)) (fun b => b.id == blob.id) l'

/-- **The end of a cleanup job**: the row goes, with what it cost. -/
theorem completeCleanupJob_ok {id : Nat} {owner : String}
    (h : completeCleanupJob l id owner = .ok l') : ∃ blob, Completed l id owner blob l' := by
  rw [completeCleanupJob] at h
  obtain ⟨job, hjob, h⟩ := bind_eq_ok.mp h
  obtain ⟨blob, hblob, h⟩ := bind_eq_ok.mp h
  obtain ⟨_, hguard, h⟩ := bind_eq_ok.mp h
  obtain ⟨m, hm, h⟩ := bind_eq_ok.mp h
  obtain rfl := pure_eq_ok.mp h
  obtain ⟨hjmem, hown⟩ := Table.first?_eq_some (orElseThrow_eq_ok.mp hjob)
  obtain ⟨hmem, hid⟩ := Table.first?_eq_some (orElseThrow_eq_ok.mp hblob)
  have hguard := ensure_eq_ok.mp hguard
  rw [not_or, not_not] at hguard
  have hown : job.id = id ∧ job.leaseOwner = some owner := by simpa [ownedBy] using hown
  have hid : blob.id = job.blobID := by simpa using hid
  have hm' : blob.usedSize ≤ l.quota.usedBytes ∧ blob.reservedSize ≤ l.quota.reservedBytes
      ∧ m = withQuota l (l.quota.usedBytes - blob.usedSize)
        (l.quota.reservedBytes - blob.reservedSize) := by
    split at hm
    · exact refundBlob_ok hm
    · next hzero =>
        cases hm
        obtain hz : blob.size = 0 := by omega
        simp only [StorageBlob.usedSize, StorageBlob.reservedSize, hz, ite_self]
        exact ⟨Nat.zero_le _, Nat.zero_le _, rfl⟩
  obtain ⟨hused, hreserved, rfl⟩ := hm'
  exact ⟨blob, ⟨job, hjmem, hown.1, hown.2, hid.symm⟩, hmem, hguard.1, hguard.2, hused,
    hreserved, dropped_deleteBlobs _ _⟩

/-- A limit below what is used and reserved is refused. -/
theorem updateMaxBytes_ok {maxBytes : Nat} :
    updateMaxBytes l maxBytes = .ok l' ↔
      l.quota.usedBytes + l.quota.reservedBytes ≤ maxBytes
        ∧ l.quota.usedBytes + l.quota.reservedBytes ≤ maxUint64
        ∧ l' = { l with quota := { l.quota with maxBytes := maxBytes } } := by
  rw [updateMaxBytes]
  constructor
  · intro h
    split at h
    · obtain ⟨total, htotal, h⟩ := bind_eq_ok.mp h
      obtain ⟨hrange, rfl⟩ := u64Add_eq_ok.mp htotal
      split at h
      · next hle => exact ⟨hle, hrange, (pure_eq_ok.mp h).symm⟩
      · exact nomatch h
    · exact nomatch h
  · rintro ⟨hle, hrange, rfl⟩
    rw [if_pos ⟨by omega, by omega⟩]
    refine bind_eq_ok.mpr ⟨_, u64Add_eq_ok.mpr ⟨hrange, rfl⟩, ?_⟩
    rw [if_pos hle]
    rfl

end LedgerMoves
