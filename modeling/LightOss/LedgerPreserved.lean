import LightOss.LedgerInvariant

/-! # Every repository call keeps the ledger invariant

    One lemma for each way the ledger moves.  Activation (`LedgerOk.activated`) and the
    release of references (`LedgerOk.released`) also move the multiset of metadata
    references; everything else leaves it alone.

    Each proof goes through the parts of `LedgerOk` in their order: the used and the
    reserved sum, their ranges, the rows, the owners of the references, the jobs, the
    paths.  The sums move as `Table.sum_update` and `Table.sum_delete` say. -/

namespace LedgerInvariant

open KeyedTable Fallible LedgerRows BlobRepository LedgerSpecs LedgerMoves

variable {l l' : Ledger} {R : Multiset Reference}

/-! ## Staging rows -/

/-- A lease is no path. -/
theorem renewed_keepsPaths (ids : List String) (t : Time) : KeepsPaths (renewed ids t) := by
  intro b
  rw [renewed]
  split <;> exact ⟨rfl, rfl, Or.inl rfl⟩

theorem renewed_usedSize (ids : List String) (t : Time) (b : StorageBlob) :
    (renewed ids t b).usedSize = b.usedSize := by
  rw [renewed]
  split <;> rfl

theorem renewed_reservedSize (ids : List String) (t : Time) (b : StorageBlob) :
    (renewed ids t b).reservedSize = b.reservedSize := by
  rw [renewed]
  split <;> rfl

/-- A renewed staging row is as good as one that has its lease. -/
theorem rowOk_renewed {ids : List String} {t : Time} {b : StorageBlob} (h : RowOk l R b) :
    RowOk l R (renewed ids t b) := by
  rw [renewed]
  split
  · next hs =>
      obtain ⟨h1, -, h3⟩ := (rowOk_staging hs.2).mp h
      exact (rowOk_staging (b := { b with stagingLeaseExpiresAt := some t }) hs.2).mpr ⟨h1, rfl, h3⟩
  · exact h

theorem renewed_status (ids : List String) (t : Time) (b : StorageBlob) :
    (renewed ids t b).status = b.status := by
  rw [renewed]
  split <;> rfl

/-- Renewing leases keeps the invariant. -/
theorem LedgerOk.renewed (h : LedgerOk l R) {ids : List String} {t : Time}
    (hr : Rewrites l (renewed ids t) l') : LedgerOk l' R where
  used := by
    rw [hr.quota, h.used]
    exact (Table.sum_map_eq hr.rows fun b _ => renewed_usedSize ids t b).symm
  reserved := by
    rw [hr.quota, h.reserved]
    exact (Table.sum_map_eq hr.rows fun b _ => renewed_reservedSize ids t b).symm
  usedRange := hr.quota ▸ h.usedRange
  reservedRange := hr.quota ▸ h.reservedRange
  rows := by
    intro b hb
    obtain ⟨a, ha, rfl⟩ := hr.mem.mp hb
    exact (rowOk_renewed (h.rows a ha)).of_jobs (hasJob_of_jobs hr.jobs _)
  owned := by
    intro r hmem
    obtain ⟨a, ha, hact, hpath⟩ := h.owned r hmem
    exact ⟨_, hr.mem.mpr ⟨a, ha, rfl⟩, (renewed_status ids t a).trans hact,
      (renewed_keepsPaths ids t a).2.1.trans hpath⟩
  jobs := h.jobs.rewrites hr (renewed_keepsPaths ids t)
  paths := hr.rows ▸ h.paths.map (renewed_keepsPaths ids t)

/-- A blob as `CreateStaging…` receives it: staging, with a staging path, unreferenced. -/
structure NewStaging (b : StorageBlob) : Prop where
  status : b.status = .staging
  hasStagingPath : b.hasStagingPath = true
  refCount : b.refCount = 0

/-- New staging rows with paths of their own keep it. -/
theorem LedgerOk.staged (h : LedgerOk l R) {blobs : List StorageBlob} {t : Time}
    (hs : Staged l blobs (blobs.map (·.size)).sum t l') (hnew : ∀ b ∈ blobs, NewStaging b)
    (hpaths : PathsOk (l.blobs.rows ++ blobs)) : LedgerOk l' R := by
  -- no old row has the id of a new one, so the new leases are for the new rows
  have hold : ∀ b ∈ l.blobs.rows, LedgerSpecs.renewed (blobs.map (·.id)) t b = b := by
    intro b hb
    rw [LedgerSpecs.renewed, if_neg]
    rintro ⟨hid, -⟩
    obtain ⟨c, hc, hcb⟩ := List.mem_map.mp hid
    have := (List.pairwise_append.mp hs.unique).2.2 b hb c hc
    rw [StorageBlob.clash_of_id hcb.symm] at this
    cases this
  have hrows : l'.blobs.rows
      = l.blobs.rows ++ blobs.map (LedgerSpecs.renewed (blobs.map (·.id)) t) := by
    rw [hs.rows, List.map_append, List.map_congr_left hold, List.map_id']
  refine ⟨?_, ?_, ?_, ?_, ?_, ?_, ?_, ?_⟩
  · rw [hs.quota, Table.sum, hrows, List.map_append, List.sum_append, List.map_map]
    -- a row with a staging path costs nothing of the used bytes
    have hzero : (blobs.map ((·.usedSize) ∘ LedgerSpecs.renewed (blobs.map (·.id)) t)).sum = 0 := by
      refine List.sum_eq_zero_iff.mpr fun n hn => ?_
      obtain ⟨b, hb, rfl⟩ := List.mem_map.mp hn
      exact (renewed_usedSize _ t b).trans
        (StorageBlob.usedSize_of_staging (hnew b hb).hasStagingPath)
    rw [hzero]
    exact h.used
  · rw [hs.quota, Table.sum, hrows, List.map_append, List.sum_append, List.map_map]
    have hsame : blobs.map ((·.reservedSize) ∘ LedgerSpecs.renewed (blobs.map (·.id)) t)
        = blobs.map (·.size) :=
      List.map_congr_left fun b hb => (renewed_reservedSize _ t b).trans
        (StorageBlob.reservedSize_of_staging (hnew b hb).hasStagingPath)
    rw [hsame]
    exact congrArg (· + (blobs.map (·.size)).sum) h.reserved
  · rw [hs.quota]
    exact h.usedRange
  · rw [hs.quota]
    rcases Nat.eq_zero_or_pos (blobs.map (·.size)).sum with hzero | hpos
    · rw [hzero]
      exact h.reservedRange
    · exact (hs.fits hpos).2
  · intro b hb
    rw [hrows, List.mem_append] at hb
    rcases hb with hb | hb
    · exact (h.rows b hb).of_jobs (hasJob_of_jobs hs.jobs _)
    · obtain ⟨a, ha, rfl⟩ := List.mem_map.mp hb
      obtain ⟨hstatus, hpath, hcount⟩ := hnew a ha
      rw [LedgerSpecs.renewed, if_pos ⟨List.mem_map_of_mem ha, hstatus⟩]
      exact (rowOk_staging (b := { a with stagingLeaseExpiresAt := some t }) hstatus).mpr
        ⟨hpath, rfl, hcount⟩
  · intro r hr
    obtain ⟨a, ha, hact, hpath⟩ := h.owned r hr
    exact ⟨a, hrows ▸ List.mem_append_left _ ha, hact, hpath⟩
  · refine h.jobs.map hs.jobs hs.nextJobID fun b hb => ?_
    exact ⟨b, hrows ▸ List.mem_append_left _ hb, rfl, rfl⟩
  · rw [hs.rows]
    exact hpaths.map (renewed_keepsPaths _ t)

theorem grown_keepsPaths (id : String) (n : Nat) : KeepsPaths (grown id n) := by
  intro b
  rw [grown]
  split <;> exact ⟨rfl, rfl, Or.inl rfl⟩

theorem grown_status (id : String) (n : Nat) (b : StorageBlob) :
    (grown id n b).status = b.status := by
  rw [grown]
  split <;> rfl

/-- Growing a staging row together with the reserved bytes keeps the invariant. -/
theorem LedgerOk.grown (h : LedgerOk l R) {id : String} {n : Nat} {b : StorageBlob}
    (hb : b ∈ l.blobs.rows) (hid : b.id = id) (hstaging : b.status = .staging)
    (hrange : l.quota.reservedBytes + n ≤ maxUint64)
    (hr : Rewrites (withQuota l l.quota.usedBytes (l.quota.reservedBytes + n)) (grown id n) l') :
    LedgerOk l' R := by
  have hpath : ∀ a ∈ l.blobs.rows, a.status = .staging → a.hasStagingPath = true :=
    fun a ha hs => ((rowOk_staging hs).mp (h.rows a ha)).1
  refine ⟨?_, ?_, ?_, ?_, ?_, ?_, ?_, ?_⟩
  · rw [hr.quota]
    refine h.used.trans (Table.sum_map_eq hr.rows fun a ha => ?_).symm
    rw [LedgerSpecs.grown]
    split
    · next hs =>
        have hp := hpath a ha hs.2
        exact (StorageBlob.usedSize_of_staging (b := { a with size := a.size + n }) hp).trans
          (StorageBlob.usedSize_of_staging hp).symm
    · rfl
  · have hsel : l.blobs.select (fun a => decide (a.id = id ∧ a.status = .staging)) = [b] :=
      l.blobs.select_eq_singleton hb (by simp [hid, hstaging]) fun a ha =>
        StorageBlob.clash_of_id ((of_decide_eq_true ha).1.trans hid.symm)
    have hrows : l'.blobs.rows = l.blobs.rows.map fun a =>
        if decide (a.id = id ∧ a.status = .staging) then { a with size := a.size + n } else a := by
      rw [hr.rows]
      refine List.map_congr_left fun a _ => ?_
      simp only [LedgerSpecs.grown, decide_eq_true_eq]
    -- the one selected row grows by `n`, and so does the sum
    have hsum := Table.sum_update hrows (·.reservedSize)
    have hbp := hpath b hb hstaging
    have hgrown : StorageBlob.reservedSize { b with size := b.size + n } = b.size + n :=
      StorageBlob.reservedSize_of_staging hbp
    have hwas : b.reservedSize = b.size := StorageBlob.reservedSize_of_staging hbp
    rw [hsel] at hsum
    simp only [List.map_singleton, List.sum_singleton] at hsum
    rw [hgrown, hwas] at hsum
    rw [hr.quota]
    show l.quota.reservedBytes + n = _
    rw [h.reserved]
    omega
  · rw [hr.quota]
    exact h.usedRange
  · rw [hr.quota]
    exact hrange
  · intro c hc
    obtain ⟨a, ha, rfl⟩ := hr.mem.mp hc
    have hjob : ∀ id, HasJob l' id ↔ HasJob l id := hasJob_of_jobs hr.jobs
    rw [LedgerSpecs.grown]
    split
    · next hs =>
        exact (rowOk_staging (b := { a with size := a.size + n }) hs.2).mpr
          ((rowOk_staging hs.2).mp (h.rows a ha))
    · exact (h.rows a ha).of_jobs (hjob _)
  · intro r hmem
    obtain ⟨a, ha, hact, hp⟩ := h.owned r hmem
    exact ⟨_, hr.mem.mpr ⟨a, ha, rfl⟩, (grown_status id n a).trans hact,
      (grown_keepsPaths id n a).2.1.trans hp⟩
  · exact (h.jobs.withQuota _ _).rewrites hr (grown_keepsPaths id n)
  · rw [hr.rows]
    exact h.paths.map (grown_keepsPaths id n)

/-! ## Activation -/

/-- Activation gives up the staging path and keeps the final one. -/
theorem activated_keepsPaths (as : List StorageBlobActivation) : KeepsPaths (activated as) := by
  intro b
  rw [activated]
  split
  · exact ⟨rfl, rfl, Or.inr rfl⟩
  · exact ⟨rfl, rfl, Or.inl rfl⟩

/-- What activation makes of a staging row that it names. -/
theorem activated_of_mem {as : List StorageBlobActivation} {b : StorageBlob}
    (hid : b.id ∈ as.map (·.id)) (hs : b.status = .staging) :
    activated as b = { b with
      size := activatedSize as b, refCount := 1, status := .active,
      stagingPath := none, stagingLeaseExpiresAt := none } := if_pos ⟨hid, hs⟩

/-- The references a publication adds: every activated row once, with its size. -/
def publishedRefs (as : List StorageBlobActivation) (found : List StorageBlob) :
    Multiset Reference :=
  ↑(found.map fun b => (b.storagePath, (activatedSize as b : Int)))

/-- **Activation** keeps the invariant for the metadata that the same transaction publishes. -/
theorem LedgerOk.activated (h : LedgerOk l R) {as : List StorageBlobActivation}
    {found : List StorageBlob} (ha : Activation l as found l')
    (hnojob : ∀ b ∈ found, ¬ HasJob l b.id) : LedgerOk l' (R + publishedRefs as found) := by
  have hr := ha.rewrites
  have hfound : ∀ b ∈ l.blobs.rows, (b.id ∈ as.map (·.id) ∧ b.status = .staging) ↔ b ∈ found := by
    intro b hb
    rw [← ha.ids, List.mem_map]
    constructor
    · rintro ⟨⟨f, hf, hid⟩, -⟩
      rwa [← l.blobs.eq_of_clash (ha.staging f hf).1 hb (StorageBlob.clash_of_id hid)]
    · intro hf
      exact ⟨⟨b, hf, rfl⟩, (ha.staging b hf).2⟩
  have hrows : l'.blobs.rows = l.blobs.rows.map fun b =>
      if decide (b ∈ found) then LedgerMoves.activated as b else b := by
    rw [hr.rows]
    refine List.map_congr_left fun b hb => ?_
    by_cases hf : b ∈ found
    · simp [hf]
    · simp only [hf, decide_false, Bool.false_eq_true, if_false]
      exact if_neg fun hcond => hf ((hfound b hb).mp hcond)
  have hnd : found.Nodup := List.Nodup.of_map _ (ha.ids ▸ ha.nodup)
  -- the rows that the update meets are the rows that were found
  have hsel : (l.blobs.select fun b => decide (b ∈ found)).Perm found := by
    refine (List.perm_ext_iff_of_nodup (l.blobs.rows_nodup.filter _) hnd).mpr fun b => ?_
    rw [List.mem_filter, decide_eq_true_eq]
    exact ⟨fun hb => hb.2, fun hb => ⟨(ha.staging b hb).1, hb⟩⟩
  have hact : ∀ b ∈ found, LedgerMoves.activated as b = { b with
      size := activatedSize as b, refCount := 1, status := .active,
      stagingPath := none, stagingLeaseExpiresAt := none } := fun b hb =>
    activated_of_mem ((hfound b (ha.staging b hb).1).mpr hb).1 (ha.staging b hb).2
  have hstagingPath : ∀ b ∈ found, b.hasStagingPath = true := fun b hb =>
    ((rowOk_staging (ha.staging b hb).2).mp (h.rows b (ha.staging b hb).1)).1
  have hpaths : (found.map (·.storagePath)).Nodup := by
    refine List.Nodup.map_on ?_ hnd
    intro a ha' b hb hp
    exact l.blobs.eq_of_clash (ha.staging a ha').1 (ha.staging b hb).1
      (StorageBlob.clash_of_path hp)
  have hjob : ∀ id, HasJob l' id ↔ HasJob l id := hasJob_of_jobs hr.jobs
  have hnewCount : ∀ path, refCount (publishedRefs as found) path
      = (found.map (·.storagePath)).count path := by
    intro path
    rw [refCount, publishedRefs, Multiset.coe_countP, List.countP_map, List.count, List.countP_map]
    exact List.countP_congr fun b _ => by simp
  refine ⟨?_, ?_, ?_, ?_, ?_, ?_, ?_, ?_⟩
  -- used: the found rows cost nothing before and their actual size now
  · have hsum := Table.sum_update hrows (·.usedSize)
    rw [(hsel.map _).sum_nat, (hsel.map _).sum_nat] at hsum
    have hwas : found.map (·.usedSize) = found.map fun _ => 0 :=
      List.map_congr_left fun b hb => StorageBlob.usedSize_of_staging (hstagingPath b hb)
    have hnow : (found.map fun b => (LedgerMoves.activated as b).usedSize)
        = as.map (·.actualSize) := by
      rw [← ha.sizes]
      exact List.map_congr_left fun b hb => by rw [hact b hb]; rfl
    rw [hwas, hnow] at hsum
    rw [hr.quota]
    show l.quota.usedBytes + _ = _
    rw [h.used]
    simpa using hsum.symm
  -- reserved: it is the other way round
  · have hsum := Table.sum_update hrows (·.reservedSize)
    rw [(hsel.map _).sum_nat, (hsel.map _).sum_nat] at hsum
    have hwas : found.map (·.reservedSize) = found.map (·.size) :=
      List.map_congr_left fun b hb => StorageBlob.reservedSize_of_staging (hstagingPath b hb)
    have hnow : (found.map fun b => (LedgerMoves.activated as b).reservedSize)
        = found.map fun _ => 0 :=
      List.map_congr_left fun b hb => by rw [hact b hb]; rfl
    rw [hwas, hnow] at hsum
    rw [hr.quota]
    show l.quota.reservedBytes - _ = _
    rw [h.reserved]
    have hzero : (found.map fun _ => 0).sum = 0 := by simp
    omega
  · rw [hr.quota]
    show l.quota.usedBytes + (as.map (·.actualSize)).sum ≤ maxUint64
    by_cases hnil : as = []
    · rw [hnil]
      exact h.usedRange
    · exact ha.range hnil
  · rw [hr.quota]
    exact Nat.le_trans (Nat.sub_le _ _) h.reservedRange
  · intro c hc
    rw [hrows] at hc
    obtain ⟨b, hb, rfl⟩ := List.mem_map.mp hc
    by_cases hf : b ∈ found
    · -- a fresh active row: its only reference is the one added here
      simp only [hf, decide_true, if_true]
      rw [hact b hf]
      have hnone : ∀ r ∈ R, r.1 ≠ b.storagePath :=
        h.refs_of_inactive hb (by rw [(ha.staging b hf).2]; exact nofun)
      refine (rowOk_active rfl).mpr
        ⟨rfl, rfl, Nat.one_pos, ?_, fun hj => hnojob b hf ((hjob _).mp hj), ?_⟩
      · rw [refCount_add, refCount_eq_zero.mpr hnone, hnewCount,
          List.count_eq_one_of_mem hpaths (List.mem_map_of_mem hf)]
      · intro r hmem hp
        rcases Multiset.mem_add.mp hmem with hmem | hmem
        · exact absurd hp (hnone r hmem)
        · obtain ⟨f, hf', rfl⟩ := List.mem_map.mp (Multiset.mem_coe.mp hmem)
          rw [l.blobs.eq_of_clash (ha.staging f hf').1 hb (StorageBlob.clash_of_path hp)]
    · simp only [hf, decide_false, Bool.false_eq_true, if_false]
      -- any other row: no new reference names its path
      have hother : ∀ r ∈ publishedRefs as found, r.1 ≠ b.storagePath := by
        intro r hmem hp
        obtain ⟨f, hf', rfl⟩ := List.mem_map.mp (Multiset.mem_coe.mp hmem)
        exact hf (l.blobs.eq_of_clash (ha.staging f hf').1 hb (StorageBlob.clash_of_path hp) ▸ hf')
      refine (h.rows b hb).of_refs (hjob _) ?_ ?_
      · intro _ r hp
        rw [Multiset.mem_add]
        exact ⟨fun hmem => hmem.resolve_right fun hmem => hother r hmem hp, Or.inl⟩
      · intro _
        rw [refCount_add, refCount_eq_zero.mpr hother, Nat.add_zero]
  · intro r hmem
    rcases Multiset.mem_add.mp hmem with hmem | hmem
    · obtain ⟨b, hb, hactive, hp⟩ := h.owned r hmem
      refine ⟨_, hr.mem.mpr ⟨b, hb, rfl⟩, ?_, (activated_keepsPaths as b).2.1.trans hp⟩
      rw [LedgerMoves.activated]
      split
      · rfl
      · exact hactive
    · obtain ⟨f, hf, rfl⟩ := List.mem_map.mp (Multiset.mem_coe.mp hmem)
      refine ⟨_, hr.mem.mpr ⟨f, (ha.staging f hf).1, rfl⟩, ?_, (activated_keepsPaths as f).2.1⟩
      rw [hact f hf]
  · exact (h.jobs.withQuota _ _).rewrites hr (activated_keepsPaths as)
  · rw [hr.rows]
    exact h.paths.map (activated_keepsPaths as)

/-! ## Release of references -/

/-- A row that loses references keeps its paths. -/
theorem dereferenced_keepsPaths (paths : List String) : KeepsPaths (dereferenced paths) := by
  intro b
  rw [dereferenced]
  split <;> exact ⟨rfl, rfl, Or.inl rfl⟩

/-- A row that loses references keeps its bytes until the file is deleted. -/
theorem dereferenced_sizes (paths : List String) (b : StorageBlob) :
    (dereferenced paths b).usedSize = b.usedSize
      ∧ (dereferenced paths b).reservedSize = b.reservedSize := by
  rw [dereferenced]
  split <;> exact ⟨rfl, rfl⟩

/-- What the code counts in its slice is the multiset's count. -/
theorem countStoragePaths_eq_refCount {D : Multiset Reference} {paths : List String}
    (hD : D.map Prod.fst = ↑(paths.filter (· ≠ ""))) (path : String) :
    countStoragePaths paths path = refCount D path := by
  rw [countStoragePaths, refCount, ← Multiset.coe_count, ← hD, Multiset.count_map,
    Multiset.countP_eq_card_filter]
  exact congrArg Multiset.card (Multiset.filter_congr fun r _ => eq_comm)

/-- Releasing the references `D` by their paths leaves the references `R`. -/
theorem LedgerOk.released {D : Multiset Reference} (h : LedgerOk l (R + D)) {paths : List String}
    (hD : D.map Prod.fst = ↑(paths.filter (· ≠ ""))) (hr : Released l paths l') :
    LedgerOk l' R := by
  obtain ⟨m, jobs, hm, he, hjobs, hjobPaths⟩ := hr.moves
  have hcount := countStoragePaths_eq_refCount hD
  -- a row counts the references that stay and the ones that go
  have hrefs : ∀ b ∈ l.blobs.rows,
      b.refCount = refCount R b.storagePath + countStoragePaths paths b.storagePath := by
    intro b hb
    rw [h.refCount_of_mem hb, refCount_add, hcount]
  have hjob : ∀ b ∈ l.blobs.rows, countStoragePaths paths b.storagePath = 0 →
      (HasJob l' b.id ↔ HasJob l b.id) := by
    intro b hb hzero
    rw [he.hasJob, hasJob_of_jobs hm.jobs]
    refine or_iff_left fun hmem => ?_
    have := (hjobs b hb).mp hmem
    omega
  have hmem : ∀ c, c ∈ l'.blobs.rows ↔ ∃ b ∈ l.blobs.rows, dereferenced paths b = c := by
    intro c
    rw [he.blobs, hm.mem]
  refine ⟨?_, ?_, ?_, ?_, ?_, ?_, ?_, ?_⟩
  · rw [he.quota, hm.quota, he.blobs, h.used]
    exact (Table.sum_map_eq hm.rows fun b _ => (dereferenced_sizes paths b).1).symm
  · rw [he.quota, hm.quota, he.blobs, h.reserved]
    exact (Table.sum_map_eq hm.rows fun b _ => (dereferenced_sizes paths b).2).symm
  · rw [he.quota, hm.quota]
    exact h.usedRange
  · rw [he.quota, hm.quota]
    exact h.reservedRange
  · intro c hc
    obtain ⟨b, hb, rfl⟩ := (hmem c).mp hc
    by_cases hzero : countStoragePaths paths b.storagePath = 0
    -- the path is not released, so nothing of the row changes
    · rw [dereferenced, if_pos hzero]
      have hnone : ∀ r ∈ D, r.1 ≠ b.storagePath :=
        refCount_eq_zero.mp ((hcount b.storagePath).symm.trans hzero)
      refine (h.rows b hb).of_refs (hjob b hb hzero) ?_ ?_
      · intro _ r hp
        rw [Multiset.mem_add]
        exact ⟨Or.inl, fun hmem => hmem.resolve_right fun hmem => hnone r hmem hp⟩
      · intro _
        rw [refCount_add, refCount_eq_zero.mpr hnone, Nat.add_zero]
    · have hpos := Nat.pos_of_ne_zero hzero
      obtain ⟨hactive, hle⟩ := hr.active b hb hpos
      obtain ⟨hpath, hlease, -, -, hnojob, hsize⟩ := (rowOk_active hactive).mp (h.rows b hb)
      have hsum := hrefs b hb
      rw [dereferenced, if_neg hzero]
      by_cases hlast : b.refCount - countStoragePaths paths b.storagePath = 0
      · rw [hlast, if_pos rfl]
        -- the last reference: the row is sealed with its job
        refine (rowOk_pendingDelete rfl).mpr ⟨hlease, rfl, (he.hasJob b.id).mpr (Or.inr ?_)⟩
        exact (hjobs b hb).mpr ⟨hpos, by omega⟩
      · rw [if_neg hlast]
        -- some are left: the row stays active and counts those
        have hremaining : b.refCount - countStoragePaths paths b.storagePath
            = refCount R b.storagePath := by omega
        refine (rowOk_active rfl).mpr ⟨hpath, hlease, Nat.pos_of_ne_zero hlast, hremaining, ?_, ?_⟩
        · intro hj
          rcases (he.hasJob b.id).mp hj with hj | hj
          · exact hnojob ((hasJob_of_jobs hm.jobs _).mp hj)
          · have := ((hjobs b hb).mp hj).2
            omega
        · exact fun r hmem hp => hsize r (Multiset.mem_add.mpr (Or.inl hmem)) hp
  · intro r hmemR
    obtain ⟨b, hb, hactive, hp⟩ := h.owned r (Multiset.mem_add.mpr (Or.inl hmemR))
    refine ⟨dereferenced paths b, (hmem _).mpr ⟨b, hb, rfl⟩, ?_,
      (dereferenced_keepsPaths paths b).2.1.trans hp⟩
    have hpos : 0 < refCount R b.storagePath := refCount_pos.mpr ⟨r, hmemR, hp.symm⟩
    have hsum := hrefs b hb
    rw [dereferenced]
    split
    · exact hactive
    · exact if_neg (by omega)
  · refine (h.jobs.rewrites hm (dereferenced_keepsPaths paths)).enqueued he ?_
    intro n hn c hc hid
    obtain ⟨b, hb, hbid, hbp⟩ := hjobPaths n hn
    obtain ⟨a, ha, rfl⟩ := hm.mem.mp hc
    have hab := l.blobs.eq_of_clash ha hb (StorageBlob.clash_of_id
      ((dereferenced_keepsPaths paths a).1.symm.trans (hid.trans hbid.symm)))
    rw [(dereferenced_keepsPaths paths a).2.1, hab, hbp]
  · rw [he.blobs, hm.rows]
    exact h.paths.map (dereferenced_keepsPaths paths)

/-! ## Release of staging, cleanup -/

/-- Rows without references leave, and the counters that paid for them shrink. -/
theorem LedgerOk.dropped (h : LedgerOk l R) {p : StorageBlob → Bool} {used reserved : Nat}
    (hinactive : ∀ b ∈ l.blobs.rows, p b = true → b.status ≠ .active)
    (hused : used + ((l.blobs.select p).map (·.usedSize)).sum = l.quota.usedBytes)
    (hreserved : reserved + ((l.blobs.select p).map (·.reservedSize)).sum
      = l.quota.reservedBytes)
    (hd : Dropped (withQuota l used reserved) p l') : LedgerOk l' R := by
  refine ⟨?_, ?_, ?_, ?_, ?_, ?_, ?_, ?_⟩
  · have hsum : _ = l.blobs.sum _ := Table.sum_delete hd.rows (·.usedSize)
    have hq : l'.quota.usedBytes = used := by rw [hd.quota]; rfl
    have := h.used
    have hsel : (withQuota l used reserved).blobs.select p = l.blobs.select p := rfl
    rw [hsel] at hsum
    omega
  · have hsum : _ = l.blobs.sum _ := Table.sum_delete hd.rows (·.reservedSize)
    have hq : l'.quota.reservedBytes = reserved := by rw [hd.quota]; rfl
    have := h.reserved
    have hsel : (withQuota l used reserved).blobs.select p = l.blobs.select p := rfl
    rw [hsel] at hsum
    omega
  · have hq : l'.quota.usedBytes = used := by rw [hd.quota]; rfl
    have := h.usedRange
    omega
  · have hq : l'.quota.reservedBytes = reserved := by rw [hd.quota]; rfl
    have := h.reservedRange
    omega
  · intro b hb
    exact (h.rows b (hd.mem_rows.mp hb).1).of_jobs (hasJob_dropped hd hb)
  · intro r hr
    obtain ⟨b, hb, hactive, hp⟩ := h.owned r hr
    refine ⟨b, hd.mem_rows.mpr ⟨hb, ?_⟩, hactive, hp⟩
    cases hpb : p b with
    | false => rfl
    | true => exact absurd hactive (hinactive b hb hpb)
  · exact (h.jobs.withQuota used reserved).dropped hd
  · exact h.paths.sublist fun b hb => (hd.mem_rows.mp hb).1

/-- Deleting staging rows with their bytes keeps the invariant. -/
theorem LedgerOk.stagingReleased (h : LedgerOk l R) {p : StorageBlob → Bool}
    (hs : StagingReleased l p l') : LedgerOk l' R := by
  have hpath : ∀ b ∈ l.blobs.select p, b.hasStagingPath = true := by
    intro b hb
    obtain ⟨hmem, hp⟩ := Table.mem_select.mp hb
    exact ((rowOk_staging (hs.staging b hmem hp)).mp (h.rows b hmem)).1
  have hused : (l.blobs.select p).map (·.usedSize) = (l.blobs.select p).map fun _ => 0 :=
    List.map_congr_left fun b hb => StorageBlob.usedSize_of_staging (hpath b hb)
  have hreserved : (l.blobs.select p).map (·.reservedSize) = (l.blobs.select p).map (·.size) :=
    List.map_congr_left fun b hb => StorageBlob.reservedSize_of_staging (hpath b hb)
  refine h.dropped ?_ ?_ ?_ hs.dropped
  · intro b hb hp
    rw [hs.staging b hb hp]
    exact nofun
  · rw [hused]
    simp
  · rw [hreserved]
    exact Nat.sub_add_cancel hs.covered

/-- Deleting a row that waited for it, with its bytes, keeps the invariant. -/
theorem LedgerOk.completed (h : LedgerOk l R) {id : Nat} {owner : String} {blob : StorageBlob}
    (hc : Completed l id owner blob l') : LedgerOk l' R := by
  have hsel : l.blobs.select (fun b => b.id == blob.id) = [blob] :=
    l.blobs.select_eq_singleton hc.mem (by simp)
      fun a ha => StorageBlob.clash_of_id (by simpa using ha)
  refine h.dropped ?_ ?_ ?_ hc.dropped
  · intro b hb hp
    rw [l.blobs.eq_of_clash hb hc.mem (StorageBlob.clash_of_id (by simpa using hp))]
    exact hc.inactive
  · rw [hsel, List.map_singleton, List.sum_singleton]
    exact Nat.sub_add_cancel hc.used
  · rw [hsel, List.map_singleton, List.sum_singleton]
    exact Nat.sub_add_cancel hc.reserved

/-! ## Sealing, orphans, jobs -/

/-- Sealing keeps the invariant: each row gets its job. -/
theorem LedgerOk.sealed (h : LedgerOk l R) {p : StorageBlob → Bool}
    {jobs : List StorageCleanupJob} (hs : Sealed l p jobs l') : LedgerOk l' R := by
  obtain ⟨m, hm, he⟩ := hs.steps
  have hkeeps : KeepsPaths fun b => if p b then BlobRepository.sealed b else b := by
    intro b
    dsimp only
    split <;> exact ⟨rfl, rfl, Or.inl rfl⟩
  -- a row that is not sealed gets no job
  have hunsealed : ∀ b ∈ l.blobs.rows, p b = false → (HasJob l' b.id ↔ HasJob l b.id) := by
    intro b hb hp
    rw [he.hasJob, hasJob_of_jobs hm.jobs]
    refine or_iff_left fun hmem => ?_
    obtain ⟨n, hn, hid⟩ := List.mem_map.mp hmem
    obtain ⟨c, hc, hpc, hcid, -⟩ := hs.paths n hn
    rw [l.blobs.eq_of_clash hc hb (StorageBlob.clash_of_id (hcid.trans hid)), hp] at hpc
    exact nomatch hpc
  refine ⟨?_, ?_, ?_, ?_, ?_, ?_, ?_, ?_⟩
  · rw [he.quota, hm.quota, he.blobs, h.used]
    refine (Table.sum_map_eq hm.rows fun b _ => ?_).symm
    split <;> rfl
  · rw [he.quota, hm.quota, he.blobs, h.reserved]
    refine (Table.sum_map_eq hm.rows fun b _ => ?_).symm
    split <;> rfl
  · rw [he.quota, hm.quota]
    exact h.usedRange
  · rw [he.quota, hm.quota]
    exact h.reservedRange
  · intro c hc
    rw [he.blobs] at hc
    obtain ⟨b, hb, rfl⟩ := hm.mem.mp hc
    cases hp : p b with
    | true =>
        obtain ⟨-, -, hcount⟩ := (rowOk_staging (hs.staging b hb hp)).mp (h.rows b hb)
        simp only [if_true]
        refine (rowOk_pendingDelete rfl).mpr ⟨rfl, hcount, (he.hasJob b.id).mpr (Or.inr ?_)⟩
        exact hs.covered b hb hp
    | false =>
        simp only [Bool.false_eq_true, if_false]
        exact (h.rows b hb).of_jobs (hunsealed b hb hp)
  · intro r hr
    obtain ⟨b, hb, hactive, hpath⟩ := h.owned r hr
    refine ⟨b, he.blobs ▸ hm.mem.mpr ⟨b, hb, ?_⟩, hactive, hpath⟩
    cases hp : p b with
    | true => rw [hs.staging b hb hp] at hactive; exact nomatch hactive
    | false => rfl
  · refine (h.jobs.rewrites hm hkeeps).enqueued he ?_
    intro n hn c hc hid
    obtain ⟨b, hb, -, hbid, hbp⟩ := hs.paths n hn
    obtain ⟨a, ha, rfl⟩ := hm.mem.mp hc
    have hab := l.blobs.eq_of_clash ha hb (StorageBlob.clash_of_id
      ((hkeeps a).1.symm.trans (hid.trans hbid.symm)))
    rw [(hkeeps a).2.1, hab, hbp]
  · rw [he.blobs, hm.rows]
    exact h.paths.map hkeeps

/-- Cleanup jobs may be added for rows that are staging or already sealed. -/
theorem LedgerOk.enqueued (h : LedgerOk l R) {jobs : List StorageCleanupJob}
    (he : Enqueued l jobs l')
    (hjobs : ∀ n ∈ jobs, ∀ b ∈ l.blobs.rows, b.id = n.blobID →
      (b.status = .staging ∨ b.status = .pendingDelete) ∧ b.storagePath = n.storagePath) :
    LedgerOk l' R := by
  refine ⟨?_, ?_, ?_, ?_, ?_, ?_, ?_, ?_⟩
  · rw [he.quota, he.blobs]
    exact h.used
  · rw [he.quota, he.blobs]
    exact h.reserved
  · rw [he.quota]
    exact h.usedRange
  · rw [he.quota]
    exact h.reservedRange
  · intro b hb
    rw [he.blobs] at hb
    by_cases hmem : b.id ∈ jobs.map (·.blobID)
    · obtain ⟨n, hn, hid⟩ := List.mem_map.mp hmem
      rcases (hjobs n hn b hb hid.symm).1 with hst | hst
      · exact (rowOk_staging hst).mpr ((rowOk_staging hst).mp (h.rows b hb))
      · obtain ⟨h1, h2, -⟩ := (rowOk_pendingDelete hst).mp (h.rows b hb)
        exact (rowOk_pendingDelete hst).mpr ⟨h1, h2, (he.hasJob b.id).mpr (Or.inr hmem)⟩
    · exact (h.rows b hb).of_jobs ((he.hasJob b.id).trans (or_iff_left hmem))
  · rw [he.blobs]
    exact h.owned
  · exact h.jobs.enqueued he fun n hn b hb hid => (hjobs n hn b hb hid).2
  · rw [he.blobs]
    exact h.paths

/-- An orphan under a path of its own keeps it. -/
theorem LedgerOk.orphanRegistered (h : LedgerOk l R) {blob : StorageBlob}
    (hstatus : blob.status = .orphaned) (hpath : blob.hasStagingPath = false)
    (hlease : blob.stagingLeaseExpiresAt = none) (hcount : blob.refCount = 0)
    (hid : ∀ b ∈ l.blobs.rows, b.id ≠ blob.id) (hpaths : PathsOk (l.blobs.rows ++ [blob]))
    (hr : registerOrphan l blob = .ok l') : LedgerOk l' R := by
  obtain ⟨hrange, hq, hj, hn, hrows⟩ := registerOrphan_ok hr
  have hjob : ∀ id, HasJob l' id ↔ HasJob l id := hasJob_of_jobs hj
  refine ⟨?_, ?_, ?_, ?_, ?_, ?_, ?_, ?_⟩
  · rw [hq, Table.sum, hrows, List.map_append, List.sum_append]
    -- an orphan has no staging path, so it costs used bytes
    have hsize : blob.usedSize = blob.size := if_neg (by rw [hpath]; exact Bool.false_ne_true)
    rw [List.map_singleton, List.sum_singleton, hsize]
    exact congrArg (· + blob.size) h.used
  · rw [hq, Table.sum, hrows, List.map_append, List.sum_append]
    have hsize : blob.reservedSize = 0 := if_neg (by rw [hpath]; exact Bool.false_ne_true)
    rw [List.map_singleton, List.sum_singleton, hsize]
    exact h.reserved
  · rw [hq]
    exact hrange
  · rw [hq]
    exact h.reservedRange
  · intro b hb
    rw [hrows, List.mem_append, List.mem_singleton] at hb
    rcases hb with hb | rfl
    · exact (h.rows b hb).of_jobs (hjob _)
    · refine (rowOk_orphaned hstatus).mpr ⟨hpath, hlease, hcount, ?_⟩
      rintro ⟨j, hj', hjid⟩
      obtain ⟨c, hc, hcid, -⟩ := h.jobs.blob j (hj ▸ hj')
      exact hid c hc (hcid.trans hjid)
  · intro r hr'
    obtain ⟨b, hb, hactive, hp⟩ := h.owned r hr'
    exact ⟨b, hrows ▸ List.mem_append_left _ hb, hactive, hp⟩
  · refine h.jobs.map hj hn fun b hb => ?_
    exact ⟨b, hrows ▸ List.mem_append_left _ hb, rfl, rfl⟩
  · rw [hrows]
    exact hpaths

/-- Scheduling an orphan keeps it: the row gets its job. -/
theorem LedgerOk.scheduled (h : LedgerOk l R) {id : String} {now : Time}
    (hs : scheduleOrphanCleanup l id now = .ok l') : LedgerOk l' R := by
  obtain ⟨blob, hblob, rfl, hcount, hstatus, m, hm, he⟩ := scheduleOrphanCleanup_ok hs
  have hkeeps : KeepsPaths (LedgerMoves.scheduled blob.id) := by
    intro b
    rw [LedgerMoves.scheduled]
    split <;> exact ⟨rfl, rfl, Or.inl rfl⟩
  -- only the orphan gets a job
  have hother : ∀ b ∈ l.blobs.rows, b ≠ blob → (HasJob l' b.id ↔ HasJob l b.id) := by
    intro b hb hne
    rw [he.hasJob, hasJob_of_jobs hm.jobs]
    refine or_iff_left fun hmem => hne ?_
    rw [List.map_singleton, List.mem_singleton] at hmem
    exact l.blobs.eq_of_clash hb hblob (StorageBlob.clash_of_id hmem)
  refine ⟨?_, ?_, ?_, ?_, ?_, ?_, ?_, ?_⟩
  · rw [he.quota, hm.quota, he.blobs, h.used]
    refine (Table.sum_map_eq hm.rows fun b _ => ?_).symm
    rw [LedgerMoves.scheduled]
    split <;> rfl
  · rw [he.quota, hm.quota, he.blobs, h.reserved]
    refine (Table.sum_map_eq hm.rows fun b _ => ?_).symm
    rw [LedgerMoves.scheduled]
    split <;> rfl
  · rw [he.quota, hm.quota]
    exact h.usedRange
  · rw [he.quota, hm.quota]
    exact h.reservedRange
  · intro c hc
    rw [he.blobs] at hc
    obtain ⟨b, hb, rfl⟩ := hm.mem.mp hc
    by_cases hbb : b = blob
    · subst hbb
      have hjob : HasJob l' b.id := (he.hasJob b.id).mpr (Or.inr (by simp [plannedJob]))
      -- scheduled now, or waiting already since an earlier call
      rcases hstatus with ⟨horphaned, -⟩ | hpending
      · obtain ⟨-, hlease, -, -⟩ := (rowOk_orphaned horphaned).mp (h.rows b hb)
        rw [LedgerMoves.scheduled, if_pos ⟨rfl, horphaned, hcount⟩]
        exact (rowOk_pendingDelete rfl).mpr ⟨hlease, hcount, hjob⟩
      · obtain ⟨hlease, -, -⟩ := (rowOk_pendingDelete hpending).mp (h.rows b hb)
        rw [LedgerMoves.scheduled, if_neg fun hc => absurd (hpending.symm.trans hc.2.1) (by decide)]
        exact (rowOk_pendingDelete hpending).mpr ⟨hlease, hcount, hjob⟩
    · rw [LedgerMoves.scheduled, if_neg]
      · exact (h.rows b hb).of_jobs (hother b hb hbb)
      · exact fun hc => hbb (l.blobs.eq_of_clash hb hblob (StorageBlob.clash_of_id hc.1))
  · intro r hr
    obtain ⟨b, hb, hactive, hp⟩ := h.owned r hr
    refine ⟨b, he.blobs ▸ hm.mem.mpr ⟨b, hb, ?_⟩, hactive, hp⟩
    rw [LedgerMoves.scheduled, if_neg]
    exact fun hc => absurd (hactive.symm.trans hc.2.1) (by decide)
  · refine (h.jobs.rewrites hm hkeeps).enqueued he ?_
    intro n hn c hc hid
    rw [List.mem_singleton] at hn
    subst hn
    obtain ⟨a, ha, rfl⟩ := hm.mem.mp hc
    have hab := l.blobs.eq_of_clash ha hblob (StorageBlob.clash_of_id
      ((hkeeps a).1.symm.trans hid))
    rw [(hkeeps a).2.1, hab]
    rfl
  · rw [he.blobs, hm.rows]
    exact h.paths.map hkeeps

/-- Leases and retries of jobs keep it. -/
theorem LedgerOk.touched (h : LedgerOk l R) (ht : JobsTouched l l') : LedgerOk l' R := by
  obtain ⟨hjobs, hjob⟩ := jobsOk_touched h.jobs ht
  refine ⟨?_, ?_, ?_, ?_, ?_, ?_, hjobs, ?_⟩
  · rw [ht.quota, ht.blobs]
    exact h.used
  · rw [ht.quota, ht.blobs]
    exact h.reserved
  · rw [ht.quota]
    exact h.usedRange
  · rw [ht.quota]
    exact h.reservedRange
  · intro b hb
    exact (h.rows b (ht.blobs ▸ hb)).of_jobs (hjob _)
  · rw [ht.blobs]
    exact h.owned
  · rw [ht.blobs]
    exact h.paths

/-- A new limit above the counters keeps it. -/
theorem LedgerOk.maxBytes (h : LedgerOk l R) {maxBytes : Nat}
    (hu : updateMaxBytes l maxBytes = .ok l') : LedgerOk l' R := by
  obtain ⟨-, -, rfl⟩ := updateMaxBytes_ok.mp hu
  exact ⟨h.used, h.reserved, h.usedRange, h.reservedRange,
    fun b hb => (h.rows b hb).of_jobs Iff.rfl, h.owned, ⟨h.jobs.fresh, h.jobs.blob⟩, h.paths⟩

end LedgerInvariant
