import LightOss.UploadRows

/-! # Physical bytes — the ledger pays for every managed file

    While the heartbeat keeps the leases of unfinished uploads, every file under the
    root has a row that manages it and is at least as large, so that the quota counters
    bound the bytes on disk.  A row leaves only after both its files did.

    The step lemma of `BytesOk` is taken apart by what moves.  A file operation leaves
    each file with its row and a blob with its file at one of its paths
    (`owned_fileMove`, `single_fileMove`); a transaction moves no file, and a row that
    it takes away has none left (`removed_absent`, `owned_transaction`).  In the end a
    row pays for what is at its two paths (`diskBytes_le`), and the rows are paid for
    by the counters. -/

namespace PhysicalBytes

open KeyedTable Fallible LedgerRows BlobRepository LedgerSpecs LedgerMoves LedgerOps
open LedgerEvolution LedgerInvariant Catalog MetadataServices MetadataReferences
open StorageAudit PublishLifecycle StepSystem StorageSystem LedgerExactness StreamingStage
open ManagedFiles DeletionSafety SparedRows UploadRows
open CleanupLease (new_fresh)

/-! ## What is gone -/

section Gone

variable {chunk : Nat} {w w' : World} {e : Event} {files : Files} {id : String} {u : Upload}

/-- An uploader's own path stays empty unless it is about to make the file. -/
theorem own_absent (hb : Bookkeeping w) (hmove : FileMove w files) (hu : w.uploads id = some u)
    (hopening : u.phase ≠ .opening) (hclosed : ∀ size reserved, u.phase ≠ .closed size reserved)
    {path : String} (hpath : path = u.stagingPath ∨ path = u.storagePath)
    (hnone : w.files.lookup path = none) : files.lookup path = none := by
  refine hmove.absent hnone (fun other v hv hphase heq => ?_) fun other v size reserved hv
    hphase heq => ?_
  · by_cases hid : other = id
    · rw [hid, hu] at hv
      cases hv
      exact hopening hphase
    · obtain ⟨-, h2, -, h4⟩ := hb.uploads.apart hb.paths hv hu hid
      rcases hpath with hpath | hpath
      · exact h4 (heq.symm.trans hpath)
      · exact h2 (heq.symm.trans hpath)
  · by_cases hid : other = id
    · rw [hid, hu] at hv
      cases hv
      exact hclosed size reserved hphase
    · obtain ⟨h1, -, h3, -⟩ := hb.uploads.apart hb.paths hv hu hid
      rcases hpath with hpath | hpath
      · exact h3 (heq.symm.trans hpath)
      · exact h1 (heq.symm.trans hpath)

/-- What an upload has deleted stays deleted. -/
theorem uploadGone_kept (hb : Bookkeeping w) (hmove : FileMove w files)
    (hu : w.uploads id = some u) (h : UploadGone w.files u) : UploadGone files u := by
  have habsent : u.phase ≠ .opening → (∀ size reserved, u.phase ≠ .closed size reserved) →
      ∀ {path : String}, (path = u.stagingPath ∨ path = u.storagePath) →
        w.files.lookup path = none → files.lookup path = none :=
    fun hopening hclosed {_} hpath hnone => own_absent hb hmove hu hopening hclosed hpath hnone
  unfold UploadGone at h ⊢
  split
  · next size hphase =>
      rw [hphase] at h
      exact habsent (by simp [hphase]) (by simp [hphase]) (Or.inl rfl) h
  · next ok hphase =>
      rw [hphase] at h
      exact fun hok => habsent (by simp [hphase]) (by simp [hphase]) (Or.inl rfl) (h hok)
  · next ok hphase =>
      rw [hphase] at h
      exact fun hok => ⟨habsent (by simp [hphase]) (by simp [hphase]) (Or.inl rfl) (h hok).1,
        habsent (by simp [hphase]) (by simp [hphase]) (Or.inr rfl) (h hok).2⟩
  · trivial

theorem gone_step (hb : Bookkeeping w) (hf : FilesOk w) (h : BytesOk w) (hs : Step chunk w e w') :
    ∀ id u, w'.uploads id = some u → UploadGone w'.files u := by
  intro other v hv
  have hmove := step_fileMove (closedOk hb hf h) hs
  have hkept : w.uploads other = some v → UploadGone w'.files v :=
    fun hold => uploadGone_kept hb hmove hold (h.gone other v hold)
  -- the step of one uploader tells of that one; the others keep what they deleted
  have hown : ∀ (id : String) (u : Upload) (phase : Phase), w.uploads id = some u →
      w'.uploads = Function.update w.uploads id (some { u with phase := phase }) →
      UploadGone w'.files { u with phase := phase } → UploadGone w'.files v := by
    intro id u phase hu hupdate hafter
    rw [hupdate] at hv
    by_cases hid : other = id
    · rw [hid, Function.update_self] at hv
      cases hv
      exact hafter
    · rw [Function.update_of_ne hid] at hv
      exact hkept hv
  cases hs with
  | stage =>
      rcases enlist_eq hv with hold | ⟨-, b, -, -, rfl⟩
      · exact hkept hold
      · trivial
  | stageBatch =>
      rcases enlist_eq hv with hold | ⟨-, b, -, -, rfl⟩
      · exact hkept hold
      · trivial
  | openFile hu _ _ => exact hown _ _ _ hu rfl trivial
  | openFails hu _ => exact hown _ _ _ hu rfl trivial
  | @read id u size reserved n hu hphase _ _ =>
      refine hown _ _ _ hu rfl ?_
      rcases afterRead_cases u.expectedSize size reserved n with heq | heq | heq <;> rw [heq] <;>
        trivial
  | @reserve id u size reserved n required op hu hphase _ _ =>
      refine hown _ _ _ hu rfl ?_
      rcases afterReserve_cases required size reserved n (op.run w.ledger) with heq | heq | heq <;>
        rw [heq] <;> trivial
  | @reserveExact id u size reserved n op hu hphase _ =>
      refine hown _ _ _ hu rfl ?_
      rcases afterRetry_cases size n (op.run w.ledger) with heq | heq <;> rw [heq] <;> trivial
  | @write id u size reserved n written hu hphase hle =>
      refine hown _ _ _ hu rfl ?_
      rw [afterWrite]
      split <;> trivial
  | interrupt hu _ => exact hown _ _ _ hu rfl trivial
  | discard hu _ => exact hown _ _ _ hu rfl trivial
  | @close id u size reserved hu hphase =>
      refine hown _ _ _ hu rfl ?_
      rcases afterClose_cases u.expectedSize size reserved with heq | heq <;> rw [heq] <;> trivial
  | @reserveOne id u op hu hphase _ _ =>
      refine hown _ _ _ hu rfl ?_
      rcases afterReserveOne_cases (op.run w.ledger) with heq | heq <;> rw [heq] <;> trivial
  -- the rename takes the staging file away
  | @commit id u size reserved files hu hphase _ hcommit =>
      refine hown _ _ _ hu rfl ?_
      obtain ⟨hstaging, hfinal⟩ := closedOk hb hf h _ _ _ _ hu hphase
      show files.lookup u.stagingPath = none
      rw [Files.commit_rename hfinal hstaging hcommit,
        Files.lookup_insert_other (own_paths hb hu).symm]
      exact AList.lookup_erase _ _
  | commitFails hu _ => exact hown _ _ _ hu rfl trivial
  | publish _ _ =>
      rcases setPhases_eq hv with ⟨-, u, -, rfl⟩ | ⟨-, hold⟩
      · trivial
      · exact hkept hold
  | confirm _ => exact hkept hv
  | giveUp _ =>
      rcases setPhases_eq hv with ⟨-, u, -, rfl⟩ | ⟨-, hold⟩
      · trivial
      · exact hkept hold
  | @deleteStaging id u removed hu _ =>
      refine hown _ _ _ hu rfl fun hok => ?_
      replace hok : removed = true := hok
      rw [hok]
      exact Files.lookup_unlink_removed w.files u.stagingPath
  -- the second delete comes after the first, whose success it remembers
  | @deleteFinal id u ok removed hu hphase =>
      refine hown _ _ _ hu rfl fun hok => ?_
      obtain ⟨hok, hremoved⟩ := Bool.and_eq_true_iff.mp hok
      have hstaging := h.gone id u hu
      rw [UploadGone, hphase] at hstaging
      rw [hremoved]
      exact ⟨Files.lookup_unlink_none (hstaging hok) _ _,
        Files.lookup_unlink_removed w.files u.storagePath⟩
  | release _ => exact hkept hv
  | track _ => exact hkept hv
  | crash hu => exact hown _ _ _ hu rfl trivial
  | find _ _ => exact hkept hv
  | load _ _ => exact hkept hv
  | unlinkStaging _ _ => exact hkept hv
  | skipStaging _ _ => exact hkept hv
  | unlinkFinal _ => exact hkept hv
  | complete _ => exact hkept hv
  | other _ _ => exact hkept hv

/-! ### Workers -/

/-- A doomed row keeps its paths. -/
theorem doomed_keeps_paths {s : State} {op : StorageOp} (hok : StorageOk s) (hop : op.Allowed s)
    (hdoomed : Doomed s id) {P : String → Option String → Prop}
    (h : ∀ b ∈ s.db.ledger.blobs.rows, b.id = id → P b.storagePath b.stagingPath) :
    ∀ b ∈ (op.apply s).db.ledger.blobs.rows, b.id = id → P b.storagePath b.stagingPath := by
  intro b' hb' hid
  obtain ⟨m, h1, h2⟩ := apply_evolves s op
  -- the second part of the step only dooms
  obtain ⟨c, hc, hcid, hcpath, hcstaging⟩ : ∃ c ∈ m.blobs.rows, b'.id = c.id
      ∧ b'.storagePath = c.storagePath ∧ b'.stagingPath = c.stagingPath := by
    rcases h2.origin b' hb' with ⟨c, hc, hd⟩ | ⟨n, hn, -⟩
    · refine ⟨c, hc, hd.id, hd.storagePath, ?_⟩
      cases hd.move with
      | stays _ hsame _ => exact hsame
      | activated a ha => exact absurd ha List.not_mem_nil
      | doomed _ _ hsame _ => exact hsame
    · exact absurd hn List.not_mem_nil
  rw [hcpath, hcstaging]
  -- and the first keeps the paths of a row unless it activates it
  rcases h1.origin c hc with ⟨b, hb, hd⟩ | ⟨n, hn, hs⟩
  · have hbid : b.id = id := hd.id.symm.trans (hcid.symm.trans hid)
    rw [hd.storagePath]
    cases hd.move with
    | stays _ hsame _ => exact hsame ▸ h b hb hbid
    | doomed _ _ hsame _ => exact hsame ▸ h b hb hbid
    | activated a ha haid hstaging =>
        -- only a publication activates, and it keeps off what was given up
        cases op with
        | ledger op =>
            rw [StorageOp.footprint, (footprint_registered hok hop).2.1] at ha
            exact absurd ha List.not_mem_nil
        | publish p now =>
            obtain ⟨staged, hmem, rfl⟩ := List.mem_map.mp ha
            rcases hdoomed.2 with habort | hsealed
            · have hsid : staged.id = id := haid.trans hbid
              exact absurd (hsid ▸ habort) (hop.2 staged hmem).kept
            · have := hsealed b hb hbid
              simp [hstaging] at this
        | confirm stagedBlobs now => exact absurd ha List.not_mem_nil
        | abort ids => exact absurd ha List.not_mem_nil
        | catalog w => exact absurd ha List.not_mem_nil
  · exact absurd (hs.id ▸ hcid ▸ hid ▸ hdoomed.1) (new_fresh hop n hn)

/-- A step of the world keeps what a job is for. -/
theorem step_jobsKept (hs : Step chunk w e w') : JobsKept w.ledger w'.ledger := by
  rw [World.ledger, World.ledger, step_storage hs]
  cases e with
  | transaction op => exact apply_jobsKept w.storage op
  | unlink path => exact .of_same rfl rfl
  | silent => exact .of_same rfl rfl

/-- What a worker has read of its job stays true. -/
theorem loaded_step (hb : Bookkeeping w) (hs : Step chunk w e w') {jobID : Nat}
    {blob : StorageBlob} (h : Loaded w jobID blob) : Loaded w' jobID blob where
  job := (step_jobsKept hs).jobFor h.job
  doomed := doomed_step hb hs h.doomed
  rows := by
    rw [World.ledger, step_storage hs]
    cases e with
    | transaction op =>
        exact doomed_keeps_paths hb.storage (step_allowed hb.uploads hs) h.doomed
          (P := fun storagePath stagingPath =>
            storagePath = blob.storagePath ∧ stagingPath = blob.stagingPath) h.rows
    | unlink path => exact h.rows
    | silent => exact h.rows
  apart := h.apart
  final := discarded_step hb hs h.final
  staging := fun p hp => discarded_step hb hs (h.staging p hp)

/-- What a worker has removed stays removed. -/
theorem workerGone_step (hb : Bookkeeping w) (hf : FilesOk w) (h : BytesOk w)
    (hs : Step chunk w e w') {worker : Worker} (hw : WorkerGone w worker) :
    WorkerGone w' worker := by
  have habsent : ∀ {path : String}, Discarded w.storage path → w.files.lookup path = none →
      w'.files.lookup path = none := discarded_absent hb hf h hs
  unfold WorkerGone at hw ⊢
  split
  · next blobID hphase =>
      rw [hphase] at hw
      exact ⟨(step_jobsKept hs).jobFor hw.1, doomed_step hb hs hw.2⟩
  · next blob hphase =>
      rw [hphase] at hw
      exact loaded_step hb hs hw
  · next blob ok hphase =>
      rw [hphase] at hw
      obtain ⟨hloaded, hgone⟩ := hw
      exact ⟨loaded_step hb hs hloaded,
        fun hok p hp => habsent (hloaded.staging p hp) (hgone hok p hp)⟩
  · next blob ok hphase =>
      rw [hphase] at hw
      obtain ⟨hloaded, hgone⟩ := hw
      exact ⟨loaded_step hb hs hloaded, fun hok =>
        ⟨fun p hp => habsent (hloaded.staging p hp) ((hgone hok).1 p hp),
          habsent hloaded.final (hgone hok).2⟩⟩
  · trivial

/-- The row a worker loads for its job. -/
theorem loaded_found (hb : Bookkeeping w) (hf : FilesOk w) {jobID : Nat} {blobID : String}
    {blob : StorageBlob} (hjob : JobFor w.ledger jobID blobID) (hdoomed : Doomed w.storage blobID)
    (hload : findByID w.ledger blobID = .ok blob) : Loaded w jobID blob := by
  obtain ⟨hrow, hid⟩ := Table.first?_eq_some (orElseThrow_eq_ok.mp hload)
  rw [← beq_iff_eq.mp hid] at hjob hdoomed
  have hpaths := hb.storage.ledger.paths
  refine ⟨hjob, hdoomed, fun b hbrow hbid => ?_, fun heq => ?_,
    discarded_final hb.storage hb.paths hf.staging hrow hdoomed,
    fun p hp => discarded_staging hb.storage hb.paths hf.staging hrow hdoomed hp⟩
  · rw [w.ledger.blobs.eq_of_clash hbrow hrow (StorageBlob.clash_of_id hbid)]
    exact ⟨rfl, rfl⟩
  · refine hpaths.final blob hrow ?_ blob hrow heq
    rw [StorageBlob.hasStagingPath, heq]
    exact bne_iff_ne.mpr (hpaths.nonempty blob hrow)

/-- A worker that has just read its job has removed nothing. -/
theorem workerGone_loaded {jobID : Nat} {blob : StorageBlob} (h : Loaded w jobID blob)
    (ends : Bool) :
    WorkerGone w { jobID := jobID, phase := if ends then .ended else .unlinkingStaging blob } := by
  cases ends with
  | true => trivial
  | false => exact h

/-- A job that was found belongs to its blob. -/
theorem jobFor_claim (hb : Bookkeeping w) {jobID : Nat} {token : String} {job : StorageCleanupJob}
    (h : findClaimedCleanupJob w.ledger jobID token = .ok job) :
    JobFor w.ledger jobID job.blobID := by
  obtain ⟨hmem, howned⟩ := Table.first?_eq_some (orElseThrow_eq_ok.mp h)
  have hid : job.id = jobID := (of_decide_eq_true howned).1
  refine ⟨hid ▸ hb.storage.ledger.jobs.fresh job hmem, fun j hj hjid => ?_⟩
  rw [w.ledger.jobs.eq_of_clash hj hmem (StorageCleanupJob.clash_of_id (hjid.trans hid.symm))]

theorem workersGone_step (hb : Bookkeeping w) (hf : FilesOk w) (h : BytesOk w)
    (hs : Step chunk w e w') :
    ∀ token worker, w'.workers token = some worker → WorkerGone w' worker := by
  intro token worker hw
  have hgone : ∀ {worker : Worker}, WorkerGone w worker → WorkerGone w' worker :=
    workerGone_step hb hf h hs
  have hloaded : ∀ {jobID : Nat} {blob : StorageBlob}, Loaded w jobID blob → Loaded w' jobID blob :=
    loaded_step hb hs
  have hkept : w'.workers = w.workers → WorkerGone w' worker := by
    intro hsame
    exact hgone (h.workers token worker (hsame ▸ hw))
  have hmoved : ∀ (t : String) (jobID : Nat) (phase : WorkerPhase),
      w'.workers = Function.update w.workers t (some { jobID := jobID, phase := phase }) →
      WorkerGone w' { jobID := jobID, phase := phase } → WorkerGone w' worker := by
    intro t jobID phase hupdate hphase
    rw [hupdate] at hw
    by_cases ht : token = t
    · rw [ht, Function.update_self] at hw
      cases hw
      exact hphase
    · rw [Function.update_of_ne ht] at hw
      exact hgone (h.workers token worker hw)
  cases hs with
  | stage => exact hkept (enlist_storage _ _ _ _).2.2
  | stageBatch => exact hkept (enlist_storage _ _ _ _).2.2
  | find _ hclaim =>
      exact hmoved _ _ _ rfl ⟨jobFor_claim hb hclaim, doomed_of_claim hb hclaim⟩
  | load hworker hload =>
      -- the row that was just read is still the one of the job
      have hfound := h.workers _ _ hworker
      exact hmoved _ _ _ rfl
        (workerGone_loaded (hloaded (loaded_found hb hf hfound.1 hfound.2 hload)) _)
  | @unlinkStaging token path jobID blob removed hworker hpath =>
      have hrow := h.workers _ _ hworker
      refine hmoved _ _ _ rfl ⟨hloaded hrow, fun hok p hp => ?_⟩
      -- the file that was removed is the one the row names
      obtain ⟨q, hq, hqpath⟩ : ∃ q, blob.stagingPath = some q ∧ q = path := by
        unfold stagingFile at hpath
        split at hpath
        · next q hq =>
            split at hpath
            · exact ⟨q, hq, Option.some.inj hpath⟩
            · cases hpath
        · cases hpath
      rw [Option.mem_def.mp hp] at hq
      rw [Option.some.inj hq, hqpath, hok]
      exact Files.lookup_unlink_removed w.files path
  | @skipStaging token jobID blob hworker hpath =>
      have hrow := h.workers _ _ hworker
      refine hmoved _ _ _ rfl ⟨hloaded hrow, fun _ p hp => ?_⟩
      rw [stagingFile, Option.mem_def.mp hp] at hpath
      dsimp only at hpath
      split at hpath
      · cases hpath
      · next hskip =>
          -- an empty staging path names no file
          by_cases hempty : p = ""
          · rw [hempty]
            exact h.unnamed
          · exact absurd ⟨hempty, fun heq => hrow.apart (heq ▸ Option.mem_def.mp hp)⟩ hskip
  | @unlinkFinal token jobID blob ok removed hworker =>
      obtain ⟨hrow, hstaging⟩ := h.workers _ _ hworker
      refine hmoved _ _ _ rfl ⟨hloaded hrow, fun hok => ?_⟩
      obtain ⟨hok, hremoved⟩ := Bool.and_eq_true_iff.mp hok
      rw [hremoved]
      exact ⟨fun p hp => Files.lookup_unlink_none (hstaging hok p hp) _ _,
        Files.lookup_unlink_removed w.files blob.storagePath⟩
  | complete hworker => exact hmoved _ _ _ rfl trivial
  | _ => exact hkept rfl

end Gone

/-! ## Files and rows -/

section Rows

variable {chunk : Nat} {w w' : World} {e : Event} {files : Files} {id : String} {u : Upload}

/-- The row of an upload has its two paths to itself. -/
theorem row_of_path (hb : Bookkeeping w) {r b : StorageBlob} (hr : UploadRow w.ledger id u r)
    (hmem : b ∈ w.ledger.blobs.rows)
    (hpath : b.storagePath = u.storagePath ∨ b.stagingPath = some u.stagingPath) : b = r := by
  rcases hpath with hpath | hpath
  · exact w.ledger.blobs.eq_of_clash hmem hr.mem
      (StorageBlob.clash_of_path (hpath.trans hr.storagePath.symm))
  · refine hb.storage.ledger.paths.staging r hr.mem ?_ b hmem (hpath.trans hr.stagingPath.symm)
    exact ((rowOk_staging hr.status).mp (hb.storage.ledger.rows r hr.mem)).1

/-- An uploader's staging path is no final path, its final path no staging path. -/
theorem row_apart (hb : Bookkeeping w) {r b : StorageBlob} (hr : UploadRow w.ledger id u r)
    (hmem : b ∈ w.ledger.blobs.rows) :
    b.storagePath ≠ u.stagingPath ∧ ∀ p ∈ b.stagingPath, p ≠ u.storagePath := by
  have hpaths := hb.storage.ledger.paths
  refine ⟨fun heq => ?_, fun p hp heq => ?_⟩
  · refine hpaths.final r hr.mem ?_ b hmem (hr.stagingPath.trans (congrArg some heq.symm))
    exact ((rowOk_staging hr.status).mp (hb.storage.ledger.rows r hr.mem)).1
  · refine hpaths.final b hmem ?_ r hr.mem ?_
    · rw [StorageBlob.hasStagingPath, Option.mem_def.mp hp, heq, ← hr.storagePath]
      exact bne_iff_ne.mpr (hpaths.nonempty r hr.mem)
    · exact (Option.mem_def.mp hp).trans (congrArg some (heq.trans hr.storagePath.symm))

/-- A file operation leaves each file with a row that pays for it. -/
theorem owned_fileMove (hb : Bookkeeping w) (hf : FilesOk w) (h : BytesOk w)
    (hmove : FileMove w files) {path : String} {n : Nat} (hpath : files.lookup path = some n) :
    ∃ b ∈ w.ledger.blobs.rows, Manages b path ∧ n ≤ b.size := by
  cases hmove with
  | same => exact h.owned path n hpath
  | @create id u hu hphase =>
      -- a new file is the uploader's, whose row is there already
      by_cases heq : path = u.stagingPath
      · obtain ⟨r, hr⟩ := h.uploads id u hu (by rw [hphase]; rfl)
        rw [heq, AList.lookup_insert] at hpath
        cases hpath
        exact ⟨r, hr.mem, Or.inr (heq ▸ hr.stagingPath), Nat.zero_le _⟩
      · rw [Files.lookup_insert_other heq] at hpath
        exact h.owned path n hpath
  | @grow id u size reserved k written hu hphase hle =>
      by_cases heq : path = u.stagingPath
      · have hpending : u.phase.pending = true := by rw [hphase]; rfl
        obtain ⟨r, hr⟩ := h.uploads id u hu hpending
        have hstaged := hf.uploads id u hu (pending_live hb h hu hpending)
        rw [UploadFiles, hphase] at hstaged
        have hcovered := hr.covered
        rw [hphase] at hcovered
        rw [heq, Files.lookup_append_self hstaged.1] at hpath
        cases hpath
        refine ⟨r, hr.mem, Or.inr (heq ▸ hr.stagingPath), ?_⟩
        -- the row was grown before the write
        calc size + written ≤ size + k := Nat.add_le_add_left hle size
          _ ≤ cap u.expectedSize reserved := hcovered.1
          _ ≤ r.size := hcovered.2
      · rw [Files.lookup_append_other heq] at hpath
        exact h.owned path n hpath
  | @rename id u size reserved hu hphase =>
      by_cases heq : path = u.storagePath
      · obtain ⟨r, hr⟩ := h.uploads id u hu (by rw [hphase]; rfl)
        have hcovered := hr.covered
        rw [hphase] at hcovered
        rw [heq, AList.lookup_insert] at hpath
        cases hpath
        exact ⟨r, hr.mem, Or.inl (heq ▸ hr.storagePath), Nat.le_trans hcovered.1 hcovered.2⟩
      · rw [Files.lookup_insert_other heq] at hpath
        have hold : (w.files.unlink u.stagingPath true).lookup path = some n := hpath
        exact h.owned path n (Files.lookup_of_unlink hold)
  | remove other removed => exact h.owned path n (Files.lookup_of_unlink hpath)

/-- A blob has its file at one of its two paths. -/
theorem single_fileMove (hb : Bookkeeping w) (hf : FilesOk w) (h : BytesOk w)
    (hmove : FileMove w files) : ∀ b ∈ w.ledger.blobs.rows, ∀ p ∈ b.stagingPath,
      files.lookup p = none ∨ files.lookup b.storagePath = none := by
  intro b hmem p hp
  have hsingle := h.single b hmem p hp
  cases hmove with
  | same => exact hsingle
  -- an uploader that makes its staging file has nothing at its final path
  | @create id u hu hphase =>
      have hpending : u.phase.pending = true := by rw [hphase]; rfl
      obtain ⟨r, hr⟩ := h.uploads id u hu hpending
      rw [Files.lookup_insert_other (row_apart hb hr hmem).1]
      by_cases heq : p = u.stagingPath
      · refine Or.inr ?_
        have hfiles := hf.uploads id u hu (pending_live hb h hu hpending)
        rw [UploadFiles, hphase] at hfiles
        rw [row_of_path hb hr hmem (Or.inr (heq ▸ Option.mem_def.mp hp)), hr.storagePath]
        exact hfiles
      · rwa [Files.lookup_insert_other heq]
  | grow hu hphase hle =>
      exact hsingle.imp (fun hnone => lookup_append_none hnone _ _)
        fun hnone => lookup_append_none hnone _ _
  -- after the rename it has nothing at its staging path
  | @rename id u size reserved hu hphase =>
      obtain ⟨r, hr⟩ := h.uploads id u hu (by rw [hphase]; rfl)
      rw [Files.lookup_insert_other ((row_apart hb hr hmem).2 p hp)]
      by_cases heq : b.storagePath = u.storagePath
      · have hstaging := hr.stagingPath
        rw [← row_of_path hb hr hmem (Or.inl heq), Option.mem_def.mp hp] at hstaging
        rw [Option.some.inj hstaging]
        exact Or.inl (AList.lookup_erase _ _)
      · rw [Files.lookup_insert_other heq]
        exact hsingle.imp (fun hnone => Files.lookup_unlink_none hnone u.stagingPath true)
          fun hnone => Files.lookup_unlink_none hnone u.stagingPath true
  | remove other removed =>
      exact hsingle.imp (fun hnone => Files.lookup_unlink_none hnone _ _)
        fun hnone => Files.lookup_unlink_none hnone _ _

theorem unnamed_fileMove (hb : Bookkeeping w) (h : BytesOk w) (hmove : FileMove w files) :
    files.lookup "" = none := by
  refine hmove.absent h.unnamed (fun id u hu hphase heq => ?_) fun id u size reserved hu
    hphase heq => ?_
  · obtain ⟨r, hr⟩ := h.uploads id u hu (by rw [hphase]; rfl)
    have hhas := ((rowOk_staging hr.status).mp (hb.storage.ledger.rows r hr.mem)).1
    rw [StorageBlob.hasStagingPath, hr.stagingPath, ← heq] at hhas
    cases hhas
  · obtain ⟨r, hr⟩ := h.uploads id u hu (by rw [hphase]; rfl)
    exact hb.storage.ledger.paths.nonempty r hr.mem (hr.storagePath.trans heq.symm)

/-! ### Transactions -/

/-- A row that leaves has no file. -/
theorem removed_absent (hb : Bookkeeping w) (hf : FilesOk w) (h : BytesOk w) {op : StorageOp}
    (hs : Step chunk w (.transaction op) w') {b : StorageBlob} (hmem : b ∈ w.ledger.blobs.rows)
    (hremoved : (StorageOp.footprint w.storage op).removed b.id) :
    ∀ path, Manages b path → w.files.lookup path = none := by
  intro path hpath
  cases hs with
  | stage => exact hremoved.elim
  | stageBatch => exact hremoved.elim
  | reserve _ _ _ hop =>
      rw [hop] at hremoved
      exact hremoved.elim
  | reserveExact _ _ hop =>
      rw [hop] at hremoved
      exact hremoved.elim
  | reserveOne _ _ _ hop =>
      rw [hop] at hremoved
      exact hremoved.elim
  | publish => exact hremoved.elim
  | confirm => exact hremoved.elim
  | giveUp => exact hremoved.elim
  | release hids =>
      -- released by the uploader that gave up, once both its files are gone
      obtain ⟨u, hu, hphase⟩ := hids b.id hremoved
      have hgone := h.gone b.id u hu
      rw [UploadGone, hphase] at hgone
      obtain ⟨hstaging, hfinal⟩ := hgone rfl
      obtain ⟨c, hc, hid, hcpath, hcstaging⟩ := (hb.uploads b.id u hu).created
      rcases hpath with rfl | hpath
      · rw [(path_of_created hb.storage.rows hb.storage.registry hc hmem hid.symm).2, hcpath]
        exact hfinal
      · obtain ⟨d, hd, hdid, hdstaging⟩ := hf.staging b hmem path hpath
        rw [hb.storage.registry.unique d hd c hc (hdid.trans hid.symm), hcstaging] at hdstaging
        exact Option.some.inj hdstaging ▸ hstaging
  | track => exact hremoved.elim
  | complete hworker =>
      -- completed by a worker that has removed both
      obtain ⟨hloaded, hgone⟩ := h.workers _ _ hworker
      obtain ⟨j, hj, hid, -, hblob⟩ := hremoved
      obtain ⟨hfinal, hstaging⟩ := hloaded.rows b hmem (hblob.symm.trans (hloaded.job.2 j hj hid))
      rcases hpath with rfl | hpath
      · exact hfinal ▸ (hgone rfl).2
      · exact (hgone rfl).1 path (hstaging ▸ hpath)
  | other hop _ =>
      cases op with
      | ledger op =>
          cases op with
          | releaseStaging blobID => exact hop.elim
          | releaseStagingBatch ids n => exact hop.elim
          | complete id owner => exact hop.elim
          | _ => exact hremoved.elim
      | _ => exact hremoved.elim

/-- A row that is activated has the size of its file. -/
theorem activated_owned (hb : Bookkeeping w) (hf : FilesOk w) (h : BytesOk w) {op : StorageOp}
    (hs : Step chunk w (.transaction op) w') {b : StorageBlob} (hmem : b ∈ w.ledger.blobs.rows)
    {a : StorageBlobActivation} (ha : a ∈ (StorageOp.footprint w.storage op).activations)
    (hid : a.id = b.id) {path : String} {n : Nat} (hpath : Manages b path)
    (hfile : w.files.lookup path = some n) : b.storagePath = path ∧ n = a.actualSize := by
  cases op with
  | ledger op =>
      rw [StorageOp.footprint,
        (footprint_registered hb.storage (step_allowed hb.uploads hs)).2.1] at ha
      exact absurd ha List.not_mem_nil
  | publish p now =>
      obtain ⟨staged, hstaged, rfl⟩ := List.mem_map.mp ha
      obtain ⟨u, hu, -, hphase⟩ := published_committed hs hstaged
      have hpending : u.phase.pending = true := by rw [hphase]; rfl
      obtain ⟨r, hr⟩ := h.uploads _ u hu hpending
      obtain rfl : b = r := w.ledger.blobs.eq_of_clash hmem hr.mem
        (StorageBlob.clash_of_id (hid.symm.trans hr.id.symm))
      have hgone := h.gone _ u hu
      have hfinal := hf.uploads _ u hu (pending_live hb h hu hpending)
      rw [UploadGone, hphase] at hgone
      rw [UploadFiles, hphase] at hfinal
      rcases hpath with rfl | hpath
      · rw [hr.storagePath, hfinal] at hfile
        exact ⟨rfl, (Option.some.inj hfile).symm⟩
      · rw [hr.stagingPath] at hpath
        rw [← Option.some.inj hpath, hgone] at hfile
        cases hfile
  | confirm stagedBlobs now => exact absurd ha List.not_mem_nil
  | abort ids => exact absurd ha List.not_mem_nil
  | catalog c => exact absurd ha List.not_mem_nil

/-- A transaction leaves each file with a row that pays for it. -/
theorem owned_transaction (hb : Bookkeeping w) (hf : FilesOk w) (h : BytesOk w) {op : StorageOp}
    (hs : Step chunk w (.transaction op) w') {path : String} {n : Nat}
    (hfile : w.files.lookup path = some n) :
    ∃ b ∈ w'.ledger.blobs.rows, Manages b path ∧ n ≤ b.size := by
  obtain ⟨b, hmem, hpath, hle⟩ := h.owned path n hfile
  obtain ⟨m, h1, h2⟩ := apply_evolves w.storage op
  rw [World.ledger, step_storage hs]
  obtain ⟨c, hc, hcpath, hcle⟩ : ∃ c ∈ m.blobs.rows, Manages c path ∧ n ≤ c.size := by
    rcases h1.kept b hmem with ⟨hremoved, -⟩ | ⟨c, hc, hd⟩
    -- a row that leaves has no file, so this one is not it
    · have hnone := removed_absent hb hf h hs hmem hremoved path hpath
      rw [hnone] at hfile
      cases hfile
    · refine ⟨c, hc, ?_⟩
      cases hd.move with
      | stays _ hsame hsize =>
          rw [Manages, hd.storagePath, hsame]
          exact ⟨hpath, Nat.le_trans hle hsize⟩
      | doomed _ _ hsame hsize =>
          rw [Manages, hd.storagePath, hsame, hsize]
          exact ⟨hpath, hle⟩
      | activated a ha haid _ _ _ hsize =>
          obtain ⟨hfinal, hn⟩ := activated_owned hb hf h hs hmem ha haid hpath hfile
          exact ⟨Or.inl (hd.storagePath.trans hfinal), Nat.le_of_eq (hn.trans hsize.symm)⟩
  rcases h2.kept c hc with ⟨hremoved, -⟩ | ⟨b', hb', hd⟩
  · exact hremoved.elim
  · refine ⟨b', hb', ?_⟩
    cases hd.move with
    | stays _ hsame hsize =>
        rw [Manages, hd.storagePath, hsame]
        exact ⟨hcpath, Nat.le_trans hcle hsize⟩
    | doomed _ _ hsame hsize =>
        rw [Manages, hd.storagePath, hsame, hsize]
        exact ⟨hcpath, hcle⟩
    | activated a ha => exact absurd ha List.not_mem_nil

/-- A new row has no staging file yet. -/
theorem new_absent {op : StorageOp} (hs : Step chunk w (.transaction op) w')
    (hop : op.Allowed w.storage) :
    ∀ n ∈ (StorageOp.footprint w.storage op).new, ∀ p ∈ n.stagingPath,
      w.files.lookup p = none := by
  intro n hn p hp
  cases hs with
  | stage _ _ hfresh => exact AList.lookup_eq_none.mpr (hfresh.staging n hn p hp)
  | stageBatch _ hfresh _ => exact AList.lookup_eq_none.mpr (hfresh.staging n hn p hp)
  | reserve _ _ _ hcall =>
      rw [hcall] at hn
      exact absurd hn List.not_mem_nil
  | reserveExact _ _ hcall =>
      rw [hcall] at hn
      exact absurd hn List.not_mem_nil
  | reserveOne _ _ _ hcall =>
      rw [hcall] at hn
      exact absurd hn List.not_mem_nil
  | other hfree _ =>
      cases op with
      | ledger op =>
          cases op with
          | createStaging blob lease now => exact hfree.elim
          | createStagingBatch blobs k lease now => exact hfree.elim
          | registerOrphan blob =>
              rw [List.mem_singleton.mp hn, hop.stagingPath] at hp
              cases hp
          | _ => exact absurd hn List.not_mem_nil
      | _ => exact absurd hn List.not_mem_nil
  | _ => exact absurd hn List.not_mem_nil

theorem single_transaction (hb : Bookkeeping w) (h : BytesOk w) {op : StorageOp}
    (hs : Step chunk w (.transaction op) w') : ∀ b ∈ w'.ledger.blobs.rows, ∀ p ∈ b.stagingPath,
      w.files.lookup p = none ∨ w.files.lookup b.storagePath = none := by
  intro b' hb' p hp
  obtain ⟨m, h1, h2⟩ := apply_evolves w.storage op
  rw [World.ledger, step_storage hs] at hb'
  -- a staging path that a row has now it had before
  have hback : ∀ {as : List StorageBlobActivation} {b b' : StorageBlob}, Descends as b b' →
      p ∈ b'.stagingPath → p ∈ b.stagingPath := by
    intro as b b' hd hp
    rcases hd.move.stagingPath with hsame | hnone
    · exact hsame ▸ hp
    · rw [hnone] at hp
      cases hp
  rcases h2.origin b' hb' with ⟨c, hc, hd⟩ | ⟨n, hn, -⟩
  · rw [hd.storagePath]
    replace hp := hback hd hp
    rcases h1.origin c hc with ⟨b, hb, he⟩ | ⟨n, hn, hstarts⟩
    · rw [he.storagePath]
      exact h.single b hb p (hback he hp)
    · exact Or.inl (new_absent hs (step_allowed hb.uploads hs) n hn p (hstarts.stagingPath ▸ hp))
  · exact absurd hn List.not_mem_nil

end Rows

/-! ## Every run -/

section Runs

variable {chunk : Nat} {w w' : World} {e : Event}

/-- **The step lemma.** -/
theorem bytesOk_step (hchunk : 0 < chunk) (hrange : chunk < 2 ^ 64) (hb : Bookkeeping w)
    (hf : FilesOk w) (h : BytesOk w) (hs : Step chunk w e w') (hbeat : Heartbeat w e) :
    BytesOk w' := by
  have hmove := step_fileMove (closedOk hb hf h) hs
  have hgone := gone_step hb hf h hs
  have hworkers := workersGone_step hb hf h hs
  have huploads := uploadRows_step hchunk hrange hb h hs hbeat
  have hunnamed := unnamed_fileMove hb h hmove
  cases e with
  | transaction op =>
      have hfiles := transaction_files hs
      refine ⟨huploads, fun path n hpath => ?_, ?_, hgone, hworkers, hunnamed⟩
      · exact owned_transaction hb hf h hs (hfiles ▸ hpath)
      · rw [hfiles]
        exact single_transaction hb h hs
  | unlink path =>
      have hledger : w'.ledger = w.ledger :=
        congrArg (fun s : State => s.db.ledger) (step_storage hs)
      refine ⟨huploads, fun path n hpath => ?_, ?_, hgone, hworkers, hunnamed⟩
      · exact hledger ▸ owned_fileMove hb hf h hmove hpath
      · exact hledger ▸ single_fileMove hb hf h hmove
  | silent =>
      have hledger : w'.ledger = w.ledger :=
        congrArg (fun s : State => s.db.ledger) (step_storage hs)
      refine ⟨huploads, fun path n hpath => ?_, ?_, hgone, hworkers, hunnamed⟩
      · exact hledger ▸ owned_fileMove hb hf h hmove hpath
      · exact hledger ▸ single_fileMove hb hf h hmove

theorem bytesOk_start : BytesOk { storage := State.initial, files := ∅ } where
  uploads := by
    intro id u hu
    cases hu
  owned := by
    intro path n hpath
    cases hpath
  single := List.forall_mem_nil _
  gone := by
    intro id u hu
    cases hu
  workers := by
    intro token worker hw
    cases hw
  unnamed := rfl

/-- **The invariant** of every run with a heartbeat. -/
theorem bytesOk_of_reachable (hchunk : 0 < chunk) (hrange : chunk < 2 ^ 64)
    (h : Reachable ((worldSystem chunk ∅).guarded Heartbeat) w) : BytesOk w := by
  refine h.invariant (I := BytesOk) ?_ ?_
  · rintro w rfl
    exact bytesOk_start
  · intro w e w' hr hw hs
    obtain ⟨hb, hf⟩ := worldOk_of_reachable hr.of_guarded
    exact bytesOk_step hchunk hrange hb hf hw hs.1 hs.2

/-- The bytes of a blob on disk, at both its paths. -/
def diskBytes (files : Files) (b : StorageBlob) : Nat :=
  ((b.storagePath :: b.stagingPath.toList).map files.sizeOf).sum

theorem sizeOf_eq {files : Files} {path : String} :
    files.sizeOf path = (files.lookup path).getD 0 := rfl

/-- A file has one row, so a row pays for what is at its paths. -/
theorem diskBytes_le (hb : Bookkeeping w) (h : BytesOk w) {b : StorageBlob}
    (hmem : b ∈ w.ledger.blobs.rows) : diskBytes w.files b ≤ b.size := by
  have hpaths := hb.storage.ledger.paths
  -- the row that pays for a file is the one that manages its path
  have hfinal : w.files.sizeOf b.storagePath ≤ b.size := by
    rw [sizeOf_eq]
    cases hfile : w.files.lookup b.storagePath with
    | none => exact Nat.zero_le _
    | some n =>
        obtain ⟨c, hc, hpath | hpath, hle⟩ := h.owned _ _ hfile
        · rwa [← w.ledger.blobs.eq_of_clash hc hmem (StorageBlob.clash_of_path hpath)]
        · refine absurd hpath (hpaths.final c hc ?_ b hmem)
          rw [StorageBlob.hasStagingPath, hpath]
          exact bne_iff_ne.mpr (hpaths.nonempty b hmem)
  cases hp : b.stagingPath with
  | none =>
      rw [diskBytes, hp]
      simpa using hfinal
  | some p =>
      rw [diskBytes, hp]
      show w.files.sizeOf b.storagePath + (w.files.sizeOf p + 0) ≤ b.size
      cases hfile : w.files.lookup p with
      | none =>
          have hzero : w.files.sizeOf p = 0 := by
            rw [sizeOf_eq, hfile]
            rfl
          rw [hzero]
          exact hfinal
      | some n =>
          -- a file at the staging path: then there is none at the final one
          have hgone := (h.single b hmem p hp).resolve_left (by simp [hfile])
          rw [sizeOf_eq, sizeOf_eq, hgone, hfile]
          show 0 + (n + 0) ≤ b.size
          rw [Nat.zero_add, Nat.add_zero]
          have hhas : b.hasStagingPath = true := by
            rw [StorageBlob.hasStagingPath, hp]
            refine bne_iff_ne.mpr fun hempty => ?_
            rw [hempty, h.unnamed] at hfile
            cases hfile
          obtain ⟨c, hc, hpath | hpath, hle⟩ := h.owned _ _ hfile
          · exact absurd (hp.trans (congrArg some hpath.symm)) (hpaths.final b hmem hhas c hc)
          · rwa [← hpaths.staging b hmem hhas c hc (hpath.trans hp.symm)]

/-- The bytes on disk, when every file is at one of the paths. -/
theorem bytes_le {files : Files} {paths : List String} (h : ∀ p ∈ files, p ∈ paths) :
    files.bytes ≤ (paths.map files.sizeOf).sum := by
  have hbytes : files.bytes = (files.keys.map files.sizeOf).sum := by
    rw [Files.bytes, AList.keys, List.keys, List.map_map]
    refine congrArg List.sum (List.map_congr_left fun entry hentry => ?_)
    have hlookup := AList.mem_lookup_iff.mpr hentry
    rw [Function.comp_apply, sizeOf_eq, Option.mem_def.mp hlookup]
    rfl
  rw [hbytes]
  obtain ⟨picked, hperm, hsub⟩ := files.keys_nodup.subperm h
  rw [← (hperm.map files.sizeOf).sum_eq]
  exact (hsub.map files.sizeOf).sum_le_sum fun _ _ => Nat.zero_le _

/-- **The ledger bounds the bytes on disk.**  While the heartbeat keeps the leases of
    unfinished uploads, the two paths of a blob never hold more than its row says, every
    file has a row, and all managed bytes are within `used_bytes + reserved_bytes`. -/
theorem physical_bytes_bounded (hchunk : 0 < chunk) (hrange : chunk < 2 ^ 64)
    (h : Reachable ((worldSystem chunk ∅).guarded Heartbeat) w) :
    (∀ b ∈ w.ledger.blobs.rows, diskBytes w.files b ≤ b.size)
      ∧ (∀ path ∈ w.files, ∃ b ∈ w.ledger.blobs.rows, Manages b path)
      ∧ w.files.bytes ≤ w.ledger.quota.usedBytes + w.ledger.quota.reservedBytes := by
  obtain ⟨hb, -⟩ := worldOk_of_reachable h.of_guarded
  have hbytes := bytesOk_of_reachable hchunk hrange h
  have hrows := fun b hmem => diskBytes_le (b := b) hb hbytes hmem
  have howned : ∀ path ∈ w.files, ∃ b ∈ w.ledger.blobs.rows, Manages b path := by
    intro path hpath
    obtain ⟨n, hn⟩ := Option.isSome_iff_exists.mp (AList.lookup_isSome.mpr hpath)
    obtain ⟨b, hmem, hmanages, -⟩ := hbytes.owned path n hn
    exact ⟨b, hmem, hmanages⟩
  refine ⟨hrows, howned, ?_⟩
  have hpaths : ∀ p ∈ w.files, p ∈ w.ledger.blobs.rows.flatMap
      fun b => b.storagePath :: b.stagingPath.toList := by
    intro p hp
    obtain ⟨b, hmem, hmanages⟩ := howned p hp
    refine List.mem_flatMap.mpr ⟨b, hmem, ?_⟩
    rcases hmanages with rfl | hstaging
    · exact List.mem_cons_self
    · exact List.mem_cons_of_mem _ (Option.mem_toList.mpr hstaging)
  -- a row's size is paid for by exactly one of the two counters
  have hsizes : w.ledger.blobs.sum (·.usedSize) + w.ledger.blobs.sum (·.reservedSize)
      = (w.ledger.blobs.rows.map (·.size)).sum := by
    rw [Table.sum, Table.sum, ← List.sum_map_add]
    refine congrArg List.sum (List.map_congr_left fun b _ => ?_)
    rw [StorageBlob.usedSize, StorageBlob.reservedSize]
    split <;> simp
  calc w.files.bytes
      ≤ ((w.ledger.blobs.rows.flatMap fun b => b.storagePath :: b.stagingPath.toList).map
          w.files.sizeOf).sum := bytes_le hpaths
    _ = (w.ledger.blobs.rows.map (diskBytes w.files)).sum := by
        rw [List.map_flatMap, List.flatMap_def, List.sum_flatten, List.map_map]
        rfl
    _ ≤ (w.ledger.blobs.rows.map (·.size)).sum := List.sum_le_sum hrows
    _ = w.ledger.quota.usedBytes + w.ledger.quota.reservedBytes := by
        have hledger := hb.storage.ledger
        rw [World.ledger, hledger.used, hledger.reserved]
        exact hsizes.symm

theorem publishedWorld_heartbeat :
    Reachable ((worldSystem 16 ∅).guarded Heartbeat) publishedWorld := by
  refine publishedWorld_guarded fun w e hother => ?_
  unfold Heartbeat
  split
  · next before limit now => exact absurd rfl (hother before limit now)
  · trivial

/-- Five bytes on disk, and five that are paid for. -/
theorem physical_bytes_bounded_published :
    publishedWorld.files.bytes = 5
      ∧ publishedWorld.files.bytes ≤ publishedWorld.ledger.quota.usedBytes
        + publishedWorld.ledger.quota.reservedBytes :=
  ⟨by decide, (physical_bytes_bounded (by decide) (by decide) publishedWorld_heartbeat).2.2⟩

end Runs

end PhysicalBytes
