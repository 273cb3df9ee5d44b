import LightOss.DeletionSafety
import LightOss.StorageReconciliation

/-! # Concurrent reconciliation — one reconciler among uploaders and workers

    The loop of `reconcileLocked`, one database call or one file operation at a time:
    the list of all blobs, a `Stat` for each active one, the walk, and for each walked
    file the two lookups and the insert.  Everybody else goes on in between; the lock
    keeps a second reconciler out.  What is walked or listed may be gone when it is
    looked up.

    `StageOk` is what the reconciler may rely on at each of its places, and what the
    others do leaves it so (`stageOk_others`).  A blob that was active when it was
    listed is either still active or doomed (`WasActive`), so a missing file means that
    nothing is active at the path, then and later.  A path that was seen and has no row
    gets none from anybody else (`unowned_step`), so the insert of an orphan is sound. -/

namespace ConcurrentReconciliation

open KeyedTable Fallible LedgerRows BlobRepository LedgerSpecs LedgerMoves LedgerOps
open LedgerEvolution LedgerInvariant Catalog MetadataServices MetadataReferences
open StorageAudit PublishLifecycle StepSystem StorageSystem LedgerExactness StreamingStage
open ManagedFiles DeletionSafety
open StorageReconciliation (ManagedFileInfo trackedPaths listAll managedPathExists orphanOf)
open CleanupLease (new_fresh)

/-! ## The reconciler -/

/-- Where `reconcileLocked` is: `blobs` are still to be checked, `files` to be looked up. -/
inductive Stage where
  | idle
  | checking (tracked : List String) (blobs : List StorageBlob) (missing : List String)
  | walking (tracked : List String) (files : List ManagedFileInfo)
  | adopting (tracked : List String) (files : List ManagedFileInfo)
  | registering (tracked : List String) (file : ManagedFileInfo) (files : List ManagedFileInfo)
  | mismatch (path : String)
  | finished (missing : List String)

/-- The world and where the reconciler is. -/
structure Joint where
  world : World
  stage : Stage := .idle

/-- The row of an orphan, with a new id. -/
def orphanRow (file : ManagedFileInfo) (id : String) : StorageBlob :=
  orphanOf { file := file, orphanID := id }

/-- A step of somebody else, or one call of the reconciler with its answer. -/
inductive JointStep (chunk : Nat) (x : Joint) : Event → Joint → Prop where
  | others {e : Event} {w : World} :
      Step chunk x.world e w → (∀ blob, e ≠ .transaction (.ledger (.registerOrphan blob))) →
      JointStep chunk x e { x with world := w }
  | listAll :
      x.stage = .idle →
      JointStep chunk x .silent { x with
        stage := .checking (trackedPaths (listAll x.world.ledger)) (listAll x.world.ledger) [] }
  | statInactive {tracked missing : List String} {blob : StorageBlob} {blobs : List StorageBlob} :
      x.stage = .checking tracked (blob :: blobs) missing → blob.status ≠ .active →
      JointStep chunk x .silent { x with stage := .checking tracked blobs missing }
  | statMissing {tracked missing : List String} {blob : StorageBlob} {blobs : List StorageBlob} :
      x.stage = .checking tracked (blob :: blobs) missing → blob.status = .active →
      x.world.files.lookup blob.storagePath = none →
      JointStep chunk x .silent { x with
        stage := .checking tracked blobs (missing ++ [blob.storagePath]) }
  | statFound {tracked missing : List String} {blob : StorageBlob} {blobs : List StorageBlob}
      {size : Nat} :
      x.stage = .checking tracked (blob :: blobs) missing → blob.status = .active →
      x.world.files.lookup blob.storagePath = some size →
      JointStep chunk x .silent { x with
        stage := if size ≠ blob.size then .mismatch blob.storagePath
          else .checking tracked blobs missing }
  | report {tracked missing : List String} :
      x.stage = .checking tracked [] missing → missing ≠ [] →
      JointStep chunk x .silent { x with stage := .finished missing }
  | walk {tracked : List String} :
      x.stage = .checking tracked [] [] →
      JointStep chunk x .silent { x with stage := .walking tracked [] }
  | visit {tracked : List String} {files : List ManagedFileInfo} {path : String} {size : Nat} :
      x.stage = .walking tracked files → path ≠ "" →
      x.world.files.lookup path = some size →
      JointStep chunk x .silent { x with
        stage := .walking tracked (files ++ [{ relativePath := path, size := size }]) }
  | walked {tracked : List String} {files : List ManagedFileInfo} :
      x.stage = .walking tracked files →
      JointStep chunk x .silent { x with stage := .adopting tracked files }
  | tracked {tracked : List String} {file : ManagedFileInfo} {files : List ManagedFileInfo} :
      x.stage = .adopting tracked (file :: files) → file.relativePath ∈ tracked →
      JointStep chunk x .silent { x with stage := .adopting tracked files }
  | lookUp {tracked : List String} {file : ManagedFileInfo} {files : List ManagedFileInfo} :
      x.stage = .adopting tracked (file :: files) → file.relativePath ∉ tracked →
      JointStep chunk x .silent { x with
        stage := if managedPathExists x.world.ledger file.relativePath then .adopting tracked files
          else .registering tracked file files }
  | register {tracked : List String} {file : ManagedFileInfo} {files : List ManagedFileInfo}
      {id : String} :
      x.stage = .registering tracked file files → id ∉ x.world.storage.registry.issuedIDs →
      JointStep chunk x (.transaction (.ledger (.registerOrphan (orphanRow file id))))
        { world := x.world.transact (.ledger (.registerOrphan (orphanRow file id)))
          stage := .adopting tracked files }
  | complete {tracked : List String} :
      x.stage = .adopting tracked [] →
      JointStep chunk x .silent { x with stage := .finished [] }
  | restart : JointStep chunk x .silent { x with stage := .idle }

/-- Nobody is reconciling at the start. -/
def jointSystem (chunk : Nat) (foreign : Files) : System Joint Event where
  start x := x = { world := { storage := State.initial, files := foreign } }
  step := JointStep chunk

/-! ## What the reconciler relies on -/

/-- The path is known to the services, or a file is there. -/
def Seen (w : World) (path : String) : Prop :=
  path ≠ "" ∧ (path ∈ w.storage.registry.issuedPaths ∨ path ∈ w.files)

/-- What is left of a blob that was active when it was listed. -/
structure WasActive (w : World) (b : StorageBlob) : Prop where
  created : ∃ c ∈ w.storage.registry.created, c.id = b.id ∧ c.storagePath = b.storagePath
  published : b.id ∈ w.storage.registry.published
  later : ∀ r ∈ w.ledger.blobs.rows, r.id = b.id → r.status ≠ .staging
  size : ∀ n, w.files.lookup b.storagePath = some n → n = b.size

/-- What holds at each place of the reconciler. -/
def StageOk (w : World) : Stage → Prop
  | .idle => True
  | .checking _ blobs missing =>
      (∀ b ∈ blobs, b.status = .active → WasActive w b) ∧ ∀ p ∈ missing, Dormant w.storage p
  | .walking _ files => ∀ f ∈ files, Seen w f.relativePath
  | .adopting _ files => ∀ f ∈ files, Seen w f.relativePath
  | .registering _ file files => (∀ f ∈ file :: files, Seen w f.relativePath)
      ∧ managedPathExists w.ledger file.relativePath = false
  | .mismatch _ => False
  | .finished missing => ∀ p ∈ missing, Dormant w.storage p

section Steps

variable {chunk : Nat} {w w' : World} {e : Event} {path : String} {b : StorageBlob}

/-- The lookup finds nothing exactly when no row has the path. -/
theorem managedPathExists_false {l : Ledger} : managedPathExists l path = false
    ↔ ∀ b ∈ l.blobs.rows, b.storagePath ≠ path ∧ b.stagingPath ≠ some path := by
  rw [managedPathExists, List.any_eq_false]
  simp

/-- The paths of an upload are known to the services. -/
theorem upload_issued (hb : Bookkeeping w) {id : String} {u : Upload}
    (hu : w.uploads id = some u) :
    u.storagePath ∈ w.storage.registry.issuedPaths
      ∧ u.stagingPath ∈ w.storage.registry.issuedPaths := by
  obtain ⟨c, hc, -, hpath, hstaging⟩ := (hb.uploads id u hu).created
  exact ⟨hpath ▸ hb.storage.registry.createdPaths c hc,
    hb.storage.registry.stagingPaths c hc _ hstaging⟩

/-- Nobody touches a file that is not ours. -/
theorem foreign_file (hb : Bookkeeping w) (hf : FilesOk w) (hs : Step chunk w e w')
    (hforeign : path ∉ w.storage.registry.issuedPaths) :
    w'.files.lookup path = w.files.lookup path := by
  have hne : ∀ {other : String}, other ∈ w.storage.registry.issuedPaths → path ≠ other :=
    fun hissued heq => hforeign (heq ▸ hissued)
  cases hs with
  | stage => rw [(enlist_storage _ _ _ _).2.1]
  | stageBatch => rw [(enlist_storage _ _ _ _).2.1]
  | openFile hu _ _ => exact Files.lookup_insert_other (hne (upload_issued hb hu).2)
  | write hu _ _ => exact Files.lookup_append_other (hne (upload_issued hb hu).2)
  | @discard id u removed hu _ =>
      exact Files.lookup_unlink_other (hne (upload_issued hb hu).2) removed
  | @commit id u size reserved files hu hphase _ hcommit =>
      obtain ⟨hfinal, hstaging⟩ := upload_issued hb hu
      exact Files.lookup_commit_other hcommit (hne hstaging) (hne hfinal)
  | @deleteStaging id u removed hu _ =>
      exact Files.lookup_unlink_other (hne (upload_issued hb hu).2) removed
  | @deleteFinal id u ok removed hu _ =>
      exact Files.lookup_unlink_other (hne (upload_issued hb hu).1) removed
  | @unlinkStaging token path jobID blob removed hworker hpath =>
      exact Files.lookup_unlink_other (hne ((hf.workers _ _ hworker).2 _ hpath).1.1) removed
  | @unlinkFinal token jobID blob ok removed hworker =>
      exact Files.lookup_unlink_other (hne (hf.workers _ _ hworker).1.1) removed
  | _ => rfl

/-- What was seen of a path stays true of it. -/
theorem seen_step (hb : Bookkeeping w) (hf : FilesOk w) (hs : Step chunk w e w')
    (h : Seen w path) : Seen w' path := by
  have hext := step_extends hb.storage.registry hb.uploads hs
  refine ⟨h.1, ?_⟩
  by_cases hissued : path ∈ w.storage.registry.issuedPaths
  · exact Or.inl (hext.issuedPaths path hissued)
  · have hfile := h.2.resolve_left hissued
    rw [← AList.lookup_isSome, ← foreign_file hb hf hs hissued] at hfile
    exact Or.inr (AList.lookup_isSome.mp hfile)

/-- The paths of new rows were not seen before. -/
theorem new_unseen {op : StorageOp} (hs : Step chunk w (.transaction op) w')
    (hop : ∀ blob, op ≠ .ledger (.registerOrphan blob)) (h : Seen w path) :
    ∀ n ∈ (StorageOp.footprint w.storage op).new,
      n.storagePath ≠ path ∧ n.stagingPath ≠ some path := by
  -- the paths of new rows were neither issued nor taken by a file
  have hfresh : ∀ {blobs : List StorageBlob}, NewBlobs w.storage.registry blobs →
      FreshPaths w.files blobs → ∀ n ∈ blobs, n.storagePath ≠ path ∧ n.stagingPath ≠ some path := by
    intro blobs hnew hfresh n hn
    refine ⟨fun heq => ?_, fun heq => ?_⟩
    · rcases h.2 with hissued | hfile
      · exact hnew.storagePaths n hn (heq ▸ hissued)
      · exact hfresh.final n hn (heq ▸ hfile)
    · rcases h.2 with hissued | hfile
      · exact hnew.stagingPaths n hn path heq hissued
      · exact hfresh.staging n hn path heq hfile
  intro n hn
  cases hs with
  | stage hnew _ hpaths => exact hfresh hnew hpaths n hn
  | stageBatch hnew hpaths _ => exact hfresh hnew hpaths n hn
  | reserve _ _ _ hcall =>
      rw [hcall] at hn
      exact absurd hn List.not_mem_nil
  | reserveExact _ _ hcall =>
      rw [hcall] at hn
      exact absurd hn List.not_mem_nil
  | reserveOne _ _ _ hcall =>
      rw [hcall] at hn
      exact absurd hn List.not_mem_nil
  | other hfree _ =>
      cases op with
      | ledger op =>
          cases op with
          | createStaging blob lease now => exact hfree.elim
          | createStagingBatch blobs k lease now => exact hfree.elim
          | registerOrphan blob => exact absurd rfl (hop blob)
          | _ => exact absurd hn List.not_mem_nil
      | _ => exact absurd hn List.not_mem_nil
  | _ => exact absurd hn List.not_mem_nil

/-- A path that was seen and has no row gets none from anybody else. -/
theorem unowned_step (hs : Step chunk w e w')
    (hother : ∀ blob, e ≠ .transaction (.ledger (.registerOrphan blob))) (h : Seen w path)
    (hunowned : managedPathExists w.ledger path = false) :
    managedPathExists w'.ledger path = false := by
  rw [World.ledger, step_storage hs]
  cases e with
  | unlink other => exact hunowned
  | silent => exact hunowned
  | transaction op =>
      rw [managedPathExists_false] at hunowned ⊢
      obtain ⟨m, h1, h2⟩ := apply_evolves w.storage op
      -- a row keeps its final path and at most loses its staging path
      have hback : ∀ {as : List StorageBlobActivation} {b b' : StorageBlob}, Descends as b b' →
          b.storagePath ≠ path ∧ b.stagingPath ≠ some path →
          b'.storagePath ≠ path ∧ b'.stagingPath ≠ some path := by
        intro as b b' hd hne
        refine ⟨hd.storagePath ▸ hne.1, ?_⟩
        rcases hd.move.stagingPath with hsame | hnone
        · exact hsame ▸ hne.2
        · simp [hnone]
      intro b' hb'
      rcases h2.origin b' hb' with ⟨c, hc, hd⟩ | ⟨n, hn, -⟩
      · refine hback hd ?_
        rcases h1.origin c hc with ⟨b, hb, he⟩ | ⟨n, hn, hstarts⟩
        · exact hback he (hunowned b hb)
        · rw [hstarts.storagePath, hstarts.stagingPath]
          exact new_unseen hs (fun blob heq => hother blob (congrArg _ heq)) h n hn
      · exact absurd hn List.not_mem_nil

/-- No step gives a published blob another file. -/
theorem published_file (hb : Bookkeeping w) (hs : Step chunk w e w') {c : StorageBlob}
    (hc : c ∈ w.storage.registry.created) (hpub : c.id ∈ w.storage.registry.published) {n : Nat}
    (h : w'.files.lookup c.storagePath = some n) : w.files.lookup c.storagePath = some n := by
  have hstaging : ∀ {id : String} {u : Upload}, w.uploads id = some u →
      c.storagePath ≠ u.stagingPath := by
    intro id u hu heq
    obtain ⟨d, hd, -, -, hdstaging⟩ := (hb.uploads id u hu).created
    exact hb.paths.apart d hd c hc (hdstaging.trans (congrArg some heq.symm))
  cases hs with
  | stage => rwa [(enlist_storage _ _ _ _).2.1] at h
  | stageBatch => rwa [(enlist_storage _ _ _ _).2.1] at h
  | openFile hu _ _ => exact (Files.lookup_insert_other (hstaging hu)).symm.trans h
  | write hu _ _ => exact (Files.lookup_append_other (hstaging hu)).symm.trans h
  | discard => exact Files.lookup_of_unlink h
  | @commit id u size reserved files hu hphase _ hcommit =>
      refine (Files.lookup_commit_other hcommit (hstaging hu) fun heq => ?_).symm.trans h
      obtain ⟨⟨d, hd, hid, hpath, -⟩, hpending, -⟩ := hb.uploads id u hu
      rw [hb.paths.final c hc d hd (heq.trans hpath.symm), hid] at hpub
      exact (hpending (by rw [hphase]; rfl)).1 hpub
  | deleteStaging => exact Files.lookup_of_unlink h
  | deleteFinal => exact Files.lookup_of_unlink h
  | unlinkStaging => exact Files.lookup_of_unlink h
  | unlinkFinal => exact Files.lookup_of_unlink h
  | _ => exact h

/-- No row goes back to staging. -/
theorem later_evolves {fp : Footprint} {l l' : Ledger} (he : Evolution fp l l') {id : String}
    (hnew : ∀ n ∈ fp.new, n.id ≠ id)
    (h : ∀ r ∈ l.blobs.rows, r.id = id → r.status ≠ .staging) :
    ∀ r ∈ l'.blobs.rows, r.id = id → r.status ≠ .staging := by
  intro r hr hid
  rcases he.origin r hr with ⟨b, hb, hd⟩ | ⟨n, hn, hs⟩
  · cases hd.move with
    | stays hsame _ _ => exact hsame ▸ h b hb (hd.id.symm.trans hid)
    | activated _ _ _ _ hst _ _ => simp [hst]
    | doomed _ hst _ _ => simp [hst]
  · exact absurd (hs.id.symm.trans hid) (hnew n hn)

/-- A row that was active stays recorded as such. -/
theorem wasActive_step (hb : Bookkeeping w) (hs : Step chunk w e w') (h : WasActive w b) :
    WasActive w' b := by
  have hext := step_extends hb.storage.registry hb.uploads hs
  obtain ⟨c, hc, hid, hpath⟩ := h.created
  refine ⟨⟨c, hext.created c hc, hid, hpath⟩, hext.published b.id h.published, ?_, fun n hn => ?_⟩
  · rw [World.ledger, step_storage hs]
    cases e with
    | unlink path => exact h.later
    | silent => exact h.later
    | transaction op =>
        obtain ⟨m, h1, h2⟩ := apply_evolves w.storage op
        refine later_evolves h2 (List.forall_mem_nil _)
          (later_evolves h1 (fun n hn heq => ?_) h.later)
        refine new_fresh (step_allowed hb.uploads hs) n hn ?_
        exact heq ▸ hid ▸ hb.storage.registry.createdIDs c hc
  · rw [← hpath] at hn
    exact h.size n (hpath ▸ published_file hb hs hc (hid ▸ h.published) hn)

/-- A blob that is active now. -/
theorem wasActive_of_active (hb : Bookkeeping w) (hf : FilesOk w) (hrow : b ∈ w.ledger.blobs.rows)
    (hst : b.status = .active) : WasActive w b where
  created := created_of_active hb.storage hrow hst
  published := hb.storage.rows.active b hrow hst
  later := by
    intro r hr hid
    rw [w.ledger.blobs.eq_of_clash hr hrow (StorageBlob.clash_of_id hid), hst]
    decide
  size := by
    intro n hn
    rw [hf.active b hrow hst] at hn
    exact (Option.some.inj hn).symm

/-- When its file is gone, so is the blob, for good. -/
theorem dormant_of_missing (hb : Bookkeeping w) (hf : FilesOk w) (h : WasActive w b)
    (hmissing : w.files.lookup b.storagePath = none) : Dormant w.storage b.storagePath := by
  obtain ⟨c, hc, hid, hpath⟩ := h.created
  refine hpath ▸ dormant_final hb.storage hb.paths hc ?_
  refine ⟨hb.storage.registry.createdIDs c hc, Or.inr fun r hr hrid => ?_⟩
  have hrpath := (path_of_created hb.storage.rows hb.storage.registry hc hr hrid).2
  cases hst : r.status with
  | staging => exact absurd hst (h.later r hr (hrid.trans hid))
  | active =>
      have hfile := hf.active r hr hst
      rw [hrpath, hpath, hmissing] at hfile
      cases hfile
  | pendingDelete => exact Or.inl rfl
  | orphaned => exact Or.inr rfl

end Steps

/-! ## Every run -/

section Runs

variable {chunk : Nat} {foreign : Files} {x y : Joint} {e : Event}

/-- What the others do leaves the reconciler its knowledge. -/
theorem stageOk_others {w w' : World} (hb : Bookkeeping w) (hf : FilesOk w)
    (hs : Step chunk w e w') (hother : ∀ blob, e ≠ .transaction (.ledger (.registerOrphan blob)))
    {stage : Stage} (h : StageOk w stage) : StageOk w' stage := by
  cases stage with
  | idle => trivial
  | checking tracked blobs missing =>
      exact ⟨fun b hmem hst => wasActive_step hb hs (h.1 b hmem hst),
        fun p hp => dormant_step hb hs (h.2 p hp)⟩
  | walking tracked files => exact fun f hmem => seen_step hb hf hs (h f hmem)
  | adopting tracked files => exact fun f hmem => seen_step hb hf hs (h f hmem)
  | registering tracked file files =>
      refine ⟨fun f hmem => seen_step hb hf hs (h.1 f hmem), ?_⟩
      exact unowned_step hs hother (h.1 file List.mem_cons_self) h.2
  | mismatch path => exact h.elim
  | finished missing => exact fun p hp => dormant_step hb hs (h p hp)

/-- The insert is one the storage system allows. -/
theorem newOrphan_registering {w : World} {tracked : List String} {file : ManagedFileInfo}
    {files : List ManagedFileInfo} (h : StageOk w (.registering tracked file files)) {id : String}
    (hid : id ∉ w.storage.registry.issuedIDs) :
    NewOrphan w.storage.registry w.ledger (orphanRow file id) where
  status := rfl
  stagingPath := rfl
  lease := rfl
  refCount := rfl
  freshID := hid
  nonempty := (h.1 file List.mem_cons_self).1
  unowned := managedPathExists_false.mp h.2

/-- The reconciler's insert is a step that the world allows. -/
theorem register_step (chunk : Nat) {w : World} {tracked : List String} {file : ManagedFileInfo}
    {files : List ManagedFileInfo} (h : StageOk w (.registering tracked file files)) {id : String}
    (hid : id ∉ w.storage.registry.issuedIDs) :
    Step chunk w (.transaction (.ledger (.registerOrphan (orphanRow file id))))
      (w.transact (.ledger (.registerOrphan (orphanRow file id)))) :=
  .other trivial (newOrphan_registering h hid)

/-- What holds in every state of the joint system. -/
structure JointOk (chunk : Nat) (foreign : Files) (x : Joint) : Prop where
  world : Reachable (worldSystem chunk foreign) x.world
  stage : StageOk x.world x.stage

/-- **The step lemma.** -/
theorem jointOk_step (h : JointOk chunk foreign x) (hs : JointStep chunk x e y) :
    JointOk chunk foreign y := by
  obtain ⟨hb, hf⟩ := worldOk_of_reachable h.world
  have hstage := h.stage
  cases hs with
  | others hs hother => exact ⟨h.world.step hs, stageOk_others hb hf hs hother hstage⟩
  | listAll _ =>
      refine ⟨h.world, fun b hmem hst => ?_, List.forall_mem_nil _⟩
      exact wasActive_of_active hb hf (List.mem_mergeSort.mp hmem) hst
  | statInactive hat _ =>
      rw [hat] at hstage
      exact ⟨h.world, fun b hmem => hstage.1 b (List.mem_cons_of_mem _ hmem), hstage.2⟩
  -- a missing file: the blob is doomed, so its path is dormant from now on
  | @statMissing tracked missing blob blobs hat hst hmissing =>
      rw [hat] at hstage
      refine ⟨h.world, fun b hmem => hstage.1 b (List.mem_cons_of_mem _ hmem), fun p hp => ?_⟩
      rcases List.mem_append.mp hp with hp | hp
      · exact hstage.2 p hp
      · rw [List.mem_singleton.mp hp]
        exact dormant_of_missing hb hf (hstage.1 blob List.mem_cons_self hst) hmissing
  | @statFound tracked missing blob blobs size hat hst hfile =>
      rw [hat] at hstage
      have hsize := (hstage.1 blob List.mem_cons_self hst).size size hfile
      refine ⟨h.world, ?_⟩
      rw [if_neg (not_not.mpr hsize)]
      exact ⟨fun b hmem => hstage.1 b (List.mem_cons_of_mem _ hmem), hstage.2⟩
  | report hat _ =>
      rw [hat] at hstage
      exact ⟨h.world, hstage.2⟩
  | walk _ => exact ⟨h.world, List.forall_mem_nil _⟩
  | @visit tracked files path size hat hname hfile =>
      rw [hat] at hstage
      refine ⟨h.world, fun f hmem => ?_⟩
      rcases List.mem_append.mp hmem with hmem | hmem
      · exact hstage f hmem
      · rw [List.mem_singleton.mp hmem]
        refine ⟨hname, Or.inr (AList.lookup_isSome.mp ?_)⟩
        rw [hfile]
        rfl
  | walked hat =>
      rw [hat] at hstage
      exact ⟨h.world, hstage⟩
  | tracked hat _ =>
      rw [hat] at hstage
      exact ⟨h.world, fun f hmem => hstage f (List.mem_cons_of_mem _ hmem)⟩
  -- a file with a row is dropped, one without goes on to the insert
  | @lookUp tracked file files hat _ =>
      rw [hat] at hstage
      refine ⟨h.world, ?_⟩
      split
      · exact fun f hmem => hstage f (List.mem_cons_of_mem _ hmem)
      · next hunowned => exact ⟨hstage, Bool.eq_false_of_not_eq_true hunowned⟩
  | @register tracked file files id hat hid =>
      rw [hat] at hstage
      have hs := register_step chunk hstage hid
      refine ⟨h.world.step hs, fun f hmem => ?_⟩
      exact seen_step hb hf hs (hstage.1 f (List.mem_cons_of_mem _ hmem))
  | complete _ => exact ⟨h.world, List.forall_mem_nil _⟩
  | restart => exact ⟨h.world, trivial⟩

/-- The invariant in every reachable state. -/
theorem jointOk_of_reachable (h : Reachable (jointSystem chunk foreign) x) :
    JointOk chunk foreign x := by
  refine h.invariant (I := JointOk chunk foreign) ?_ ?_
  · rintro x rfl
    exact ⟨.start rfl, trivial⟩
  · intro x e y _ hx hs
    exact jointOk_step hx hs

/-- **Concurrent reconciliation is sound.**  With a reconciler among uploaders and workers
    the storage stays in a state it could reach without one; a file is adopted only when
    no row has its path, and if it is gone by then its path was one of ours; a size never
    disagrees; and what is reported missing is no live content, then and ever after. -/
theorem concurrent_reconciliation_sound (h : Reachable (jointSystem chunk foreign) x) :
    Reachable (worldSystem chunk foreign) x.world
      ∧ (∀ blob y, JointStep chunk x (.transaction (.ledger (.registerOrphan blob))) y →
          (∀ b ∈ x.world.ledger.blobs.rows, b.storagePath ≠ blob.storagePath
            ∧ b.stagingPath ≠ some blob.storagePath)
          ∧ (blob.storagePath ∈ x.world.files
            ∨ blob.storagePath ∈ x.world.storage.registry.issuedPaths))
      ∧ (∀ path, x.stage ≠ .mismatch path)
      ∧ ∀ missing, x.stage = .finished missing → ∀ path ∈ missing,
          ∀ es y, Run (jointSystem chunk foreign) x es y →
            (∀ b ∈ y.world.ledger.blobs.rows, b.status = .active → b.storagePath ≠ path)
              ∧ ∀ r ∈ references y.world.storage.db.catalog, r.1 ≠ path := by
  have hx := jointOk_of_reachable h
  refine ⟨hx.world, fun blob y hs => ?_, fun path hat => ?_,
    fun missing hat path hmem es y hrun => ?_⟩
  -- only the reconciler registers an orphan, and it has looked the path up
  · cases hs with
    | others _ hother => exact absurd rfl (hother blob)
    | register hat hid =>
        have hstage := hx.stage
        rw [hat] at hstage
        exact ⟨managedPathExists_false.mp hstage.2, (hstage.1 _ List.mem_cons_self).2.symm⟩
  · have hstage := hx.stage
    rw [hat] at hstage
    exact hstage
  · have hstage := hx.stage
    rw [hat] at hstage
    -- dormant when it was reported, and along every run since
    have hdormant : Dormant y.world.storage path := by
      refine hrun.stable (P := fun x => Dormant x.world.storage path)
        (fun x e y hr hdormant hs => ?_)
        h (hstage path hmem)
      have hx := jointOk_of_reachable hr
      obtain ⟨hb, -⟩ := worldOk_of_reachable hx.world
      cases hs with
      | others hs _ => exact dormant_step hb hs hdormant
      | register hat hid =>
          have hstage := hx.stage
          rw [hat] at hstage
          exact dormant_step hb (register_step chunk hstage hid) hdormant
      | _ => exact hdormant
    obtain ⟨hb, -⟩ := worldOk_of_reachable (jointOk_of_reachable (hrun.reachable h)).world
    have hinactive := fun b hrow hst => dormant_inactive (b := b) hb.storage hdormant hrow hst
    refine ⟨hinactive, fun r hr heq => ?_⟩
    obtain ⟨b, hrow, hst, hpath⟩ := hb.storage.ledger.owned r hr
    exact hinactive b hrow hst (hpath.trans heq)

/-! A file of three bytes that nobody owns, and its adoption. -/

/-- A file that nobody owns. -/
def strayFiles : Files := (∅ : Files).insert "objects/stray.bin" 3

/-- The world at the start: that file and a migrated ledger. -/
def strayWorld : World := { storage := State.initial, files := strayFiles }

/-- As the walk reports it. -/
def strayFile : ManagedFileInfo where
  relativePath := "objects/stray.bin"
  size := 3

/-- After the reconciler took it in. -/
def adopted : Joint where
  world := strayWorld.transact (.ledger (.registerOrphan (orphanRow strayFile "blob-1")))
  stage := .adopting [] []

theorem adopted_reachable : Reachable (jointSystem 16 strayFiles) adopted := by
  have hlist : listAll strayWorld.ledger = [] := List.mergeSort_nil
  have h0 : Reachable (jointSystem 16 strayFiles) { world := strayWorld } := .start rfl
  have h1 : Reachable (jointSystem 16 strayFiles)
      { world := strayWorld, stage := .checking [] [] [] } := by
    have hstep := h0.step (.listAll rfl)
    dsimp only at hstep
    rwa [hlist] at hstep
  have h2 : Reachable (jointSystem 16 strayFiles)
      { world := strayWorld, stage := .walking [] [] } := h1.step (.walk rfl)
  have h3 : Reachable (jointSystem 16 strayFiles)
      { world := strayWorld, stage := .walking [] [strayFile] } :=
    h2.step (@JointStep.visit 16 _ [] [] "objects/stray.bin" 3 rfl (by decide) rfl)
  have h4 : Reachable (jointSystem 16 strayFiles)
      { world := strayWorld, stage := .adopting [] [strayFile] } := h3.step (.walked rfl)
  have h5 : Reachable (jointSystem 16 strayFiles)
      { world := strayWorld, stage := .registering [] strayFile [] } :=
    h4.step (.lookUp rfl List.not_mem_nil)
  exact h5.step (.register rfl List.not_mem_nil)

/-- Its three bytes are used from then on. -/
theorem concurrent_reconciliation_sound_stray :
    adopted.world.ledger.quota.usedBytes = 3
      ∧ Reachable (worldSystem 16 strayFiles) adopted.world :=
  ⟨by decide, (concurrent_reconciliation_sound adopted_reachable).1⟩

end Runs

end ConcurrentReconciliation
