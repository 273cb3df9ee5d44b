import LightOss.StorageSystem

/-! # Ledger exactness — the audit passes in every reachable state

    The ledger invariant is not inductive on its own: a publication needs that its
    rows have no cleanup job, an enqueued job that its row is not active.  Both
    follow from what the services promise each other, so the rows are related to
    the registry: active rows were published, and staging rows with a job were
    aborted, and no blob is both.

    `StorageOk` joins the ledger invariant, the rows against the registry (`RowsOk`) and
    the registry itself (`RegistryOk`).  The rows follow every evolution
    (`RowsOk.evolve`), the ledger every allowed call (`ledgerOk_run`), the registry only
    grows (`registry_step`); together they are the step lemma (`storageOk_step`). -/

namespace LedgerExactness

open KeyedTable Fallible LedgerRows BlobRepository LedgerSpecs LedgerMoves LedgerOps LedgerEvolution
open LedgerInvariant Catalog MetadataServices MetadataReferences StorageAudit PublishLifecycle
open StepSystem StorageSystem

variable {g g' : Registry} {l l' : Ledger}

/-- Where a row comes from: an uploader made it up, or it was adopted as an orphan. -/
def Known (g : Registry) (b : StorageBlob) : Prop :=
  (b.status ≠ .orphaned ∧ ∃ c ∈ g.created, c.id = b.id ∧ c.storagePath = b.storagePath)
    ∨ (b.id ∉ g.created.map (·.id) ∧ b.status ≠ .staging ∧ b.status ≠ .active)

/-- The rows of the ledger against the registry. -/
structure RowsOk (g : Registry) (l : Ledger) : Prop where
  known : ∀ b ∈ l.blobs.rows, Known g b
  ids : ∀ b ∈ l.blobs.rows, b.id ∈ g.issuedIDs
  storagePaths : ∀ b ∈ l.blobs.rows, b.storagePath ∈ g.issuedPaths
  stagingPaths : ∀ b ∈ l.blobs.rows, ∀ p ∈ b.stagingPath, p ∈ g.issuedPaths
  active : ∀ b ∈ l.blobs.rows, b.status = .active → b.id ∈ g.published
  jobs : ∀ b ∈ l.blobs.rows, b.status = .staging → HasJob l b.id → b.id ∈ g.aborted

/-- Ids and paths are issued once, and no blob is both published and given up. -/
structure RegistryOk (g : Registry) : Prop where
  unique : ∀ c ∈ g.created, ∀ d ∈ g.created, c.id = d.id → c = d
  createdIDs : ∀ c ∈ g.created, c.id ∈ g.issuedIDs
  createdPaths : ∀ c ∈ g.created, c.storagePath ∈ g.issuedPaths
  stagingPaths : ∀ c ∈ g.created, ∀ p ∈ c.stagingPath, p ∈ g.issuedPaths
  disjoint : ∀ id ∈ g.published, id ∉ g.aborted

/-- Everything the steps keep. -/
structure StorageOk (s : State) : Prop where
  ledger : LedgerOk s.db.ledger (references s.db.catalog)
  rows : RowsOk s.registry s.db.ledger
  registry : RegistryOk s.registry

/-! ## The registry grows -/

/-- `g'` knows more than `g`, and what it made up since is fresh. -/
structure Extends (g g' : Registry) : Prop where
  created : ∀ c ∈ g.created, c ∈ g'.created
  fresh : ∀ c ∈ g'.created, c ∈ g.created ∨ c.id ∉ g.issuedIDs
  issuedIDs : ∀ id ∈ g.issuedIDs, id ∈ g'.issuedIDs
  issuedPaths : ∀ p ∈ g.issuedPaths, p ∈ g'.issuedPaths
  published : ∀ id ∈ g.published, id ∈ g'.published
  aborted : ∀ id ∈ g.aborted, id ∈ g'.aborted

/-- A registry that knows more fits the same rows. -/
theorem RowsOk.extends (h : RowsOk g l) (hg : Extends g g') : RowsOk g' l where
  known := by
    intro b hb
    refine (h.known b hb).imp ?_ ?_
    · rintro ⟨hst, c, hc, hid, hpath⟩
      exact ⟨hst, c, hg.created c hc, hid, hpath⟩
    · rintro ⟨hnew, hst⟩
      refine ⟨fun hmem => ?_, hst⟩
      obtain ⟨c, hc, hid⟩ := List.mem_map.mp hmem
      rcases hg.fresh c hc with hold | hfresh
      · exact hnew (hid ▸ List.mem_map_of_mem hold)
      · exact hfresh (hid ▸ h.ids b hb)
  ids := fun b hb => hg.issuedIDs _ (h.ids b hb)
  storagePaths := fun b hb => hg.issuedPaths _ (h.storagePaths b hb)
  stagingPaths := fun b hb p hp => hg.issuedPaths _ (h.stagingPaths b hb p hp)
  active := fun b hb hst => hg.published _ (h.active b hb hst)
  jobs := fun b hb hst hj => hg.aborted _ (h.jobs b hb hst hj)

theorem extends_issue {blobs : List StorageBlob} (hn : NewBlobs g blobs) :
    Extends g (g.issue blobs) where
  created := fun _ => List.mem_append_right _
  fresh := fun c hc => (List.mem_append.mp hc).symm.imp_right (hn.freshIDs c)
  issuedIDs := fun _ => List.mem_append_right _
  issuedPaths := fun _ hp => List.mem_append_right _ (List.mem_append_right _ hp)
  published := fun _ h => h
  aborted := fun _ h => h

theorem extends_adopt (g : Registry) (blob : StorageBlob) : Extends g (g.adopt blob) where
  created := fun _ h => h
  fresh := fun _ h => Or.inl h
  issuedIDs := fun _ => List.mem_cons_of_mem _
  issuedPaths := fun _ => List.mem_cons_of_mem _
  published := fun _ h => h
  aborted := fun _ h => h

/-- Marking blobs as published or given up only adds. -/
theorem extends_marked (g : Registry) (published aborted : List String) :
    Extends g { g with
      published := published ++ g.published, aborted := aborted ++ g.aborted } where
  created := fun _ h => h
  fresh := fun _ h => Or.inl h
  issuedIDs := fun _ h => h
  issuedPaths := fun _ h => h
  published := fun _ => List.mem_append_right _
  aborted := fun _ => List.mem_append_right _

/-- The staging paths of rows that have one. -/
theorem mem_stagingPaths {blobs : List StorageBlob} {p : String} :
    p ∈ Registry.stagingPaths blobs ↔ ∃ b ∈ blobs, b.stagingPath = some p :=
  List.mem_filterMap

theorem RegistryOk.issue (h : RegistryOk g) {blobs : List StorageBlob} (hn : NewBlobs g blobs) :
    RegistryOk (g.issue blobs) where
  unique := by
    intro c hc d hd hid
    rcases List.mem_append.mp hc with hc | hc <;> rcases List.mem_append.mp hd with hd | hd
    · exact List.inj_on_of_nodup_map hn.ids hc hd hid
    · exact absurd (hid ▸ h.createdIDs d hd) (hn.freshIDs c hc)
    · exact absurd (hid ▸ h.createdIDs c hc) (hn.freshIDs d hd)
    · exact h.unique c hc d hd hid
  createdIDs := by
    intro c hc
    rcases List.mem_append.mp hc with hc | hc
    · exact List.mem_append_left _ (List.mem_map_of_mem hc)
    · exact List.mem_append_right _ (h.createdIDs c hc)
  createdPaths := by
    intro c hc
    rcases List.mem_append.mp hc with hc | hc
    · exact List.mem_append_left _ (List.mem_map_of_mem hc)
    · exact List.mem_append_right _ (List.mem_append_right _ (h.createdPaths c hc))
  stagingPaths := by
    intro c hc p hp
    refine List.mem_append_right _ ?_
    rcases List.mem_append.mp hc with hc | hc
    · exact List.mem_append_left _ (mem_stagingPaths.mpr ⟨c, hc, hp⟩)
    · exact List.mem_append_right _ (h.stagingPaths c hc p hp)
  disjoint := h.disjoint

theorem RegistryOk.adopt (h : RegistryOk g) (blob : StorageBlob) : RegistryOk (g.adopt blob) where
  unique := h.unique
  createdIDs := fun c hc => List.mem_cons_of_mem _ (h.createdIDs c hc)
  createdPaths := fun c hc => List.mem_cons_of_mem _ (h.createdPaths c hc)
  stagingPaths := fun c hc p hp => List.mem_cons_of_mem _ (h.stagingPaths c hc p hp)
  disjoint := h.disjoint

/-- Blobs that were not given up may be published. -/
theorem RegistryOk.publishing (h : RegistryOk g) {ids : List String}
    (hids : ∀ id ∈ ids, id ∉ g.aborted) :
    RegistryOk { g with published := ids ++ g.published } where
  unique := h.unique
  createdIDs := h.createdIDs
  createdPaths := h.createdPaths
  stagingPaths := h.stagingPaths
  disjoint := fun id hid => (List.mem_append.mp hid).elim (hids id) (h.disjoint id)

/-- Blobs that were not published may be given up. -/
theorem RegistryOk.aborting (h : RegistryOk g) {ids : List String}
    (hids : ∀ id ∈ ids, id ∉ g.published) :
    RegistryOk { g with aborted := ids ++ g.aborted } where
  unique := h.unique
  createdIDs := h.createdIDs
  createdPaths := h.createdPaths
  stagingPaths := h.stagingPaths
  disjoint := fun id hid habort =>
    (List.mem_append.mp habort).elim (fun hnew => hids id hnew hid) (h.disjoint id hid)

/-- The registry after an allowed step extends the one before it. -/
theorem registry_step {s : State} (h : RegistryOk s.registry) {op : StorageOp}
    (hop : op.Allowed s) :
    Extends s.registry (op.apply s).registry ∧ RegistryOk (op.apply s).registry := by
  have hsame : Extends s.registry s.registry := extends_marked s.registry [] []
  cases op with
  | ledger op =>
      cases op with
      | createStaging blob lease now => exact ⟨extends_issue hop.1, h.issue hop.1⟩
      | createStagingBatch blobs n lease now => exact ⟨extends_issue hop, h.issue hop⟩
      | registerOrphan blob => exact ⟨extends_adopt _ blob, h.adopt blob⟩
      | _ => exact ⟨hsame, h⟩
  | publish p now =>
      refine ⟨extends_marked _ _ [], h.publishing fun id hid => ?_⟩
      obtain ⟨staged, hs, rfl⟩ := List.mem_map.mp hid
      exact (hop.2 staged hs).kept
  | confirm stagedBlobs now => exact ⟨hsame, h⟩
  | abort ids => exact ⟨extends_marked _ [] ids, h.aborting hop⟩
  | catalog w => exact ⟨hsame, h⟩

/-! ## The rows evolve -/

/-- What an inserted row must have in the registry. -/
structure Registered (g : Registry) (l : Ledger) (n : StorageBlob) : Prop where
  known : Known g n
  id : n.id ∈ g.issuedIDs
  storagePath : n.storagePath ∈ g.issuedPaths
  stagingPath : ∀ p ∈ n.stagingPath, p ∈ g.issuedPaths
  inactive : n.status ≠ .active
  fresh : ∀ b ∈ l.blobs.rows, b.id ≠ n.id

/-- **The rows stay related to the registry**, whatever a call does inside its
    footprint. -/
theorem RowsOk.evolve {fp : Footprint} (h : RowsOk g l) (hjobs : JobsOk l)
    (he : Evolution fp l l') (hnew : ∀ n ∈ fp.new, Registered g l n)
    (hact : ∀ a ∈ fp.activations, a.id ∈ g.published)
    (henq : ∀ id ∈ fp.enqueued, id ∈ g.aborted) : RowsOk g l' where
  -- a row of the end evolved from an old one, by one of three moves, or it was inserted
  known := by
    intro b' hb'
    rcases he.origin b' hb' with ⟨b, hb, hd⟩ | ⟨n, hn, hs⟩
    · rw [Known, hd.id, hd.storagePath]
      refine (h.known b hb).imp ?_ ?_
      · rintro ⟨hst, hc⟩
        refine ⟨?_, hc⟩
        cases hd.move with
        | stays hsame _ _ => rwa [hsame]
        | activated _ _ _ _ hst' _ _ => rw [hst']; decide
        | doomed _ hst' _ _ => rw [hst']; decide
      · rintro ⟨hid, hst⟩
        refine ⟨hid, ?_⟩
        cases hd.move with
        | stays hsame _ _ => rwa [hsame]
        | activated _ _ _ hstaging _ _ _ => exact absurd hstaging hst.1
        | doomed _ hst' _ _ => rw [hst']; decide
    · rw [Known, hs.id, hs.storagePath, hs.status]
      exact (hnew n hn).known
  ids := by
    intro b' hb'
    rcases he.origin b' hb' with ⟨b, hb, hd⟩ | ⟨n, hn, hs⟩
    · exact hd.id ▸ h.ids b hb
    · exact hs.id ▸ (hnew n hn).id
  storagePaths := by
    intro b' hb'
    rcases he.origin b' hb' with ⟨b, hb, hd⟩ | ⟨n, hn, hs⟩
    · exact hd.storagePath ▸ h.storagePaths b hb
    · exact hs.storagePath ▸ (hnew n hn).storagePath
  stagingPaths := by
    intro b' hb' p hp
    rcases he.origin b' hb' with ⟨b, hb, hd⟩ | ⟨n, hn, hs⟩
    · rcases hd.move.stagingPath with hsame | hnone
      · exact h.stagingPaths b hb p (hsame ▸ hp)
      · rw [hnone] at hp
        exact nomatch hp
    · exact (hnew n hn).stagingPath p (hs.stagingPath ▸ hp)
  active := by
    intro b' hb' hst
    rcases he.origin b' hb' with ⟨b, hb, hd⟩ | ⟨n, hn, hs⟩
    · rw [hd.id]
      cases hd.move with
      | stays hsame _ _ => exact h.active b hb (hsame ▸ hst)
      | activated a ha hid _ _ _ _ => exact hid ▸ hact a ha
      | doomed _ hst' _ _ => exact absurd (hst.symm.trans hst') (by decide)
    · exact absurd (hs.status ▸ hst) (hnew n hn).inactive
  -- a staging row with a job: an old job whose row stayed, or one that the call enqueues
  jobs := by
    intro b' hb' hst hj
    rcases he.jobs b' hb' hst hj with hold | hnewjob
    · rcases he.origin b' hb' with ⟨b, hb, hd⟩ | ⟨n, hn, hs⟩
      · rw [hd.id] at hold ⊢
        cases hd.move with
        | stays hsame _ _ => exact h.jobs b hb (hsame ▸ hst) hold
        | activated _ _ _ _ hst' _ _ => exact absurd (hst.symm.trans hst') (by decide)
        | doomed _ hst' _ _ => exact absurd (hst.symm.trans hst') (by decide)
      · obtain ⟨j, hj, hid⟩ := hold
        obtain ⟨b, hb, hbid, -⟩ := hjobs.blob j hj
        exact absurd (hbid.trans (hid.trans hs.id)) ((hnew n hn).fresh b hb)
    · exact henq _ hnewjob

/-! ## New paths -/

/-- New blobs share no path with the old ones. -/
theorem pathsOk_created (h : PathsOk l.blobs.rows) (hr : RowsOk g l) {blobs : List StorageBlob}
    (hn : NewBlobs g blobs) : PathsOk (l.blobs.rows ++ blobs) where
  nonempty := by
    intro b hb
    exact (List.mem_append.mp hb).elim (h.nonempty b) (hn.nonempty b)
  final := by
    intro b hb hs c hc heq
    rcases List.mem_append.mp hb with hb | hb <;> rcases List.mem_append.mp hc with hc | hc
    · exact h.final b hb hs c hc heq
    · exact hn.storagePaths c hc (hr.stagingPaths b hb _ heq)
    · exact hn.stagingPaths b hb _ heq (hr.storagePaths c hc)
    · exact hn.apart b hb c hc heq
  staging := by
    intro b hb hs c hc heq
    have hsome : ∃ p, b.stagingPath = some p := by
      cases hp : b.stagingPath with
      | none => rw [StorageBlob.hasStagingPath, hp] at hs; cases hs
      | some p => exact ⟨p, rfl⟩
    obtain ⟨p, hp⟩ := hsome
    rcases List.mem_append.mp hb with hb | hb <;> rcases List.mem_append.mp hc with hc | hc
    · exact h.staging b hb hs c hc heq
    · exact absurd (hr.stagingPaths b hb p hp) (hn.stagingPaths c hc p (heq.trans hp))
    · exact absurd (hr.stagingPaths c hc p (heq.trans hp)) (hn.stagingPaths b hb p hp)
    · exact hn.distinct b hb c hc heq

/-- An orphan shares no path with the rows. -/
theorem pathsOk_adopted (h : PathsOk l.blobs.rows) {blob : StorageBlob} (hn : NewOrphan g l blob) :
    PathsOk (l.blobs.rows ++ [blob]) where
  nonempty := by
    intro b hb
    rcases List.mem_append.mp hb with hb | hb
    · exact h.nonempty b hb
    · rw [List.mem_singleton.mp hb]
      exact hn.nonempty
  final := by
    intro b hb hs c hc
    rcases List.mem_append.mp hb with hb | hb
    · rcases List.mem_append.mp hc with hc | hc
      · exact h.final b hb hs c hc
      · rw [List.mem_singleton.mp hc]
        exact (hn.unowned b hb).2
    · rw [List.mem_singleton.mp hb, StorageBlob.hasStagingPath, hn.stagingPath] at hs
      cases hs
  staging := by
    intro b hb hs c hc heq
    rcases List.mem_append.mp hb with hb | hb
    · rcases List.mem_append.mp hc with hc | hc
      · exact h.staging b hb hs c hc heq
      · rw [List.mem_singleton.mp hc, hn.stagingPath] at heq
        rw [StorageBlob.hasStagingPath, ← heq] at hs
        cases hs
    · rw [List.mem_singleton.mp hb, StorageBlob.hasStagingPath, hn.stagingPath] at hs
      cases hs

/-- New blobs are registered as what they are. -/
theorem registered_created (hr : RowsOk g l) {blobs : List StorageBlob} (hn : NewBlobs g blobs) :
    ∀ n ∈ blobs, Registered (g.issue blobs) l n := by
  intro n hmem
  have hstaging := hn.staging n hmem
  refine ⟨Or.inl ⟨?_, n, List.mem_append_left _ hmem, rfl, rfl⟩, ?_, ?_, ?_, ?_, ?_⟩
  · rw [hstaging.status]
    decide
  · exact List.mem_append_left _ (List.mem_map_of_mem hmem)
  · exact List.mem_append_left _ (List.mem_map_of_mem hmem)
  · intro p hp
    exact List.mem_append_right _ (List.mem_append_left _ (mem_stagingPaths.mpr ⟨n, hmem, hp⟩))
  · rw [hstaging.status]
    decide
  · intro b hb hid
    exact hn.freshIDs n hmem (hid ▸ hr.ids b hb)

theorem registered_adopted (hr : RowsOk g l) (hg : RegistryOk g) {blob : StorageBlob}
    (hn : NewOrphan g l blob) : Registered (g.adopt blob) l blob where
  known := by
    refine Or.inr ⟨fun hmem => ?_, by rw [hn.status]; decide, by rw [hn.status]; decide⟩
    obtain ⟨c, hc, hid⟩ := List.mem_map.mp hmem
    exact hn.freshID (hid ▸ hg.createdIDs c hc)
  id := List.mem_cons_self
  storagePath := List.mem_cons_self
  stagingPath := by
    intro p hp
    rw [hn.stagingPath] at hp
    exact nomatch hp
  inactive := by rw [hn.status]; decide
  fresh := fun b hb hid => hn.freshID (hid ▸ hr.ids b hb)

/-! ## Ledger calls -/

/-- A row that an uploader made up has the path it was made up with. -/
theorem path_of_created (hr : RowsOk g l) (hg : RegistryOk g) {c b : StorageBlob}
    (hc : c ∈ g.created) (hb : b ∈ l.blobs.rows) (hid : b.id = c.id) :
    b.status ≠ .orphaned ∧ b.storagePath = c.storagePath := by
  rcases hr.known b hb with ⟨hst, d, hd, hdid, hpath⟩ | ⟨hnew, -⟩
  · rw [← hg.unique d hd c hc (hdid.trans hid)]
    exact ⟨hst, hpath.symm⟩
  · exact absurd (hid ▸ List.mem_map_of_mem hc) hnew

/-- Every allowed call keeps the ledger invariant. -/
theorem ledgerOk_run {s : State} (h : StorageOk s) {op : LedgerOp} (hop : AllowedLedgerOp s op)
    (hrun : op.run s.db.ledger = .ok l') : LedgerOk l' (references s.db.catalog) := by
  obtain ⟨hl, hr, hg⟩ := h
  cases op with
  | createStaging blob lease now =>
      have hs : Staged s.db.ledger [blob] ([blob].map (·.size)).sum (now + lease) l' := by
        rw [List.map_singleton, List.sum_singleton, hop.2]
        exact createStagingWithLease_ok hrun
      exact hl.staged hs hop.1.staging (pathsOk_created hl.paths hr hop.1)
  | createStagingBatch blobs n lease now =>
      exact hl.staged (createStagingBatchWithLease_ok hrun) hop.staging
        (pathsOk_created hl.paths hr hop)
  | renewStagingLease ids lease n now =>
      cases hrun
      obtain ⟨_, hrw, -⟩ := renewStagingLease_rewrites s.db.ledger ids lease n now
      exact hl.renewed hrw
  | reserve blobID bytes =>
      rcases reserve_ok hrun with rfl | ⟨-, ⟨b, hb, hid, hst, -⟩, -, hrange, hrw⟩
      · exact hl
      · exact hl.grown hb hid hst hrange hrw
  -- called by `Publish` alone, with the metadata of the same transaction
  | activate as n => exact hop.elim
  | releaseReferences paths now n => exact hop.elim
  | releaseStaging blobID =>
      obtain ⟨p, -, hs⟩ := releaseStaging_ok hrun
      exact hl.stagingReleased hs
  | releaseStagingBatch ids n =>
      obtain ⟨p, -, hs⟩ := releaseStagingBatch_ok hrun
      exact hl.stagingReleased hs
  | expireStaging before limit now =>
      obtain ⟨p, jobs, -, hs⟩ := expire_ok hrun
      exact hl.sealed hs
  | sealStaging ids n => exact hop.elim
  | enqueueCleanup requests now n =>
      refine hl.enqueued (enqueue_ok hrun) fun j hj b hb hid => ?_
      obtain ⟨r, hrm, rfl⟩ := List.mem_map.mp hj
      -- what is enqueued was given up, so its row is not active
      obtain ⟨haborted, c, hc, hcid, hcpath⟩ := hop r hrm
      obtain ⟨hst, hpath⟩ := path_of_created hr hg hc hb (hid.trans hcid.symm)
      refine ⟨?_, hpath.trans hcpath⟩
      cases hstatus : b.status with
      | staging => exact Or.inl rfl
      | active =>
          have hpub := hr.active b hb hstatus
          rw [hid] at hpub
          exact absurd haborted (hg.disjoint _ hpub)
      | pendingDelete => exact Or.inr rfl
      | orphaned => exact absurd hstatus hst
  | registerOrphan blob =>
      refine hl.orphanRegistered hop.status ?_ hop.lease hop.refCount ?_
        (pathsOk_adopted hl.paths hop) hrun
      · rw [StorageBlob.hasStagingPath, hop.stagingPath]
      · intro b hb hid
        exact hop.freshID (hid ▸ hr.ids b hb)
  | scheduleOrphanCleanup id now => exact hl.scheduled hrun
  | claim id owner now leaseUntil =>
      cases hrun
      exact hl.touched (claimCleanupJob_touches _ id owner now leaseUntil)
  | renewCleanupLease id owner leaseUntil =>
      cases hrun
      exact hl.touched (renewCleanupJobLease_touches _ id owner leaseUntil)
  | fail id owner message nextRetryAt => exact hl.touched (failCleanupJob_ok hrun)
  | complete id owner =>
      obtain ⟨blob, hc⟩ := completeCleanupJob_ok hrun
      exact hl.completed hc
  | updateMaxBytes maxBytes => exact hl.maxBytes hrun

/-- What the footprint of an allowed call has in the registry after it. -/
theorem footprint_registered {s : State} (h : StorageOk s) {op : LedgerOp}
    (hop : AllowedLedgerOp s op) :
    (∀ n ∈ (LedgerOp.footprint s.db.ledger op).new,
        Registered (s.registry.note op) s.db.ledger n)
      ∧ (LedgerOp.footprint s.db.ledger op).activations = []
      ∧ ∀ id ∈ (LedgerOp.footprint s.db.ledger op).enqueued, id ∈ s.registry.aborted := by
  cases op with
  | createStaging blob lease now => exact ⟨registered_created h.rows hop.1, rfl, nofun⟩
  | createStagingBatch blobs n lease now => exact ⟨registered_created h.rows hop, rfl, nofun⟩
  | registerOrphan blob =>
      refine ⟨fun n hn => ?_, rfl, nofun⟩
      rw [List.mem_singleton.mp hn]
      exact registered_adopted h.rows h.registry hop
  | enqueueCleanup requests now n =>
      refine ⟨nofun, rfl, fun id hid => ?_⟩
      obtain ⟨r, hr, rfl⟩ := List.mem_map.mp hid
      exact (hop r hr).1
  | activate as n => exact hop.elim
  | _ => exact ⟨nofun, rfl, nofun⟩

/-- A call of the repositories keeps the invariant. -/
theorem storageOk_ledger {s : State} (h : StorageOk s) {op : LedgerOp}
    (hop : AllowedLedgerOp s op) : StorageOk (StorageOp.apply s (.ledger op)) := by
  obtain ⟨hext, hreg⟩ := registry_step h.registry (show StorageOp.Allowed s (.ledger op) from hop)
  obtain ⟨hnew, hact, henq⟩ := footprint_registered h hop
  have hrows := h.rows.extends hext
  rcases apply_cases s.db.ledger op with hrun | hsame
  · have hledger := ledgerOk_run h hop hrun
    refine ⟨hledger, ?_, hreg⟩
    refine hrows.evolve h.ledger.jobs (run_evolves hrun) hnew ?_ fun id hid => ?_
    · rw [hact]
      exact nofun
    · exact hext.aborted id (henq id hid)
  · rw [StorageOp.apply, hsame]
    exact ⟨h.ledger, hrows, hreg⟩

/-! ## Publications and confirmations -/

/-- Handles that may be published fit their rows. -/
theorem handlesOk {s : State} (h : StorageOk s) {stagedBlobs : List StagedBlob}
    (hp : ∀ staged ∈ stagedBlobs, Publishable s.registry staged) :
    HandlesOk s.db.ledger stagedBlobs where
  path := by
    intro staged hs b hb hid
    obtain ⟨c, hc, hcid, hcpath⟩ := (hp staged hs).created
    exact (path_of_created h.rows h.registry hc hb (hid.trans hcid.symm)).2.trans hcpath
  size := fun staged hs => (hp staged hs).size
  nojob := by
    intro staged hs b hb hid hst hj
    exact (hp staged hs).kept (hid ▸ h.rows.jobs b hb hst hj)

theorem storageOk_publish {s : State} (h : StorageOk s) {p : Publication} {now : Time}
    (haccepted : p.Accepted) (hp : ∀ staged ∈ p.stagedBlobs, Publishable s.registry staged) :
    StorageOk (StorageOp.apply s (.publish p now)) := by
  obtain ⟨hext, hreg⟩ := registry_step h.registry
    (show StorageOp.Allowed s (.publish p now) from ⟨haccepted, hp⟩)
  have hrows := h.rows.extends hext
  rw [StorageOp.apply]
  cases hpub : publishTransaction s.db p.stagedBlobs (p.publishMetadata now) now with
  | error err => exact ⟨h.ledger, hrows, hreg⟩
  | ok db' =>
      obtain ⟨found, m, releasedPaths, hpd⟩ := publishTransaction_ok hpub
      have hdisc := p.disciplined haccepted now
      have hnojob : ∀ b ∈ found, ¬ HasJob s.db.ledger b.id := by
        intro b hb
        obtain ⟨hmem, hst⟩ := hpd.activation.staging b hb
        have hid : b.id ∈ (activationsOf p.stagedBlobs).map (·.id) :=
          hpd.activation.ids ▸ List.mem_map_of_mem hb
        rw [activationsOf, List.map_map] at hid
        obtain ⟨staged, hs, hsid⟩ := List.mem_map.mp hid
        exact (handlesOk h hp).nojob staged hs b hmem hsid.symm hst
      have hmid := h.ledger.activated hpd.activation hnojob
      refine ⟨ledgerOk_published h.ledger (handlesOk h hp) hdisc hpd, ?_, hreg⟩
      obtain ⟨he1, he2⟩ := evolution_published hpd
      refine (hrows.evolve h.ledger.jobs he1 (List.forall_mem_nil _) (fun a ha => ?_)
        (List.forall_mem_nil _)).evolve hmid.jobs he2 (List.forall_mem_nil _)
          (List.forall_mem_nil _)
        (List.forall_mem_nil _)
      obtain ⟨staged, hs, rfl⟩ := List.mem_map.mp ha
      exact List.mem_append_left _ (List.mem_map.mpr ⟨staged, hs, rfl⟩)

/-- `confirmPublishOutcome` keeps it: it seals only what is still staged. -/
theorem storageOk_confirm {s : State} (h : StorageOk s) (stagedBlobs : List StagedBlob)
    (now : Time) : StorageOk (StorageOp.apply s (.confirm stagedBlobs now)) := by
  rw [StorageOp.apply]
  cases hc : confirmPublishOutcome s.db.ledger stagedBlobs now with
  | error err => exact h
  | ok r =>
      obtain ⟨outcome, l'⟩ := r
      show StorageOk { s with db := { s.db with ledger := l' } }
      rcases confirmPublishOutcome_ok hc with ⟨-, rfl, -⟩ | ⟨-, -, hsealed⟩
      · exact h
      · refine ⟨h.ledger.sealed hsealed, ?_, h.registry⟩
        exact h.rows.evolve h.ledger.jobs (evolution_sealed hsealed) (List.forall_mem_nil _)
          (List.forall_mem_nil _) (List.forall_mem_nil _)

/-- Giving up changes the registry alone. -/
theorem storageOk_abort {s : State} (h : StorageOk s) {ids : List String}
    (hids : ∀ id ∈ ids, id ∉ s.registry.published) :
    StorageOk (StorageOp.apply s (.abort ids)) :=
  ⟨h.ledger, h.rows.extends (extends_marked s.registry [] ids), h.registry.aborting hids⟩

/-- A transaction on the catalog alone keeps it. -/
theorem storageOk_catalog {s : State} (h : StorageOk s) (w : CatalogWrite) :
    StorageOk (StorageOp.apply s (.catalog w)) := by
  rw [StorageOp.apply]
  cases hw : w.run s.db.catalog with
  | error err => exact h
  | ok c' =>
      refine ⟨?_, h.rows, h.registry⟩
      show LedgerOk s.db.ledger (references c')
      rw [references_catalogWrite hw]
      exact h.ledger

/-! ## Every run -/

theorem storageOk_initial : StorageOk State.initial where
  ledger := ledgerOk_migrated
  rows := by constructor <;> exact nofun
  registry := by constructor <;> exact nofun

/-- **The step lemma.** -/
theorem storageOk_step {s : State} (h : StorageOk s) {op : StorageOp} (hop : op.Allowed s) :
    StorageOk (op.apply s) := by
  cases op with
  | ledger op => exact storageOk_ledger h hop
  | publish p now => exact storageOk_publish h hop.1 hop.2
  | confirm stagedBlobs now => exact storageOk_confirm h stagedBlobs now
  | abort ids => exact storageOk_abort h hop
  | catalog w => exact storageOk_catalog h w

/-- **The invariant** of the storage system. -/
theorem storageOk_of_reachable {s : State} (h : Reachable storageSystem s) : StorageOk s := by
  refine h.invariant ?_ ?_
  · rintro s rfl
    exact storageOk_initial
  · rintro s op s' - hs ⟨hop, rfl⟩
    exact storageOk_step hs hop

/-- **Ledger exactness.**  In every reachable state the ledger agrees with the metadata,
    and `ValidateAndMarkReconciled` finds nothing to report. -/
theorem ledger_exactness {s : State} (h : Reachable storageSystem s) (reconciledAt : Time) :
    LedgerOk s.db.ledger (references s.db.catalog)
      ∧ validateAndMarkReconciled s.db reconciledAt = .ok (s.db.reconciled reconciledAt) :=
  ⟨(storageOk_of_reachable h).ledger,
    validateAndMarkReconciled_ok (storageOk_of_reachable h).ledger reconciledAt⟩

/-! A bucket, one staged file of five bytes, and its upload. -/

/-- A staged file of five bytes, the row first without its size. -/
def uploadedBlob : StorageBlob where
  id := "blob-1"
  storagePath := "objects/1.bin"
  stagingPath := some "staging/1.tmp"
  status := .staging

/-- The handle of the file. -/
def uploadedFile : StagedBlob where
  id := "blob-1"
  storagePath := "objects/1.bin"
  stagingPath := "staging/1.tmp"
  size := 5

/-- The object it becomes. -/
def uploadedObject : Object where
  bucketName := "docs"
  objectKey := "a.txt"
  storagePath := "objects/1.bin"
  size := 5

/-- A bucket. -/
def bucketCreated : State :=
  StorageOp.apply State.initial (.catalog (.createBucket { name := "docs" }))

/-- The row of the file. -/
def stagingCreated : State :=
  StorageOp.apply bucketCreated (.ledger (.createStaging uploadedBlob 60 0))

/-- The file is staged and paid for, but not published yet. -/
def stagedState : State := StorageOp.apply stagingCreated (.ledger (.reserve "blob-1" 5))

theorem uploadedBlob_new : NewBlobs bucketCreated.registry [uploadedBlob] := by
  constructor <;> simp [bucketCreated, uploadedBlob, StorageOp.apply, State.initial]
  exact ⟨rfl, rfl, rfl⟩

theorem stagedState_reachable : Reachable storageSystem stagedState := by
  have h0 : Reachable storageSystem State.initial := .start rfl
  have h1 : Reachable storageSystem bucketCreated := reachable_apply h0 trivial
  have h2 : Reachable storageSystem stagingCreated := reachable_apply h1 ⟨uploadedBlob_new, rfl⟩
  exact reachable_apply h2 trivial

/-- The upload is published. -/
def uploadPublication : StorageOp := .publish (.upload uploadedObject true uploadedFile) 1

theorem uploadPublication_allowed : uploadPublication.Allowed stagedState := by
  refine ⟨⟨rfl, by decide, by decide⟩, fun staged hs => ?_⟩
  rw [List.mem_singleton.mp hs]
  exact ⟨⟨uploadedBlob, List.mem_cons_self, rfl, rfl⟩, by decide, nofun⟩

/-- After the upload five bytes are used, and the audit passes. -/
theorem ledger_exactness_upload :
    (uploadPublication.apply stagedState).db.ledger.quota.usedBytes = 5
      ∧ validateAndMarkReconciled (uploadPublication.apply stagedState).db 9
        = .ok ((uploadPublication.apply stagedState).db.reconciled 9) :=
  ⟨by decide, (ledger_exactness
    (reachable_apply stagedState_reachable uploadPublication_allowed) 9).2⟩

end LedgerExactness
