import LightOss.ManagedFiles
import LightOss.CleanupLease

/-! # Deletion safety — live content keeps its file

    A file is removed outside the transaction that decided it, by workers whose lease
    may have run out and by uploaders that gave up.  What makes this safe is one-way:
    a blob that was given up or sealed is doomed, no later step makes it active
    (`doomed_apply`), and only paths at which every blob is doomed are ever removed.

    For the final path of a row that is `Dormant`, for its staging path `Discarded`; both
    follow from the row (`discarded_final`) and no step undoes them.  An active row, in
    turn, was active before or was just published (`active_origin`), and then its file
    was committed with its size (`FilesOk`).  The two halves meet in one invariant of
    the world. -/

namespace DeletionSafety

open KeyedTable Fallible LedgerRows BlobRepository LedgerSpecs LedgerMoves LedgerOps
open LedgerEvolution LedgerInvariant Catalog MetadataServices MetadataReferences
open StorageAudit PublishLifecycle StepSystem StorageSystem LedgerExactness StreamingStage
open ManagedFiles
open CleanupLease (new_fresh)

/-! ## Doomed blobs -/

/-- The blob is not active and never will be. -/
def Doomed (s : State) (id : String) : Prop :=
  id ∈ s.registry.issuedIDs ∧ (id ∈ s.registry.aborted
    ∨ ∀ b ∈ s.db.ledger.blobs.rows, b.id = id → b.status = .pendingDelete ∨ b.status = .orphaned)

section Doomed

variable {s : State} {op : StorageOp} {id : String} {b : StorageBlob}

/-- No call brings a sealed blob back. -/
theorem sealed_evolves {fp : Footprint} {l l' : Ledger} (he : Evolution fp l l')
    (hnew : ∀ n ∈ fp.new, n.id ≠ id)
    (h : ∀ b ∈ l.blobs.rows, b.id = id → b.status = .pendingDelete ∨ b.status = .orphaned) :
    ∀ b ∈ l'.blobs.rows, b.id = id → b.status = .pendingDelete ∨ b.status = .orphaned := by
  intro b' hb' hid
  rcases he.origin b' hb' with ⟨b, hb, hd⟩ | ⟨n, hn, hs⟩
  · have hold := h b hb (hd.id.symm.trans hid)
    cases hd.move with
    | stays hsame _ _ => rwa [hsame]
    | activated _ _ _ hstaging _ _ _ => simp [hstaging] at hold
    | doomed _ hst' _ _ => exact Or.inl hst'
  · exact absurd (hs.id.symm.trans hid) (hnew n hn)

/-- **Doom is one-way.** -/
theorem doomed_apply (hreg : RegistryOk s.registry) (hop : op.Allowed s) (h : Doomed s id) :
    Doomed (op.apply s) id := by
  have hext := (registry_step hreg hop).1
  refine ⟨hext.issuedIDs _ h.1, h.2.imp (hext.aborted id) fun hrows => ?_⟩
  obtain ⟨m, h1, h2⟩ := apply_evolves s op
  refine sealed_evolves h2 (List.forall_mem_nil _) ?_
  refine sealed_evolves h1 (fun n hn hid => ?_) hrows
  exact new_fresh hop n hn (hid ▸ h.1)

theorem doomed_inactive (h : StorageOk s) (hdoomed : Doomed s id) (hb : b ∈ s.db.ledger.blobs.rows)
    (hid : b.id = id) : b.status ≠ .active := by
  intro hst
  rcases hdoomed.2 with habort | hrows
  · exact h.registry.disjoint id (hid ▸ h.rows.active b hb hst) habort
  · have := hrows b hb hid
    simp [hst] at this

theorem doomed_of_aborted (h : RegistryPaths s.registry) (habort : id ∈ s.registry.aborted) :
    Doomed s id := ⟨h.aborted id habort, Or.inl habort⟩

theorem doomed_of_sealed (h : StorageOk s) (hb : b ∈ s.db.ledger.blobs.rows)
    (hst : b.status = .pendingDelete ∨ b.status = .orphaned) : Doomed s b.id := by
  refine ⟨h.rows.ids b hb, Or.inr fun c hc hid => ?_⟩
  rwa [s.db.ledger.blobs.eq_of_clash hc hb (StorageBlob.clash_of_id hid)]

/-- A blob whose row is gone stays away. -/
theorem doomed_of_absent (hid : id ∈ s.registry.issuedIDs)
    (h : ∀ b ∈ s.db.ledger.blobs.rows, b.id ≠ id) : Doomed s id :=
  ⟨hid, Or.inr fun b hb heq => absurd heq (h b hb)⟩

/-- A cleanup job is for a doomed blob. -/
theorem doomed_of_job (h : StorageOk s) (hp : RegistryPaths s.registry)
    (hb : b ∈ s.db.ledger.blobs.rows) (hjob : HasJob s.db.ledger b.id) : Doomed s b.id := by
  cases hst : b.status with
  | staging => exact doomed_of_aborted hp (h.rows.jobs b hb hst hjob)
  | active => exact absurd hjob ((rowOk_active hst).mp (h.ledger.rows b hb)).2.2.2.2.1
  | pendingDelete => exact doomed_of_sealed h hb (Or.inl hst)
  | orphaned => exact doomed_of_sealed h hb (Or.inr hst)

end Doomed

/-! ## Dormant paths -/

/-- No blob is active at the path, now or later. -/
def Dormant (s : State) (path : String) : Prop :=
  path ∈ s.registry.issuedPaths ∧ ∀ c ∈ s.registry.created, c.storagePath = path → Doomed s c.id

/-- No blob is active at the path, and no uploader's file is there that may still be
    published. -/
def Discarded (s : State) (path : String) : Prop :=
  Dormant s path ∧ ∀ c ∈ s.registry.created, c.stagingPath = some path →
    c.id ∈ s.registry.published ∨ Doomed s c.id

section Paths

variable {s : State} {op : StorageOp} {path : String} {b : StorageBlob}

/-- What is made up later has paths of its own. -/
theorem created_fresh (hop : op.Allowed s) {c : StorageBlob}
    (hc : c ∈ (op.apply s).registry.created) : c ∈ s.registry.created
      ∨ (c.storagePath ∉ s.registry.issuedPaths ∧ ∀ p ∈ c.stagingPath,
          p ∉ s.registry.issuedPaths) := by
  cases op with
  | ledger op =>
      cases op with
      | createStaging blob lease now =>
          refine (List.mem_append.mp hc).symm.imp_right fun hnew => ?_
          exact ⟨hop.1.storagePaths c hnew, hop.1.stagingPaths c hnew⟩
      | createStagingBatch blobs n lease now =>
          refine (List.mem_append.mp hc).symm.imp_right fun hnew => ?_
          exact ⟨hop.storagePaths c hnew, hop.stagingPaths c hnew⟩
      | _ => exact Or.inl hc
  | _ => exact Or.inl hc

/-- A path without live blobs stays one: new blobs have other paths. -/
theorem dormant_apply (hreg : RegistryOk s.registry) (hop : op.Allowed s) (h : Dormant s path) :
    Dormant (op.apply s) path := by
  refine ⟨(registry_step hreg hop).1.issuedPaths _ h.1, fun c hc hpath => ?_⟩
  rcases created_fresh hop hc with hold | ⟨hfresh, -⟩
  · exact doomed_apply hreg hop (h.2 c hold hpath)
  · exact absurd h.1 (hpath ▸ hfresh)

theorem discarded_apply (hreg : RegistryOk s.registry) (hop : op.Allowed s)
    (h : Discarded s path) : Discarded (op.apply s) path := by
  refine ⟨dormant_apply hreg hop h.1, fun c hc hpath => ?_⟩
  rcases created_fresh hop hc with hold | ⟨-, hfresh⟩
  · exact (h.2 c hold hpath).imp ((registry_step hreg hop).1.published c.id) (doomed_apply hreg hop)
  · exact absurd h.1.1 (hfresh path hpath)

/-- An active row is one an uploader made up. -/
theorem created_of_active (h : StorageOk s) (hb : b ∈ s.db.ledger.blobs.rows)
    (hst : b.status = .active) :
    ∃ c ∈ s.registry.created, c.id = b.id ∧ c.storagePath = b.storagePath := by
  rcases h.rows.known b hb with ⟨-, hcreated⟩ | ⟨-, -, hactive⟩
  · exact hcreated
  · exact absurd hst hactive

theorem dormant_inactive (h : StorageOk s) (hdormant : Dormant s path)
    (hb : b ∈ s.db.ledger.blobs.rows) (hst : b.status = .active) : b.storagePath ≠ path := by
  intro hpath
  obtain ⟨c, hc, hid, hcpath⟩ := created_of_active h hb hst
  exact doomed_inactive h (hdormant.2 c hc (hcpath.trans hpath)) hb hid.symm hst

/-- A staging path never becomes a final one. -/
theorem dormant_staging (h : StorageOk s) (hp : RegistryPaths s.registry) {c : StorageBlob}
    (hc : c ∈ s.registry.created) (hpath : c.stagingPath = some path) : Dormant s path := by
  refine ⟨h.registry.stagingPaths c hc path hpath, fun d hd heq => ?_⟩
  exact absurd (hpath.trans (congrArg some heq.symm)) (hp.apart c hc d hd)

/-- The final path of a doomed blob is dormant: nobody else has it. -/
theorem dormant_final (h : StorageOk s) (hp : RegistryPaths s.registry) {c : StorageBlob}
    (hc : c ∈ s.registry.created) (hdoomed : Doomed s c.id) : Dormant s c.storagePath := by
  refine ⟨h.registry.createdPaths c hc, fun d hd heq => ?_⟩
  rwa [hp.final d hd c hc heq]

end Paths

/-! ## Staging paths of rows -/

/-- Only rows of uploaders have a staging path, the one they were made up with. -/
def StagingRows (s : State) : Prop :=
  ∀ b ∈ s.db.ledger.blobs.rows, ∀ p ∈ b.stagingPath,
    ∃ c ∈ s.registry.created, c.id = b.id ∧ c.stagingPath = some p

section StagingRows

variable {s : State} {op : StorageOp} {b : StorageBlob}

/-- Rows come from the registry, or have no staging path. -/
theorem new_created (hop : op.Allowed s) : ∀ n ∈ (StorageOp.footprint s op).new,
    n ∈ (op.apply s).registry.created ∨ n.stagingPath = none := by
  intro n hn
  cases op with
  | ledger op =>
      cases op with
      | createStaging blob lease now => exact Or.inl (List.mem_append_left _ hn)
      | createStagingBatch blobs k lease now => exact Or.inl (List.mem_append_left _ hn)
      | registerOrphan blob =>
          rw [List.mem_singleton.mp hn]
          exact Or.inr hop.stagingPath
      | _ => exact absurd hn List.not_mem_nil
  | _ => exact absurd hn List.not_mem_nil

/-- A row with a staging path was created with it. -/
theorem stagingRows_apply (hreg : RegistryOk s.registry) (hop : op.Allowed s)
    (h : StagingRows s) : StagingRows (op.apply s) := by
  have hext := (registry_step hreg hop).1
  obtain ⟨m, h1, h2⟩ := apply_evolves s op
  intro b' hb' p hp
  rcases h2.origin b' hb' with ⟨c, hc, hd⟩ | ⟨n, hn, -⟩
  · have hcp : c.stagingPath = some p := by
      rcases hd.move.stagingPath with hsame | hnone
      · exact hsame ▸ hp
      · rw [hnone] at hp
        cases hp
    rw [hd.id]
    rcases h1.origin c hc with ⟨b, hb, he⟩ | ⟨n, hn, hs⟩
    · have hbp : b.stagingPath = some p := by
        rcases he.move.stagingPath with hsame | hnone
        · exact hsame ▸ hcp
        · rw [hnone] at hcp
          cases hcp
      obtain ⟨d, hd, hid, hdp⟩ := h b hb p hbp
      exact ⟨d, hext.created d hd, hid.trans he.id.symm, hdp⟩
    · have hnp : n.stagingPath = some p := hs.stagingPath ▸ hcp
      rcases new_created hop n hn with hcreated | hnone
      · exact ⟨n, hcreated, hs.id.symm, hnp⟩
      · rw [hnone] at hnp
        cases hnp
  · exact absurd hn List.not_mem_nil

/-- Both paths of a row whose blob is doomed may go. -/
theorem discarded_final (h : StorageOk s) (hp : RegistryPaths s.registry) (hstaging : StagingRows s)
    (hb : b ∈ s.db.ledger.blobs.rows) (hdoomed : Doomed s b.id) : Discarded s b.storagePath := by
  refine ⟨⟨h.rows.storagePaths b hb, fun c hc hpath => ?_⟩, fun c hc hpath => ?_⟩
  · rcases h.rows.known b hb with ⟨-, d, hd, hid, hdpath⟩ | ⟨hforeign, -⟩
    · rw [hp.final c hc d hd (hpath.trans hdpath.symm), hid]
      exact hdoomed
    · -- an adopted file: the row of the blob that once had this path is gone
      refine doomed_of_absent (h.registry.createdIDs c hc) fun e he heq => ?_
      have hepath := (path_of_created h.rows h.registry hc he heq).2
      have hsame := s.db.ledger.blobs.eq_of_clash he hb
        (StorageBlob.clash_of_path (hepath.trans hpath))
      exact hforeign (hsame ▸ heq ▸ List.mem_map_of_mem hc)
  -- an uploader's file at this path: by the state of its row, if it still has one
  · by_cases hrow : ∃ e ∈ s.db.ledger.blobs.rows, e.id = c.id
    · obtain ⟨e, he, heid⟩ := hrow
      cases hst : e.status with
      | staging =>
          have hhas := ((rowOk_staging hst).mp (h.ledger.rows e he)).1
          cases hep : e.stagingPath with
          | none =>
              rw [StorageBlob.hasStagingPath, hep] at hhas
              cases hhas
          | some q =>
              obtain ⟨d, hd, hdid, hdp⟩ := hstaging e he q hep
              rw [h.registry.unique d hd c hc (hdid.trans heid), hpath] at hdp
              exact absurd (hep.trans hdp.symm) (h.ledger.paths.final e he hhas b hb)
      | active => exact Or.inl (heid ▸ h.rows.active e he hst)
      | pendingDelete => exact Or.inr (heid ▸ doomed_of_sealed h he (Or.inl hst))
      | orphaned => exact Or.inr (heid ▸ doomed_of_sealed h he (Or.inr hst))
    · refine Or.inr (doomed_of_absent (h.registry.createdIDs c hc) fun e he heq => ?_)
      exact hrow ⟨e, he, heq⟩

/-- The staging path of a doomed blob is discarded. -/
theorem discarded_staging (h : StorageOk s) (hp : RegistryPaths s.registry)
    (hstaging : StagingRows s) (hb : b ∈ s.db.ledger.blobs.rows) (hdoomed : Doomed s b.id)
    {path : String} (hpath : b.stagingPath = some path) : Discarded s path := by
  obtain ⟨c, hc, hid, hcpath⟩ := hstaging b hb path hpath
  refine ⟨dormant_staging h hp hc hcpath, fun d hd hdpath => ?_⟩
  rw [hp.staging d hd c hc path hdpath hcpath, hid]
  exact Or.inr hdoomed

end StagingRows

/-! ## Where an active row comes from -/

/-- An active row was active before with the same size, or a publication activated it now. -/
inductive ActiveOrigin (s : State) (op : StorageOp) (b' : StorageBlob) : Prop where
  | kept (b : StorageBlob) : b ∈ s.db.ledger.blobs.rows → b.status = .active → b'.id = b.id →
      b'.storagePath = b.storagePath → b'.size = b.size → ActiveOrigin s op b'
  | activated (p : Publication) (now : Time) (staged : StagedBlob) (b : StorageBlob) :
      op = .publish p now → staged ∈ p.stagedBlobs → staged.id = b.id →
      b ∈ s.db.ledger.blobs.rows → b.status = .staging → b'.id = b.id →
      b'.storagePath = b.storagePath → b'.size = staged.size → ActiveOrigin s op b'

section Origin

variable {s : State} {op : StorageOp} {b b' : StorageBlob}

/-- Two rows with one set of references have one size: both say what the metadata says. -/
theorem size_of_references {l l' : Ledger} {R : Multiset Reference} (h : LedgerOk l R)
    (h' : LedgerOk l' R) (hb : b ∈ l.blobs.rows) (hst : b.status = .active)
    (hb' : b' ∈ l'.blobs.rows) (hst' : b'.status = .active)
    (hpath : b'.storagePath = b.storagePath) : b'.size = b.size := by
  obtain ⟨-, -, hpos, hcount, -, hsize⟩ := (rowOk_active hst).mp (h.rows b hb)
  obtain ⟨-, -, -, -, -, hsize'⟩ := (rowOk_active hst').mp (h'.rows b' hb')
  obtain ⟨r, hr, hrpath⟩ := refCount_pos.mp (hcount ▸ hpos)
  have heq := (hsize' r hr (hrpath.trans hpath.symm)).symm.trans (hsize r hr hrpath)
  exact Int.ofNat_inj.mp heq

/-- Outside publications no row becomes active. -/
theorem active_kept {fp : Footprint} {l l' : Ledger} (he : Evolution fp l l')
    (hact : fp.activations = []) (hnew : ∀ n ∈ fp.new, n.status ≠ .active)
    (hb' : b' ∈ l'.blobs.rows) (hst' : b'.status = .active) :
    ∃ b ∈ l.blobs.rows, b.status = .active ∧ b'.id = b.id ∧ b'.storagePath = b.storagePath := by
  rcases he.origin b' hb' with ⟨b, hb, hd⟩ | ⟨n, hn, hs⟩
  · refine ⟨b, hb, ?_, hd.id, hd.storagePath⟩
    cases hd.move with
    | stays hsame _ _ => rw [← hsame, hst']
    | activated a ha _ _ _ _ _ =>
        rw [hact] at ha
        exact absurd ha List.not_mem_nil
    | doomed _ hst _ _ => simp [hst] at hst'
  · exact absurd (hs.status.symm.trans hst') (hnew n hn)

/-- What a publication leaves active. -/
theorem active_published {db db' : Database Collation.binary} {stagedBlobs : List StagedBlob}
    {f : Callback Collation.binary} {found : List StorageBlob} {m : Ledger}
    {releasedPaths : List String} (hp : Published db stagedBlobs f found m releasedPaths db')
    (hb' : b' ∈ db'.ledger.blobs.rows) (hst' : b'.status = .active) :
    ∃ b ∈ db.ledger.blobs.rows, b'.id = b.id ∧ b'.storagePath = b.storagePath
      ∧ ((b.status = .active ∧ b'.size = b.size)
        ∨ (b.status = .staging ∧ ∃ staged ∈ stagedBlobs,
            staged.id = b.id ∧ b'.size = staged.size)) := by
  obtain ⟨n, jobs, hn, he, -⟩ := hp.released.moves
  rw [he.blobs] at hb'
  obtain ⟨c, hc, rfl⟩ := hn.mem.mp hb'
  -- the release makes no row active, so the row was active after the activation
  have hcst : c.status = .active := by
    rw [dereferenced] at hst'
    split at hst'
    · exact hst'
    · next hpos => exact (hp.released.active c hc (Nat.pos_of_ne_zero hpos)).1
  have hsame : (dereferenced releasedPaths c).id = c.id
      ∧ (dereferenced releasedPaths c).storagePath = c.storagePath
      ∧ (dereferenced releasedPaths c).size = c.size := by
    rw [dereferenced]
    split <;> exact ⟨rfl, rfl, rfl⟩
  obtain ⟨hid, hpath, hsize⟩ := hsame
  obtain ⟨b, hb, rfl⟩ := hp.activation.rewrites.mem.mp hc
  have hkeys := activated_keepsPaths (activationsOf stagedBlobs) b
  refine ⟨b, hb, hid.trans hkeys.1, hpath.trans hkeys.2.1, ?_⟩
  rw [hsize]
  obtain ⟨b₂, hb₂, hd⟩ : ∃ b₂ ∈ db.ledger.blobs.rows,
      Descends (activationsOf stagedBlobs) b₂ (activated (activationsOf stagedBlobs) b) := by
    rcases (evolution_activation hp.activation).origin _ hc with hold | ⟨n, hn, -⟩
    · exact hold
    · exact absurd hn List.not_mem_nil
  have hbb : b₂ = b :=
    db.ledger.blobs.eq_of_clash hb₂ hb (StorageBlob.clash_of_id (hd.id.symm.trans hkeys.1))
  subst hbb
  -- of the three moves, one keeps an active row and one makes it active
  cases hd.move with
  | stays hst _ _ =>
      have hactive : b₂.status = .active := hst.symm.trans hcst
      refine Or.inl ⟨hactive, ?_⟩
      rw [activated, if_neg]
      rintro ⟨-, hstaging⟩
      simp [hactive] at hstaging
  | activated a ha haid hstaging _ _ hasize =>
      obtain ⟨staged, hmem, rfl⟩ := List.mem_map.mp ha
      exact Or.inr ⟨hstaging, staged, hmem, haid, hasize⟩
  | doomed _ hst _ _ => simp [hst] at hcst

/-- **Where active rows come from**: they were active before, or the step published them. -/
theorem active_origin (h : StorageOk s) (hop : op.Allowed s)
    (hb' : b' ∈ (op.apply s).db.ledger.blobs.rows) (hst' : b'.status = .active) :
    ActiveOrigin s op b' := by
  have h' := storageOk_step h hop
  -- no callback but a publication's changes the references
  have hkept : references (op.apply s).db.catalog = references s.db.catalog →
      (∃ b ∈ s.db.ledger.blobs.rows, b.status = .active ∧ b'.id = b.id
        ∧ b'.storagePath = b.storagePath) → ActiveOrigin s op b' := by
    rintro hrefs ⟨b, hb, hst, hid, hpath⟩
    have hledger := h'.ledger
    rw [hrefs] at hledger
    exact .kept b hb hst hid hpath (size_of_references h.ledger hledger hb hst hb' hst' hpath)
  have hsame : (op.apply s).db = s.db → ActiveOrigin s op b' := by
    intro hdb
    rw [hdb] at hb'
    exact .kept b' hb' hst' rfl rfl rfl
  cases op with
  | ledger op =>
      obtain ⟨hnew, hact, -⟩ := footprint_registered h hop
      rcases apply_cases s.db.ledger op with hrun | heq
      · exact hkept rfl (active_kept (run_evolves hrun) hact (fun n hn => (hnew n hn).inactive)
          hb' hst')
      · refine hsame ?_
        rw [StorageOp.apply, heq]
  | publish p now =>
      cases hp : publishTransaction s.db p.stagedBlobs (p.publishMetadata now) now with
      | error err =>
          refine hsame ?_
          rw [StorageOp.apply, hp]
          rfl
      | ok db' =>
          rw [StorageOp.apply, hp] at hb'
          obtain ⟨found, m, releasedPaths, hpub⟩ := publishTransaction_ok hp
          obtain ⟨b, hb, hid, hpath, ⟨hst, hsize⟩ | ⟨hst, staged, hmem, hsid, hsize⟩⟩ :=
            active_published hpub hb' hst'
          · exact .kept b hb hst hid hpath hsize
          · exact .activated p now staged b rfl hmem hsid hb hst hid hpath hsize
  | confirm stagedBlobs now =>
      obtain ⟨m, h1, h2⟩ := apply_evolves s (.confirm stagedBlobs now)
      refine hkept rfl ?_
      obtain ⟨c, hc, hst, hid, hpath⟩ := active_kept h2 rfl (List.forall_mem_nil _) hb' hst'
      obtain ⟨b, hb, hbst, hbid, hbpath⟩ := active_kept h1 rfl (List.forall_mem_nil _) hc hst
      exact ⟨b, hb, hbst, hid.trans hbid, hpath.trans hbpath⟩
  | abort ids => exact hsame rfl
  | catalog c =>
      refine hkept ?_ ⟨b', hb', hst', rfl, rfl⟩
      rw [StorageOp.apply]
      cases hw : c.run s.db.catalog with
      | error err => rfl
      | ok c' => exact references_catalogWrite hw

end Origin

/-! ## Files, uploads and workers -/

/-- The files of an uploader whose blob may still be published. -/
def UploadFiles (files : Files) (u : Upload) : Prop :=
  match u.phase with
  | .opening => files.lookup u.storagePath = none
  | .writing size _ | .reserving size _ _ | .retrying size _ _ | .granted size _ _
  | .closed size _ =>
      files.lookup u.stagingPath = some size ∧ files.lookup u.storagePath = none
  | .committed size => files.lookup u.storagePath = some size
  | _ => True

/-- A worker only goes after what is discarded. -/
def WorkerOk (s : State) : WorkerPhase → Prop
  | .found blobID => Doomed s blobID
  | .unlinkingStaging blob =>
      Discarded s blob.storagePath ∧ ∀ p, stagingFile blob = some p → Discarded s p
  | .unlinkingFinal blob _ => Discarded s blob.storagePath
  | .unlinked _ _ => True
  | .ended => True

/-- Database and files agree. -/
structure FilesOk (w : World) : Prop where
  staging : StagingRows w.storage
  active : ∀ b ∈ w.ledger.blobs.rows, b.status = .active →
    w.files.lookup b.storagePath = some b.size
  uploads : ∀ id u, w.uploads id = some u → ¬ Doomed w.storage id → UploadFiles w.files u
  workers : ∀ token worker, w.workers token = some worker → WorkerOk w.storage worker.phase

section Uploads

variable {files files' : Files} {u : Upload}

/-- Files elsewhere do not matter to an upload. -/
theorem UploadFiles.frame (h : UploadFiles files u)
    (hstaging : files'.lookup u.stagingPath = files.lookup u.stagingPath)
    (hfinal : files'.lookup u.storagePath = files.lookup u.storagePath) : UploadFiles files' u := by
  rw [UploadFiles, hstaging, hfinal]
  exact h

/-- A blob that was published or given up is not the uploader's any more. -/
theorem uploadFiles_of_done (h : u.phase.pending = false) : UploadFiles files u := by
  unfold UploadFiles
  split <;> simp_all [Phase.pending]

end Uploads

section Steps

variable {chunk : Nat} {w w' : World} {e : Event}

theorem doomed_step (hb : Bookkeeping w) (hs : Step chunk w e w') {id : String}
    (h : Doomed w.storage id) : Doomed w'.storage id := by
  rw [step_storage hs]
  cases e with
  | transaction op => exact doomed_apply hb.storage.registry (step_allowed hb.uploads hs) h
  | unlink path => exact h
  | silent => exact h

/-- **The step lemma**: a discarded path stays discarded. -/
theorem discarded_step (hb : Bookkeeping w) (hs : Step chunk w e w') {path : String}
    (h : Discarded w.storage path) : Discarded w'.storage path := by
  rw [step_storage hs]
  cases e with
  | transaction op => exact discarded_apply hb.storage.registry (step_allowed hb.uploads hs) h
  | unlink path => exact h
  | silent => exact h

/-- **The step lemma**: a dormant path stays dormant. -/
theorem dormant_step (hb : Bookkeeping w) (hs : Step chunk w e w') {path : String}
    (h : Dormant w.storage path) : Dormant w'.storage path := by
  rw [step_storage hs]
  cases e with
  | transaction op => exact dormant_apply hb.storage.registry (step_allowed hb.uploads hs) h
  | unlink path => exact h
  | silent => exact h

/-- What a worker is about to remove stays removable. -/
theorem workerOk_step (hb : Bookkeeping w) (hs : Step chunk w e w') {phase : WorkerPhase}
    (h : WorkerOk w.storage phase) : WorkerOk w'.storage phase := by
  cases phase with
  | found blobID => exact doomed_step hb hs h
  | unlinkingStaging blob =>
      exact ⟨discarded_step hb hs h.1, fun p hp => discarded_step hb hs (h.2 p hp)⟩
  | unlinkingFinal blob ok => exact discarded_step hb hs h
  | unlinked blob ok => trivial
  | ended => trivial

/-- **The step lemma** for the rows that are staged. -/
theorem stagingRows_step (hb : Bookkeeping w) (h : StagingRows w.storage)
    (hs : Step chunk w e w') : StagingRows w'.storage := by
  rw [step_storage hs]
  cases e with
  | transaction op => exact stagingRows_apply hb.storage.registry (step_allowed hb.uploads hs) h
  | unlink path => exact h
  | silent => exact h

/-! ### Workers -/

/-- A claimed job is for a doomed blob. -/
theorem doomed_of_claim (hb : Bookkeeping w) {jobID : Nat} {token : String}
    {job : StorageCleanupJob} (h : findClaimedCleanupJob w.ledger jobID token = .ok job) :
    Doomed w.storage job.blobID := by
  obtain ⟨hmem, -⟩ := Table.first?_eq_some (orElseThrow_eq_ok.mp h)
  obtain ⟨b, hrow, hid, -⟩ := hb.storage.ledger.jobs.blob job hmem
  exact hid ▸ doomed_of_job hb.storage hb.paths hrow ⟨job, hmem, hid.symm⟩

/-- What `load` hands to a worker may go. -/
theorem workerOk_loaded (hb : Bookkeeping w) (hstaging : StagingRows w.storage) {blobID : String}
    {blob : StorageBlob} (hdoomed : Doomed w.storage blobID)
    (h : findByID w.ledger blobID = .ok blob) :
    WorkerOk w.storage (if referenced blob then .ended else .unlinkingStaging blob) := by
  obtain ⟨hrow, hid⟩ := Table.first?_eq_some (orElseThrow_eq_ok.mp h)
  rw [← beq_iff_eq.mp hid] at hdoomed
  split
  · trivial
  · refine ⟨discarded_final hb.storage hb.paths hstaging hrow hdoomed, fun p hp => ?_⟩
    refine discarded_staging hb.storage hb.paths hstaging hrow hdoomed ?_
    unfold stagingFile at hp
    split at hp
    · next path hpath =>
        split at hp
        · rw [hpath, hp]
        · cases hp
    · cases hp

theorem workers_step (hb : Bookkeeping w) (h : FilesOk w) (hs : Step chunk w e w') :
    ∀ token worker, w'.workers token = some worker → WorkerOk w'.storage worker.phase := by
  intro token worker hw
  refine workerOk_step hb hs ?_
  have hkept : w'.workers = w.workers → WorkerOk w.storage worker.phase := by
    intro hsame
    exact h.workers token worker (hsame ▸ hw)
  -- a worker's own step
  have hmoved : ∀ (t : String) (jobID : Nat) (phase : WorkerPhase),
      w'.workers = Function.update w.workers t (some { jobID := jobID, phase := phase }) →
      WorkerOk w.storage phase → WorkerOk w.storage worker.phase := by
    intro t jobID phase hupdate hphase
    rw [hupdate] at hw
    by_cases ht : token = t
    · rw [ht, Function.update_self] at hw
      cases hw
      exact hphase
    · rw [Function.update_of_ne ht] at hw
      exact h.workers token worker hw
  -- only the worker's own steps change where it is
  cases hs with
  | stage => exact hkept (enlist_storage _ _ _ _).2.2
  | stageBatch => exact hkept (enlist_storage _ _ _ _).2.2
  | find _ hclaim => exact hmoved _ _ _ rfl (doomed_of_claim hb hclaim)
  | load hworker hload =>
      exact hmoved _ _ _ rfl (workerOk_loaded hb h.staging (h.workers _ _ hworker) hload)
  | unlinkStaging hworker _ => exact hmoved _ _ _ rfl (h.workers _ _ hworker).1
  | skipStaging hworker _ => exact hmoved _ _ _ rfl (h.workers _ _ hworker).1
  | unlinkFinal hworker => exact hmoved _ _ _ rfl trivial
  | complete hworker => exact hmoved _ _ _ rfl trivial
  | _ => exact hkept rfl

/-! ### Uploaders -/

/-- A step of one uploader that leaves other files than its own alone. -/
theorem uploads_own (hb : Bookkeeping w) (h : FilesOk w) {id : String} {u : Upload}
    {phase : Phase} {files : Files} (hu : w.uploads id = some u)
    (hfiles : ∀ path, path ≠ u.stagingPath → path ≠ u.storagePath →
      files.lookup path = w.files.lookup path)
    (hown : UploadFiles w.files u → UploadFiles files { u with phase := phase }) :
    ∀ other v, Function.update w.uploads id (some { u with phase := phase }) other = some v →
      ¬ Doomed w.storage other → UploadFiles files v := by
  intro other v hv hlive
  by_cases hid : other = id
  · rw [hid, Function.update_self] at hv
    cases hv
    exact hown (h.uploads id u hu (hid ▸ hlive))
  · rw [Function.update_of_ne hid] at hv
    obtain ⟨h1, h2, h3, h4⟩ := hb.uploads.apart hb.paths hv hu hid
    exact (h.uploads other v hv hlive).frame (hfiles _ h4 h2) (hfiles _ h3 h1)

/-- The two paths of an upload differ. -/
theorem own_paths (hb : Bookkeeping w) {id : String} {u : Upload} (hu : w.uploads id = some u) :
    u.storagePath ≠ u.stagingPath := by
  intro heq
  obtain ⟨c, hc, -, hpath, hstaging⟩ := (hb.uploads id u hu).created
  exact hb.paths.apart c hc c hc (hstaging.trans (congrArg some (heq.symm.trans hpath.symm)))

/-- What is discarded is no live uploader's. -/
theorem uploads_unlinked (hb : Bookkeeping w) (h : FilesOk w) {path : String} {removed : Bool}
    (hpath : Discarded w.storage path) : ∀ id u, w.uploads id = some u → ¬ Doomed w.storage id →
      UploadFiles (w.files.unlink path removed) u := by
  intro id u hu hlive
  obtain ⟨⟨c, hc, hid, hcpath, hcstaging⟩, hpending, -⟩ := hb.uploads id u hu
  cases hp : u.phase.pending with
  | false => exact uploadFiles_of_done hp
  | true =>
      refine (h.uploads id u hu hlive).frame (Files.lookup_unlink_other (fun heq => ?_) removed)
        (Files.lookup_unlink_other (fun heq => ?_) removed)
      · rcases hpath.2 c hc (heq ▸ hcstaging) with hpub | hdoomed
        · exact (hpending hp).1 (hid ▸ hpub)
        · exact hlive (hid ▸ hdoomed)
      · exact hlive (hid ▸ hpath.1.2 c hc (hcpath.trans heq))

/-- Every upload that may still be published has its file. -/
theorem uploads_step (hb : Bookkeeping w) (h : FilesOk w) (hs : Step chunk w e w') :
    ∀ id u, w'.uploads id = some u → ¬ Doomed w'.storage id → UploadFiles w'.files u := by
  intro other v hv hlive'
  have hlive : ¬ Doomed w.storage other := fun hdoomed => hlive' (doomed_step hb hs hdoomed)
  clear hlive'
  have hkept : w'.uploads = w.uploads → w'.files = w.files → UploadFiles w'.files v := by
    intro huploads hfiles
    exact hfiles ▸ h.uploads other v (huploads ▸ hv) hlive
  -- one uploader's step: its own paths change, those of the others do not
  have hown : ∀ (id : String) (u : Upload) (phase : Phase), w.uploads id = some u →
      w'.uploads = Function.update w.uploads id (some { u with phase := phase }) →
      (∀ path, path ≠ u.stagingPath → path ≠ u.storagePath →
        w'.files.lookup path = w.files.lookup path) →
      (UploadFiles w.files u → UploadFiles w'.files { u with phase := phase }) →
      UploadFiles w'.files v := by
    intro id u phase hu hupdate hfiles hafter
    exact uploads_own hb h hu hfiles hafter other v (hupdate ▸ hv) hlive
  -- new uploads: their final paths name no file
  have henlist : ∀ (op : LedgerOp) (blobs : List StorageBlob)
      (expectedSize : StorageBlob → Option Nat), w' = w.enlist op blobs expectedSize →
      FreshPaths w.files blobs → UploadFiles w'.files v := by
    rintro op blobs expectedSize rfl hfresh
    rw [(enlist_storage _ _ _ _).2.1]
    rcases enlist_eq hv with hold | ⟨-, b, hb, -, rfl⟩
    · exact h.uploads other v hold hlive
    · exact AList.lookup_eq_none.mpr (hfresh.final b hb)
  cases hs with
  | stage _ _ hfresh => exact henlist _ _ _ rfl hfresh
  | stageBatch _ hfresh _ => exact henlist _ _ _ rfl hfresh
  -- the staging file is made and grows, the final path stays empty
  | @openFile id u hu hphase _ =>
      refine hown id u _ hu rfl (fun path hpath _ => Files.lookup_insert_other hpath) fun hold => ?_
      rw [UploadFiles, hphase] at hold
      exact ⟨AList.lookup_insert _, (Files.lookup_insert_other (own_paths hb hu)).trans hold⟩
  | openFails hu _ => exact hown _ _ _ hu rfl (fun _ _ _ => rfl) fun _ => trivial
  | @read id u size reserved n hu hphase _ _ =>
      refine hown id u _ hu rfl (fun _ _ _ => rfl) fun hold => ?_
      rw [UploadFiles, hphase] at hold
      rcases afterRead_cases u.expectedSize size reserved n with heq | heq | heq <;> rw [heq]
      · exact hold
      · exact hold
      · trivial
  | @reserve id u size reserved n required op hu hphase _ _ =>
      refine hown id u _ hu rfl (fun _ _ _ => rfl) fun hold => ?_
      rw [UploadFiles, hphase] at hold
      rcases afterReserve_cases required size reserved n (op.run w.ledger) with heq | heq | heq <;>
        rw [heq]
      · exact hold
      · exact hold
      · trivial
  | @reserveExact id u size reserved n op hu hphase _ =>
      refine hown id u _ hu rfl (fun _ _ _ => rfl) fun hold => ?_
      rw [UploadFiles, hphase] at hold
      rcases afterRetry_cases size n (op.run w.ledger) with heq | heq <;> rw [heq]
      · exact hold
      · trivial
  | @write id u size reserved n written hu hphase _ =>
      refine hown id u _ hu rfl (fun path hpath _ => Files.lookup_append_other hpath) fun hold => ?_
      rw [UploadFiles, hphase] at hold
      rw [afterWrite]
      split
      · exact ⟨Files.lookup_append_self hold.1,
          (Files.lookup_append_other (own_paths hb hu)).trans hold.2⟩
      · trivial
  | interrupt hu _ => exact hown _ _ _ hu rfl (fun _ _ _ => rfl) fun _ => trivial
  | @discard id u removed hu _ =>
      exact hown id u _ hu rfl (fun path hpath _ => Files.lookup_unlink_other hpath removed)
        fun _ => trivial
  | @close id u size reserved hu hphase =>
      refine hown id u _ hu rfl (fun _ _ _ => rfl) fun hold => ?_
      rw [UploadFiles, hphase] at hold
      rcases afterClose_cases u.expectedSize size reserved with heq | heq <;> rw [heq]
      · exact hold
      · trivial
  | @reserveOne id u op hu hphase _ _ =>
      refine hown id u _ hu rfl (fun _ _ _ => rfl) fun hold => ?_
      rw [UploadFiles, hphase] at hold
      rcases afterReserveOne_cases (op.run w.ledger) with heq | heq <;> rw [heq]
      · exact hold
      · trivial
  -- and the rename moves its bytes there
  | @commit id u size reserved files hu hphase _ hcommit =>
      refine hown id u _ hu rfl (fun path => Files.lookup_commit_other hcommit) fun hold => ?_
      rw [UploadFiles, hphase] at hold
      show files.lookup u.storagePath = some size
      rw [Files.commit_rename hold.2 hold.1 hcommit]
      exact AList.lookup_insert _
  | commitFails hu _ => exact hown _ _ _ hu rfl (fun _ _ _ => rfl) fun _ => trivial
  | publish _ _ =>
      rcases setPhases_eq hv with ⟨-, u, -, rfl⟩ | ⟨-, hold⟩
      · trivial
      · exact h.uploads other v hold hlive
  | confirm _ => exact hkept rfl rfl
  | giveUp _ =>
      rcases setPhases_eq hv with ⟨-, u, -, rfl⟩ | ⟨-, hold⟩
      · trivial
      · exact h.uploads other v hold hlive
  | @deleteStaging id u removed hu _ =>
      exact hown id u _ hu rfl (fun path hpath _ => Files.lookup_unlink_other hpath removed)
        fun _ => trivial
  | @deleteFinal id u ok removed hu _ =>
      exact hown id u _ hu rfl (fun path _ hpath => Files.lookup_unlink_other hpath removed)
        fun _ => trivial
  | release _ => exact hkept rfl rfl
  | track _ => exact hkept rfl rfl
  | crash hu => exact hown _ _ _ hu rfl (fun _ _ _ => rfl) fun _ => trivial
  | find _ _ => exact hkept rfl rfl
  | load _ _ => exact hkept rfl rfl
  | unlinkStaging hworker hpath =>
      exact uploads_unlinked hb h ((h.workers _ _ hworker).2 _ hpath) other v hv hlive
  | skipStaging _ _ => exact hkept rfl rfl
  | unlinkFinal hworker =>
      exact uploads_unlinked hb h (h.workers _ _ hworker) other v hv hlive
  | complete _ => exact hkept rfl rfl
  | other _ _ => exact hkept rfl rfl

/-! ### Active rows -/

/-- An active blob is at no uploader's staging path. -/
theorem active_apart (hb : Bookkeeping w) {b : StorageBlob} (hrow : b ∈ w.ledger.blobs.rows)
    (hst : b.status = .active) {id : String} {u : Upload} (hu : w.uploads id = some u) :
    b.storagePath ≠ u.stagingPath := by
  intro heq
  obtain ⟨c, hc, -, -, hstaging⟩ := (hb.uploads id u hu).created
  exact dormant_inactive hb.storage (dormant_staging hb.storage hb.paths hc hstaging) hrow hst heq

/-- An active blob is at no final path of an uploader that has not published. -/
theorem active_not_pending (hb : Bookkeeping w) {b : StorageBlob}
    (hrow : b ∈ w.ledger.blobs.rows) (hst : b.status = .active) {id : String} {u : Upload}
    (hu : w.uploads id = some u) (hphase : u.phase.pending = true ∨ u.phase.givenUp = true) :
    b.storagePath ≠ u.storagePath := by
  intro heq
  obtain ⟨⟨c, hc, hid, hpath, -⟩, hpending, hgivenUp, -⟩ := hb.uploads id u hu
  obtain ⟨d, hd, hdid, hdpath⟩ := created_of_active hb.storage hrow hst
  rw [hb.paths.final d hd c hc (hdpath.trans (heq.trans hpath.symm)), hid] at hdid
  have hpub := hdid ▸ hb.storage.rows.active b hrow hst
  rcases hphase with hphase | hphase
  · exact (hpending hphase).1 hpub
  · exact hb.storage.registry.disjoint id hpub (hgivenUp hphase)

/-- **No step touches the file of an active blob.** -/
theorem active_file (hb : Bookkeeping w) (h : FilesOk w) (hs : Step chunk w e w')
    {b : StorageBlob} (hrow : b ∈ w.ledger.blobs.rows) (hst : b.status = .active) :
    w'.files.lookup b.storagePath = w.files.lookup b.storagePath := by
  have hdiscarded : ∀ {path : String}, Discarded w.storage path → b.storagePath ≠ path :=
    fun hpath => dormant_inactive hb.storage hpath.1 hrow hst
  cases hs with
  | stage => rw [(enlist_storage _ _ _ _).2.1]
  | stageBatch => rw [(enlist_storage _ _ _ _).2.1]
  | openFile hu _ _ => exact Files.lookup_insert_other (active_apart hb hrow hst hu)
  | write hu _ _ => exact Files.lookup_append_other (active_apart hb hrow hst hu)
  | @discard id u removed hu _ =>
      exact Files.lookup_unlink_other (active_apart hb hrow hst hu) removed
  | @commit id u size reserved files hu hphase _ hcommit =>
      refine Files.lookup_commit_other hcommit (active_apart hb hrow hst hu) ?_
      exact active_not_pending hb hrow hst hu (Or.inl (by rw [hphase]; rfl))
  | @deleteStaging id u removed hu _ =>
      exact Files.lookup_unlink_other (active_apart hb hrow hst hu) removed
  | @deleteFinal id u ok removed hu hphase =>
      refine Files.lookup_unlink_other ?_ removed
      exact active_not_pending hb hrow hst hu (Or.inr (by rw [hphase]; rfl))
  | @unlinkStaging token path jobID blob removed hworker hpath =>
      exact Files.lookup_unlink_other (hdiscarded ((h.workers _ _ hworker).2 _ hpath)) removed
  | @unlinkFinal token jobID blob ok removed hworker =>
      exact Files.lookup_unlink_other (hdiscarded (h.workers _ _ hworker)) removed
  | _ => rfl

theorem transaction_files {op : StorageOp} (hs : Step chunk w (.transaction op) w') :
    w'.files = w.files := by
  cases hs with
  | stage => exact (enlist_storage _ _ _ _).2.1
  | stageBatch => exact (enlist_storage _ _ _ _).2.1
  | _ => rfl

/-- What a publication activates was committed by its uploader. -/
theorem published_committed {p : Publication} {now : Time}
    (hs : Step chunk w (.transaction (.publish p now)) w') {staged : StagedBlob}
    (hstaged : staged ∈ p.stagedBlobs) : ∃ u, w.uploads staged.id = some u
      ∧ u.storagePath = staged.storagePath ∧ u.phase = .committed staged.size := by
  cases hs with
  | publish _ hcommitted => exact hcommitted staged hstaged
  | other hop _ =>
      have hnone : p.stagedBlobs = [] := hop
      rw [hnone] at hstaged
      exact absurd hstaged List.not_mem_nil

/-- Every active row has its file, after every step. -/
theorem active_step (hb : Bookkeeping w) (h : FilesOk w) (hs : Step chunk w e w') :
    ∀ b ∈ w'.ledger.blobs.rows, b.status = .active →
      w'.files.lookup b.storagePath = some b.size := by
  intro b' hb' hst'
  rw [World.ledger, step_storage hs] at hb'
  cases e with
  | unlink path => exact (active_file hb h hs hb' hst').trans (h.active b' hb' hst')
  | silent => exact (active_file hb h hs hb' hst').trans (h.active b' hb' hst')
  | transaction op =>
      rw [transaction_files hs]
      -- active before with the same size, or committed by its uploader and published now
      cases active_origin hb.storage (step_allowed hb.uploads hs) hb' hst' with
      | kept b hrow hst _ hpath hsize =>
          rw [hpath, hsize]
          exact h.active b hrow hst
      | activated p now staged b hop hstaged hsid hrow hst _ hpath hsize =>
          subst hop
          obtain ⟨u, hu, hupath, hphase⟩ := published_committed hs hstaged
          obtain ⟨⟨c, hc, hid, hcpath, -⟩, hpending, -⟩ := hb.uploads _ u hu
          have hrowpath := (path_of_created hb.storage.rows hb.storage.registry hc hrow
            (hsid.symm.trans hid.symm)).2
          -- a staging row whose uploader goes on is not doomed
          have hlive : ¬ Doomed w.storage staged.id := by
            rintro ⟨-, habort | hsealed⟩
            · exact (hpending (by rw [hphase]; rfl)).2 habort
            · have := hsealed b hrow hsid.symm
              simp [hst] at this
          have hfile := h.uploads _ u hu hlive
          rw [UploadFiles, hphase] at hfile
          rw [hpath, hrowpath, hcpath, hsize]
          exact hfile

/-! ## Every run -/

/-- **The step lemma.** -/
theorem filesOk_step (hb : Bookkeeping w) (h : FilesOk w) (hs : Step chunk w e w') :
    FilesOk w' where
  staging := stagingRows_step hb h.staging hs
  active := active_step hb h hs
  uploads := uploads_step hb h hs
  workers := workers_step hb h hs

theorem bookkeeping_start (foreign : Files) :
    Bookkeeping { storage := State.initial, files := foreign } where
  reachable := .start rfl
  uploads := by
    intro id u hu
    cases hu
  paths := by constructor <;> exact List.forall_mem_nil _

theorem filesOk_start (foreign : Files) :
    FilesOk { storage := State.initial, files := foreign } where
  staging := List.forall_mem_nil _
  active := List.forall_mem_nil _
  uploads := by
    intro id u hu
    cases hu
  workers := by
    intro token worker hw
    cases hw

variable {foreign : Files}

/-- **The run lemma**: both invariants hold in every reachable world. -/
theorem worldOk_of_reachable (h : Reachable (worldSystem chunk foreign) w) :
    Bookkeeping w ∧ FilesOk w := by
  refine h.invariant (I := fun w => Bookkeeping w ∧ FilesOk w) ?_ ?_
  · rintro w rfl
    exact ⟨bookkeeping_start foreign, filesOk_start foreign⟩
  · intro w e w' _ hw hs
    exact ⟨bookkeeping_step hw.1 hs, filesOk_step hw.1 hw.2 hs⟩

/-- What a step removes is dormant. -/
theorem dormant_of_unlink (hb : Bookkeeping w) (h : FilesOk w) {path : String}
    (hs : Step chunk w (.unlink path) w') : Dormant w.storage path := by
  cases hs with
  | discard hu _ =>
      obtain ⟨c, hc, -, -, hstaging⟩ := (hb.uploads _ _ hu).created
      exact dormant_staging hb.storage hb.paths hc hstaging
  | deleteStaging hu _ =>
      obtain ⟨c, hc, -, -, hstaging⟩ := (hb.uploads _ _ hu).created
      exact dormant_staging hb.storage hb.paths hc hstaging
  | deleteFinal hu hphase =>
      obtain ⟨⟨c, hc, hid, hpath, -⟩, -, hgivenUp, -⟩ := hb.uploads _ _ hu
      have habort := hgivenUp (by rw [hphase]; rfl)
      exact hpath ▸ dormant_final hb.storage hb.paths hc
        (hid ▸ doomed_of_aborted hb.paths habort)
  | unlinkStaging hworker hpath => exact ((h.workers _ _ hworker).2 _ hpath).1
  | unlinkFinal hworker => exact (h.workers _ _ hworker).1

/-- A dormant path stays one in every run. -/
theorem dormant_run {v : World} {es : List Event} {path : String}
    (hrun : Run (worldSystem chunk foreign) w es v) (hr : Reachable (worldSystem chunk foreign) w)
    (h : Dormant w.storage path) : Dormant v.storage path := by
  refine hrun.stable (P := fun w => Dormant w.storage path) (fun w e w' hr hw hs => ?_) hr h
  exact dormant_step (worldOk_of_reachable hr).1 hs hw

/-- A doomed blob stays one in every run. -/
theorem doomed_run {v : World} {es : List Event} {id : String}
    (hrun : Run (worldSystem chunk foreign) w es v) (hr : Reachable (worldSystem chunk foreign) w)
    (h : Doomed w.storage id) : Doomed v.storage id := by
  refine hrun.stable (P := fun w => Doomed w.storage id) (fun w e w' hr hw hs => ?_) hr h
  exact doomed_step (worldOk_of_reachable hr).1 hs hw

/-- A file that metadata names is there with its size. -/
theorem reference_file (hb : Bookkeeping w) (h : FilesOk w) {r : Reference}
    (hr : r ∈ references w.storage.db.catalog) : ∃ n, w.files.lookup r.1 = some n ∧ r.2 = n := by
  obtain ⟨b, hrow, hst, hpath⟩ := hb.storage.ledger.owned r hr
  refine ⟨b.size, hpath ▸ h.active b hrow hst, ?_⟩
  exact ((rowOk_active hst).mp (hb.storage.ledger.rows b hrow)).2.2.2.2.2 r hr hpath.symm

/-- **Live content is never deleted.**  No step removes the final path of a blob that is
    active then or at any later time, a sealed blob never becomes active again, and every
    object and every row of the recycle bin has its file with the size it names. -/
theorem live_content_kept (h : Reachable (worldSystem chunk foreign) w) :
    (∀ path w', Step chunk w (.unlink path) w' →
        ∀ es v, Run (worldSystem chunk foreign) w es v →
          ∀ b ∈ v.ledger.blobs.rows, b.status = .active → b.storagePath ≠ path)
      ∧ (∀ b ∈ w.ledger.blobs.rows, b.status = .pendingDelete →
          ∀ es v, Run (worldSystem chunk foreign) w es v →
            ∀ c ∈ v.ledger.blobs.rows, c.id = b.id → c.status ≠ .active)
      ∧ (∀ o ∈ w.storage.db.catalog.objects.rows, o.storagePath ≠ "" →
          ∃ n, w.files.lookup o.storagePath = some n ∧ o.size = n)
      ∧ ∀ r ∈ w.storage.db.catalog.recycleBin.rows, r.storagePath ≠ "" →
          ∃ n, w.files.lookup r.storagePath = some n ∧ r.size = n := by
  obtain ⟨hb, hf⟩ := worldOk_of_reachable h
  refine ⟨fun path w' hs es v hrun b hrow hst => ?_, fun b hrow hst es v hrun c hc hid => ?_,
    fun o ho hpath => ?_, fun r hr hpath => ?_⟩
  · have hdormant := dormant_run hrun h (dormant_of_unlink hb hf hs)
    exact dormant_inactive (worldOk_of_reachable (hrun.reachable h)).1.storage hdormant hrow hst
  · have hdoomed := doomed_run hrun h (doomed_of_sealed hb.storage hrow (Or.inl hst))
    exact doomed_inactive (worldOk_of_reachable (hrun.reachable h)).1.storage hdoomed hc hid
  · refine reference_file hb hf (r := (o.storagePath, o.size)) (mem_storageReferences.mp ?_)
    refine List.mem_append_left _ (List.mem_filter.mpr ⟨List.mem_map.mpr ⟨o, ho, rfl⟩, ?_⟩)
    exact bne_iff_ne.mpr hpath
  · refine reference_file hb hf (r := (r.storagePath, r.size)) (mem_storageReferences.mp ?_)
    refine List.mem_append_right _ (List.mem_filter.mpr ⟨List.mem_map.mpr ⟨r, hr, rfl⟩, ?_⟩)
    exact bne_iff_ne.mpr hpath

/-! A bucket, one file of a declared size, and its publication. -/

/-- An empty root. -/
def emptyWorld : World := { storage := State.initial, files := ∅ }

/-- An upload whose length is announced. -/
def knownBlob : StorageBlob := { uploadedBlob with size := 5 }

/-- The uploader, in each of its phases. -/
def knownUpload (phase : Phase) : Upload where
  storagePath := "objects/1.bin"
  stagingPath := "staging/1.tmp"
  expectedSize := some 5
  phase := phase

/-- The row is inserted and the file not open yet. -/
def stagedWorld : World :=
  (emptyWorld.transact (.catalog (.createBucket { name := "docs" }))).enlist
    (.createStagingBatch [knownBlob] blobLedgerWriteBatchSize 60 0) [knownBlob] fun _ => some 5

/-- The file is open. -/
def openedWorld : World :=
  { stagedWorld.setUpload "blob-1" (knownUpload .opening) (.writing 0 0) with
    files := stagedWorld.files.insert "staging/1.tmp" 0 }

/-- Five bytes are read, and reserved already. -/
def readWorld : World :=
  openedWorld.setUpload "blob-1" (knownUpload (.writing 0 0)) (.granted 0 0 5)

/-- The five bytes are written. -/
def writtenWorld : World :=
  { readWorld.setUpload "blob-1" (knownUpload (.granted 0 0 5)) (.writing 5 0) with
    files := readWorld.files.append "staging/1.tmp" 5 }

/-- The file is closed. -/
def closedWorld : World :=
  writtenWorld.setUpload "blob-1" (knownUpload (.writing 5 0)) (.closed 5 0)

/-- The file is at its final path. -/
def committedWorld : World :=
  { closedWorld.setUpload "blob-1" (knownUpload (.closed 5 0)) (.committed 5) with
    files := (closedWorld.files.commit "staging/1.tmp" "objects/1.bin").getD ∅ }

/-- The upload is published. -/
def publishedWorld : World :=
  (committedWorld.transact uploadPublication).setPhases ["blob-1"] .published

theorem knownBlob_new : NewBlobs bucketCreated.registry [knownBlob] := by
  constructor <;> simp [bucketCreated, knownBlob, uploadedBlob, StorageOp.apply, State.initial]
  exact ⟨rfl, rfl, rfl⟩

/-- The run meets any condition that only expiries can break. -/
theorem publishedWorld_guarded {ok : World → Event → Prop}
    (hok : ∀ w e,
      (∀ before limit now, e ≠ .transaction (.ledger (.expireStaging before limit now))) →
      ok w e) : Reachable ((worldSystem 16 ∅).guarded ok) publishedWorld := by
  have h0 : Reachable ((worldSystem 16 ∅).guarded ok) emptyWorld := .start rfl
  have hfresh : FreshPaths ∅ [knownBlob] := by constructor <;> simp
  have hsizes : ∀ b ∈ [knownBlob], b.size = if 5 = 0 then 1 else 5 := by simp [knownBlob]
  have h1 := h0.step
    (t := emptyWorld.transact (.catalog (.createBucket { name := "docs" })))
    ⟨.other trivial trivial, hok _ _ (by simp)⟩
  have h2 : Reachable ((worldSystem 16 ∅).guarded ok) stagedWorld :=
    h1.step ⟨.stageBatch knownBlob_new hfresh hsizes, hok _ _ (by simp)⟩
  have h3 : Reachable ((worldSystem 16 ∅).guarded ok) openedWorld :=
    h2.step ⟨.openFile (u := knownUpload .opening) rfl rfl (by decide), hok _ _ (by simp)⟩
  have h4 : Reachable ((worldSystem 16 ∅).guarded ok) readWorld :=
    h3.step ⟨.read (u := knownUpload (.writing 0 0)) (n := 5) rfl rfl (by decide) (by decide),
      hok _ _ (by simp)⟩
  have h5 : Reachable ((worldSystem 16 ∅).guarded ok) writtenWorld :=
    h4.step ⟨.write (u := knownUpload (.granted 0 0 5)) rfl rfl (Nat.le_refl 5), hok _ _ (by simp)⟩
  have h6 : Reachable ((worldSystem 16 ∅).guarded ok) closedWorld :=
    h5.step ⟨.close (u := knownUpload (.writing 5 0)) rfl rfl, hok _ _ (by simp)⟩
  have h7 : Reachable ((worldSystem 16 ∅).guarded ok) committedWorld :=
    h6.step ⟨.commit (u := knownUpload (.closed 5 0)) rfl rfl (by simp [knownUpload]) rfl,
      hok _ _ (by simp)⟩
  refine h7.step ⟨.publish uploadPublication_allowed.1 fun staged hs => ?_, hok _ _ (by simp)⟩
  rw [List.mem_singleton.mp hs]
  exact ⟨knownUpload (.committed 5), rfl, rfl, rfl⟩

theorem publishedWorld_reachable : Reachable (worldSystem 16 ∅) publishedWorld :=
  (@publishedWorld_guarded (fun _ _ => True) fun _ _ _ => trivial).of_guarded

/-- The published file is there, with the size of its row. -/
theorem live_content_kept_published :
    publishedWorld.ledger.quota.usedBytes = 5
      ∧ ∃ n, publishedWorld.files.lookup "objects/1.bin" = some n ∧ (5 : Int) = n := by
  refine ⟨by decide, ?_⟩
  obtain ⟨o, ho, hpath, hsize⟩ : ∃ o ∈ publishedWorld.storage.db.catalog.objects.rows,
      o.storagePath = "objects/1.bin" ∧ o.size = 5 := by decide
  have hfile := (live_content_kept publishedWorld_reachable).2.2.1 o ho (by rw [hpath]; decide)
  rwa [hpath, hsize] at hfile

end Steps

end DeletionSafety
