import LightOss.LedgerOps

/-! # Ledger evolution — what any call can do to a row

    Said once for all calls: a row keeps its id and its final path; a staging row may
    become active with the size its publication names; any row but a sealed one may
    be sealed; nothing leaves `pending_delete`, and only a call that says so adds,
    drops or enqueues.

    `Move` says this of a row and `Evolution` of a ledger, against the footprint that a
    call announces; `run_evolves` has one case for each call.  Every invariant about
    single rows follows from this, without another look at the calls. -/

namespace LedgerEvolution

open KeyedTable Fallible LedgerRows BlobRepository LedgerSpecs LedgerMoves LedgerOps

variable {l l' m : Ledger}

/-- How one call changes the row `b` into `b'`. -/
inductive Move (activations : List StorageBlobActivation) (b b' : StorageBlob) : Prop where
  | stays : b'.status = b.status → b'.stagingPath = b.stagingPath → b.size ≤ b'.size →
      Move activations b b'
  | activated (a : StorageBlobActivation) : a ∈ activations → a.id = b.id →
      b.status = .staging → b'.status = .active → b'.stagingPath = none →
      b'.size = a.actualSize → Move activations b b'
  | doomed : b.status ≠ .pendingDelete → b'.status = .pendingDelete →
      b'.stagingPath = b.stagingPath → b'.size = b.size → Move activations b b'

/-- `b'` is the row `b` after the call. -/
structure Descends (activations : List StorageBlobActivation) (b b' : StorageBlob) : Prop where
  id : b'.id = b.id
  storagePath : b'.storagePath = b.storagePath
  move : Move activations b b'

theorem Descends.refl (activations : List StorageBlobActivation) (b : StorageBlob) :
    Descends activations b b := ⟨rfl, rfl, .stays rfl rfl (Nat.le_refl _)⟩

/-- No call gives a row another staging path. -/
theorem Move.stagingPath {activations : List StorageBlobActivation} {b b' : StorageBlob}
    (h : Move activations b b') : b'.stagingPath = b.stagingPath ∨ b'.stagingPath = none := by
  cases h with
  | stays _ hp _ => exact Or.inl hp
  | activated _ _ _ _ _ hp _ => exact Or.inr hp
  | doomed _ _ hp _ => exact Or.inl hp

/-- `b'` is the inserted row `n`, under a lease. -/
structure StartsAs (n b' : StorageBlob) : Prop where
  id : b'.id = n.id
  storagePath : b'.storagePath = n.storagePath
  stagingPath : b'.stagingPath = n.stagingPath
  size : b'.size = n.size
  status : b'.status = n.status

/-- What a call may add, activate, enqueue and drop. -/
structure Footprint where
  new : List StorageBlob := []
  activations : List StorageBlobActivation := []
  enqueued : List String := []
  removed : String → Prop := fun _ => False

/-- The ledger `l'` after a call with the given footprint. -/
structure Evolution (fp : Footprint) (l l' : Ledger) : Prop where
  origin : ∀ b' ∈ l'.blobs.rows, (∃ b ∈ l.blobs.rows, Descends fp.activations b b')
    ∨ ∃ n ∈ fp.new, StartsAs n b'
  kept : ∀ b ∈ l.blobs.rows, (fp.removed b.id ∧ b.status ≠ .active)
    ∨ ∃ b' ∈ l'.blobs.rows, Descends fp.activations b b'
  jobs : ∀ b' ∈ l'.blobs.rows, b'.status = .staging → HasJob l' b'.id →
    HasJob l b'.id ∨ b'.id ∈ fp.enqueued

theorem Evolution.refl (fp : Footprint) (l : Ledger) : Evolution fp l l where
  origin := fun b hb => Or.inl ⟨b, hb, .refl _ b⟩
  kept := fun b hb => Or.inr ⟨b, hb, .refl _ b⟩
  jobs := fun _ _ _ hj => Or.inl hj

/-! ## The shapes of the calls -/

section Shapes

variable {fp : Footprint}

/-- Rows rewritten in place; jobs arrive for rows that are not staging afterwards. -/
theorem Evolution.of_rows {g : StorageBlob → StorageBlob}
    (hrows : l'.blobs.rows = l.blobs.rows.map g)
    (hg : ∀ b ∈ l.blobs.rows, Descends fp.activations b (g b))
    (hjobs : ∀ b ∈ l.blobs.rows, (g b).status = .staging → HasJob l' b.id →
      HasJob l b.id ∨ b.id ∈ fp.enqueued) : Evolution fp l l' where
  origin := by
    intro b' hb'
    obtain ⟨b, hb, rfl⟩ := List.mem_map.mp (hrows ▸ hb')
    exact Or.inl ⟨b, hb, hg b hb⟩
  kept := fun b hb => Or.inr ⟨g b, hrows ▸ List.mem_map_of_mem hb, hg b hb⟩
  jobs := by
    intro b' hb' hst hj
    obtain ⟨b, hb, rfl⟩ := List.mem_map.mp (hrows ▸ hb')
    rw [(hg b hb).id] at hj ⊢
    exact hjobs b hb hst hj

/-- It is enough to look at what happens to each row. -/
theorem Evolution.of_rewrites {g : StorageBlob → StorageBlob} {used reserved : Nat}
    (hr : Rewrites (withQuota l used reserved) g l')
    (hg : ∀ b ∈ l.blobs.rows, Descends fp.activations b (g b)) : Evolution fp l l' :=
  .of_rows hr.rows hg fun b _ _ hj => Or.inl (by rwa [HasJob, hr.jobs] at hj)

theorem Evolution.of_jobs (hblobs : l'.blobs = l.blobs)
    (hjobs : ∀ id, HasJob l' id → HasJob l id ∨ id ∈ fp.enqueued) : Evolution fp l l' :=
  .of_rows (g := id) (by rw [hblobs, List.map_id]) (fun b _ => .refl _ b) fun b _ _ => hjobs b.id

/-- Only rows were deleted, and none that was active. -/
theorem Evolution.of_dropped {p : StorageBlob → Bool} {used reserved : Nat}
    (hd : Dropped (withQuota l used reserved) p l')
    (hp : ∀ b ∈ l.blobs.rows, p b = true → fp.removed b.id ∧ b.status ≠ .active) :
    Evolution fp l l' where
  origin := fun b hb => Or.inl ⟨b, (hd.mem_rows.mp hb).1, .refl _ b⟩
  kept := by
    intro b hb
    cases hpb : p b with
    | true => exact Or.inl (hp b hb hpb)
    | false => exact Or.inr ⟨b, hd.mem_rows.mpr ⟨hb, hpb⟩, .refl _ b⟩
  jobs := by
    rintro b - - ⟨j, hj, hid⟩
    exact Or.inl ⟨j, (hd.mem_jobs.mp hj).1, hid⟩

theorem descends_renewed (as : List StorageBlobActivation) (ids : List String) (t : Time)
    (b : StorageBlob) : Descends as b (renewed ids t b) := by
  rw [renewed]
  split <;> exact ⟨rfl, rfl, .stays rfl rfl (Nat.le_refl _)⟩

theorem evolution_staged {blobs : List StorageBlob} {n : Nat} {t : Time}
    (hs : Staged l blobs n t l') : Evolution { new := blobs } l l' where
  origin := by
    intro b' hb'
    obtain ⟨b, hb, rfl⟩ := List.mem_map.mp (hs.rows ▸ hb')
    rcases List.mem_append.mp hb with hold | hnew
    · exact Or.inl ⟨b, hold, descends_renewed _ _ _ b⟩
    · refine Or.inr ⟨b, hnew, ?_⟩
      rw [renewed]
      split <;> exact ⟨rfl, rfl, rfl, rfl, rfl⟩
  kept := fun b hb => Or.inr ⟨_, hs.rows ▸ List.mem_map_of_mem (List.mem_append_left _ hb),
    descends_renewed _ _ _ b⟩
  jobs := by
    intro b' _ _ hj
    rw [HasJob, hs.jobs] at hj
    exact Or.inl hj

theorem evolution_activation {as : List StorageBlobActivation} {found : List StorageBlob}
    (ha : Activation l as found l') : Evolution { activations := as } l l' := by
  refine .of_rewrites ha.rewrites fun b _ => ?_
  rw [activated]
  split
  · next hb =>
      obtain ⟨hid, hst⟩ := hb
      have hfind : ∃ a, as.find? (fun activation => activation.id == b.id) = some a := by
        obtain ⟨a, ha, hab⟩ := List.mem_map.mp hid
        refine Option.isSome_iff_exists.mp (List.find?_isSome.mpr ⟨a, ha, ?_⟩)
        exact beq_iff_eq.mpr hab
      obtain ⟨a, hfa⟩ := hfind
      have hab := List.find?_some hfa
      refine ⟨rfl, rfl,
        .activated a (List.mem_of_find?_eq_some hfa) (beq_iff_eq.mp hab) hst rfl rfl ?_⟩
      rw [activatedSize, hfa]
  · exact .refl _ b

/-- Staging rows are sealed, with their jobs. -/
theorem evolution_sealed {p : StorageBlob → Bool} {jobs : List StorageCleanupJob}
    (hs : Sealed l p jobs l') : Evolution {} l l' := by
  obtain ⟨n, hn, he⟩ := hs.steps
  refine .of_rows (he.blobs ▸ hn.rows) (fun b hb => ?_) fun b hb hst hj => ?_
  · split
    · next hp =>
        refine ⟨rfl, rfl, .doomed ?_ rfl rfl rfl⟩
        rw [hs.staging b hb hp]
        decide
    · exact .refl _ b
  · rw [he.hasJob, HasJob, hn.jobs] at hj
    refine hj.imp_right fun hmem => ?_
    obtain ⟨j, hj, hid⟩ := List.mem_map.mp hmem
    obtain ⟨c, hc, hpc, hcid, -⟩ := hs.paths j hj
    rw [← l.blobs.eq_of_clash hc hb (StorageBlob.clash_of_id (hcid.trans hid)), if_pos hpc] at hst
    cases hst

/-- Active rows lose references; one without any is sealed. -/
theorem evolution_released {paths : List String} (hr : Released l paths l') :
    Evolution {} l l' := by
  obtain ⟨n, jobs, hn, he, hids, -⟩ := hr.moves
  refine .of_rows (he.blobs ▸ hn.rows) (fun b hb => ?_) fun b hb hst hj => ?_
  · rw [dereferenced]
    split
    · exact .refl _ b
    · next hpos =>
        have hactive := (hr.active b hb (Nat.pos_of_ne_zero hpos)).1
        refine ⟨rfl, rfl, ?_⟩
        dsimp only
        split
        · exact .doomed (by rw [hactive]; decide) rfl rfl rfl
        · exact .stays hactive.symm rfl (Nat.le_refl _)
  · rw [he.hasJob, HasJob, hn.jobs] at hj
    refine hj.imp_right fun hmem => ?_
    obtain ⟨hpos, hall⟩ := (hids b hb).mp hmem
    rw [dereferenced, if_neg (Nat.pos_iff_ne_zero.mp hpos)] at hst
    dsimp only at hst
    rw [if_pos (by omega)] at hst
    cases hst

theorem evolution_touched (ht : JobsTouched l l') : Evolution fp l l' := by
  obtain ⟨g, hrows, hg⟩ := ht.rows
  refine .of_jobs ht.blobs fun id hj => ?_
  obtain ⟨j', hj', hid⟩ := hj
  obtain ⟨j, hj, rfl⟩ := List.mem_map.mp (hrows ▸ hj')
  exact Or.inl ⟨j, hj, (hg j).2.1.symm.trans hid⟩

theorem evolution_scheduled {id : String} {now : Time}
    (hs : scheduleOrphanCleanup l id now = .ok l') : Evolution {} l l' := by
  obtain ⟨blob, hblob, rfl, hcount, hstatus, n, hn, he⟩ := scheduleOrphanCleanup_ok hs
  have hmoved : ∀ b, (scheduled blob.id b).status = .staging → b.status = .staging := by
    intro b hst
    rw [scheduled] at hst
    split at hst
    · cases hst
    · exact hst
  refine .of_rows (he.blobs ▸ hn.rows) (fun b _ => ?_) fun b hb hst hj => ?_
  · rw [scheduled]
    split
    · next hb => exact ⟨rfl, rfl, .doomed (by rw [hb.2.1]; decide) rfl rfl rfl⟩
    · exact .refl _ b
  · rw [he.hasJob, HasJob, hn.jobs] at hj
    refine hj.imp_right fun hmem => ?_
    rw [List.map_singleton, List.mem_singleton] at hmem
    have hbb := l.blobs.eq_of_clash hb hblob (StorageBlob.clash_of_id hmem)
    have hstaging := hmoved b hst
    rw [hbb] at hstaging
    rcases hstatus with ⟨horphaned, -⟩ | hpending
    · exact absurd (hstaging.symm.trans horphaned) (by decide)
    · exact absurd (hstaging.symm.trans hpending) (by decide)

end Shapes

/-! ## Every call -/

/-- What the call may add, activate, enqueue and drop in the ledger `l`. -/
def LedgerOp.footprint (l : Ledger) : LedgerOp → Footprint
  | .createStaging blob _ _ => { new := [blob] }
  | .createStagingBatch blobs _ _ _ => { new := blobs }
  | .activate activations _ => { activations := activations }
  | .releaseStaging blobID => { removed := fun id => id = blobID }
  | .releaseStagingBatch ids _ => { removed := fun id => id ∈ ids }
  | .enqueueCleanup requests _ _ => { enqueued := requests.map (·.blobID) }
  | .registerOrphan blob => { new := [blob] }
  | .complete id owner =>
      { removed := fun blobID =>
          ∃ j ∈ l.jobs.rows, j.id = id ∧ j.leaseOwner = some owner ∧ j.blobID = blobID }
  | _ => {}

/-- **The evolution of the ledger**: every successful call stays in its footprint. -/
theorem run_evolves {op : LedgerOp} (h : op.run l = .ok l') :
    Evolution (LedgerOp.footprint l op) l l' := by
  cases op with
  | createStaging blob lease now => exact evolution_staged (createStagingWithLease_ok h)
  | createStagingBatch blobs n lease now =>
      exact evolution_staged (createStagingBatchWithLease_ok h)
  | renewStagingLease ids lease n now =>
      cases h
      obtain ⟨_, hr, -⟩ := renewStagingLease_rewrites l ids lease n now
      replace hr : Rewrites (withQuota l l.quota.usedBytes l.quota.reservedBytes) _ _ := hr
      exact .of_rewrites hr fun b _ => descends_renewed _ _ _ b
  | reserve blobID bytes =>
      -- nothing to reserve, or a staging row that grows
      rcases reserve_ok h with rfl | ⟨-, -, -, -, hr⟩
      · exact .refl _ _
      · refine .of_rewrites hr fun b _ => ?_
        rw [grown]
        split
        · exact ⟨rfl, rfl, .stays rfl rfl (Nat.le_add_right _ _)⟩
        · exact .refl _ b
  | activate as n =>
      obtain ⟨found, ha⟩ := activateStagingBatch_ok h
      exact evolution_activation ha
  | releaseReferences paths now n => exact evolution_released (releaseReferences_ok h)
  | releaseStaging blobID =>
      obtain ⟨p, hp, hs⟩ := releaseStaging_ok h
      refine .of_dropped hs.dropped fun b hb hpb => ⟨hp b hpb, ?_⟩
      rw [hs.staging b hb hpb]
      decide
  | releaseStagingBatch ids n =>
      obtain ⟨p, hp, hs⟩ := releaseStagingBatch_ok h
      refine .of_dropped hs.dropped fun b hb hpb => ⟨hp b hpb, ?_⟩
      rw [hs.staging b hb hpb]
      decide
  | expireStaging before limit now =>
      obtain ⟨p, jobs, -, hs⟩ := expire_ok h
      exact evolution_sealed hs
  -- the rows of the call that are still staging are sealed, without a job
  | sealStaging ids n =>
      have hr : Rewrites (withQuota l l.quota.usedBytes l.quota.reservedBytes) (sealedIn ids) l' :=
        sealStagingForCleanupBatch_ok h
      refine .of_rewrites hr fun b _ => ?_
      rw [sealedIn]
      split
      · next hb => exact ⟨rfl, rfl, .doomed (by rw [hb.2.1]; decide) rfl rfl rfl⟩
      · exact .refl _ b
  | enqueueCleanup requests now n =>
      have he := enqueue_ok h
      refine .of_jobs he.blobs fun id hj => ((he.hasJob id).mp hj).imp_right fun hmem => ?_
      obtain ⟨job, hjob, rfl⟩ := List.mem_map.mp hmem
      obtain ⟨r, hr, rfl⟩ := List.mem_map.mp hjob
      exact List.mem_map.mpr ⟨r, hr, rfl⟩
  | registerOrphan blob =>
      obtain ⟨-, -, hjobs, -, hrows⟩ := registerOrphan_ok h
      refine ⟨fun b' hb' => ?_, fun b hb => ?_, fun b' _ _ hj => ?_⟩
      · rcases List.mem_append.mp (hrows ▸ hb') with hold | hnew
        · exact Or.inl ⟨b', hold, .refl _ b'⟩
        · rw [List.mem_singleton.mp hnew]
          exact Or.inr ⟨blob, List.mem_singleton_self blob, ⟨rfl, rfl, rfl, rfl, rfl⟩⟩
      · exact Or.inr ⟨b, hrows ▸ List.mem_append_left _ hb, .refl _ b⟩
      · rw [HasJob, hjobs] at hj
        exact Or.inl hj
  | scheduleOrphanCleanup id now => exact evolution_scheduled h
  | claim id owner now leaseUntil =>
      cases h
      exact evolution_touched (claimCleanupJob_touches l id owner now leaseUntil)
  | renewCleanupLease id owner leaseUntil =>
      cases h
      exact evolution_touched (renewCleanupJobLease_touches l id owner leaseUntil)
  | fail id owner message nextRetryAt => exact evolution_touched (failCleanupJob_ok h)
  | complete id owner =>
      obtain ⟨blob, hc⟩ := completeCleanupJob_ok h
      refine .of_dropped hc.dropped fun b hb hid => ?_
      rw [l.blobs.eq_of_clash hb hc.mem (StorageBlob.clash_of_id (beq_iff_eq.mp hid))]
      exact ⟨hc.claimed, hc.inactive⟩
  | updateMaxBytes maxBytes =>
      obtain ⟨-, -, rfl⟩ := updateMaxBytes_ok.mp h
      exact .of_jobs rfl fun _ hj => Or.inl hj

end LedgerEvolution
