import LightOss.LedgerExactness

/-! # Cleanup leases — one owner at a time, and one completion

    Any number of workers claim, renew, fail and complete cleanup jobs, each claim
    under a token of its own, while every other transaction of the system goes on
    around them.

    Two facts about single steps carry the fencing (`apply_jobEvolution`): a job row
    gets a token only from the claim that made it up, and a job id is never reused.  So
    a token that was lost is stale for good (`stale_step`), a worker with a stale token
    changes nothing (`worker_fenced`), and a job that was completed stays finished, with
    its blob (`finished_step`). -/

namespace CleanupLease

open KeyedTable Fallible LedgerRows BlobRepository LedgerSpecs LedgerMoves LedgerOps LedgerEvolution
open LedgerInvariant PublishLifecycle StepSystem StorageSystem LedgerExactness

variable {l l' m : Ledger}

/-! ## What a call does to the job rows -/

/-- Job ids are not reused, and an owner is kept, cleared or one of `claims`. -/
structure JobEvolution (claims : String → Prop) (l l' : Ledger) : Prop where
  nextJobID : l.nextJobID ≤ l'.nextJobID
  origin : ∀ j' ∈ l'.jobs.rows,
    (∃ j ∈ l.jobs.rows, j'.id = j.id
      ∧ (j'.leaseOwner = j.leaseOwner ∨ ∀ token ∈ j'.leaseOwner, claims token))
    ∨ (l.nextJobID ≤ j'.id ∧ j'.leaseOwner = none)

section Jobs

variable {claims : String → Prop}

theorem JobEvolution.of_subset (hnext : l'.nextJobID = l.nextJobID)
    (hjobs : ∀ j ∈ l'.jobs.rows, j ∈ l.jobs.rows) : JobEvolution claims l l' :=
  ⟨Nat.le_of_eq hnext.symm, fun j hj => Or.inl ⟨j, hjobs j hj, rfl, Or.inl rfl⟩⟩

theorem JobEvolution.of_rewrites {g : StorageBlob → StorageBlob} {used reserved : Nat}
    (hr : Rewrites (withQuota l used reserved) g l') : JobEvolution claims l l' :=
  .of_subset hr.nextJobID fun _ hj => hr.jobs ▸ hj

theorem JobEvolution.refl (l : Ledger) : JobEvolution claims l l :=
  .of_subset rfl fun _ hj => hj

/-- Rows were deleted, and their jobs with them. -/
theorem JobEvolution.of_dropped {p : StorageBlob → Bool} {used reserved : Nat}
    (hd : Dropped (withQuota l used reserved) p l') : JobEvolution claims l l' :=
  .of_subset hd.nextJobID fun _ hj => (hd.mem_jobs.mp hj).1

theorem JobEvolution.of_enqueued {jobs : List StorageCleanupJob} (hjobs : m.jobs = l.jobs)
    (hnext : m.nextJobID = l.nextJobID) (he : Enqueued m jobs l') : JobEvolution claims l l' where
  nextJobID := hnext ▸ he.nextJobID
  origin := by
    intro j' hj'
    rcases he.origin j' hj' with hold | ⟨hnone, ⟨j, hj, hid, -⟩ | ⟨hge, -⟩⟩
    · exact Or.inl ⟨j', hjobs ▸ hold, rfl, Or.inl rfl⟩
    · exact Or.inl ⟨j, hjobs ▸ hj, hid, Or.inr (by rw [hnone]; exact nofun)⟩
    · exact Or.inr ⟨hnext ▸ hge, hnone⟩

/-- Each job kept its token or got one from a claim. -/
theorem JobEvolution.of_map {g : StorageCleanupJob → StorageCleanupJob}
    (hnext : l'.nextJobID = l.nextJobID) (hrows : l'.jobs.rows = l.jobs.rows.map g)
    (hg : ∀ j, (g j).id = j.id
      ∧ ((g j).leaseOwner = j.leaseOwner ∨ ∀ token ∈ (g j).leaseOwner, claims token)) :
    JobEvolution claims l l' where
  nextJobID := Nat.le_of_eq hnext.symm
  origin := by
    intro j' hj'
    obtain ⟨j, hj, rfl⟩ := List.mem_map.mp (hrows ▸ hj')
    exact Or.inl ⟨j, hj, hg j⟩

theorem jobEvolution_sealed {p : StorageBlob → Bool} {jobs : List StorageCleanupJob}
    (hs : Sealed l p jobs l') : JobEvolution claims l l' := by
  obtain ⟨m, hm, he⟩ := hs.steps
  exact .of_enqueued hm.jobs hm.nextJobID he

theorem jobEvolution_released {paths : List String} (hr : Released l paths l') :
    JobEvolution claims l l' := by
  obtain ⟨m, jobs, hm, he, -⟩ := hr.moves
  exact .of_enqueued hm.jobs hm.nextJobID he

end Jobs

/-- The token a call claims a job with. -/
def claimed : LedgerOp → String → Prop
  | .claim _ owner _ _ => fun token => token = owner
  | _ => fun _ => False

/-- Every successful call keeps the job rows in order. -/
theorem run_jobEvolution {op : LedgerOp} (h : op.run l = .ok l') :
    JobEvolution (claimed op) l l' := by
  cases op with
  | createStaging blob lease now =>
      have hs := createStagingWithLease_ok h
      exact .of_subset hs.nextJobID fun _ hj => hs.jobs ▸ hj
  | createStagingBatch blobs n lease now =>
      have hs := createStagingBatchWithLease_ok h
      exact .of_subset hs.nextJobID fun _ hj => hs.jobs ▸ hj
  | renewStagingLease ids lease n now =>
      cases h
      obtain ⟨_, hr, -⟩ := renewStagingLease_rewrites l ids lease n now
      exact .of_subset hr.nextJobID fun _ hj => hr.jobs ▸ hj
  | reserve blobID bytes =>
      rcases reserve_ok h with rfl | ⟨-, -, -, -, hr⟩
      · exact .refl _
      · exact .of_rewrites hr
  | activate as n =>
      obtain ⟨found, ha⟩ := activateStagingBatch_ok h
      exact .of_rewrites ha.rewrites
  | releaseReferences paths now n => exact jobEvolution_released (releaseReferences_ok h)
  | releaseStaging blobID =>
      obtain ⟨p, -, hs⟩ := releaseStaging_ok h
      exact .of_dropped hs.dropped
  | releaseStagingBatch ids n =>
      obtain ⟨p, -, hs⟩ := releaseStagingBatch_ok h
      exact .of_dropped hs.dropped
  | expireStaging before limit now =>
      obtain ⟨p, jobs, -, hs⟩ := expire_ok h
      exact jobEvolution_sealed hs
  | sealStaging ids n =>
      have hr := sealStagingForCleanupBatch_ok h
      exact .of_subset hr.nextJobID fun _ hj => hr.jobs ▸ hj
  | enqueueCleanup requests now n => exact .of_enqueued rfl rfl (enqueue_ok h)
  | registerOrphan blob =>
      obtain ⟨-, -, hjobs, hnext, -⟩ := registerOrphan_ok h
      exact .of_subset hnext fun _ hj => hjobs ▸ hj
  | scheduleOrphanCleanup id now =>
      obtain ⟨_, -, -, -, -, m, hm, he⟩ := scheduleOrphanCleanup_ok h
      exact .of_enqueued hm.jobs hm.nextJobID he
  | claim id owner now leaseUntil =>
      cases h
      refine .of_map rfl rfl fun j => ?_
      split
      · refine ⟨rfl, Or.inr fun token htoken => ?_⟩
        exact (Option.mem_some_iff.mp htoken).symm
      · exact ⟨rfl, Or.inl rfl⟩
  | renewCleanupLease id owner leaseUntil =>
      cases h
      refine .of_map rfl rfl fun j => ?_
      split <;> exact ⟨rfl, Or.inl rfl⟩
  | fail id owner message nextRetryAt =>
      rw [LedgerOp.run, failCleanupJob] at h
      obtain ⟨_, -, h⟩ := bind_eq_ok.mp h
      cases pure_eq_ok.mp h
      refine .of_map rfl rfl fun j => ?_
      split
      · exact ⟨rfl, Or.inr fun _ h => by cases h⟩
      · exact ⟨rfl, Or.inl rfl⟩
  | complete id owner =>
      obtain ⟨blob, hc⟩ := completeCleanupJob_ok h
      exact .of_dropped hc.dropped
  | updateMaxBytes maxBytes =>
      obtain ⟨-, -, rfl⟩ := updateMaxBytes_ok.mp h
      exact .of_subset rfl fun _ hj => hj

/-- The token a step claims a job with. -/
def StorageOp.claims : StorageOp → String → Prop
  | .ledger op => claimed op
  | _ => fun _ => False

/-- **What a transaction does to the jobs**, in at most two steps: only a claim gives out a
    token. -/
theorem apply_jobEvolution (s : State) (op : StorageOp) :
    ∃ m, JobEvolution (StorageOp.claims op) s.db.ledger m
      ∧ JobEvolution (StorageOp.claims op) m (op.apply s).db.ledger := by
  cases op with
  | ledger op =>
      rcases apply_cases s.db.ledger op with hrun | hsame
      · exact ⟨_, run_jobEvolution hrun, .refl _⟩
      · refine ⟨s.db.ledger, .refl _, ?_⟩
        rw [StorageOp.apply, hsame]
        exact .refl _
  | publish p now =>
      rw [StorageOp.apply]
      cases hp : publishTransaction s.db p.stagedBlobs (p.publishMetadata now) now with
      | error err => exact ⟨_, .refl _, .refl _⟩
      | ok db' =>
          -- two steps: the activation, then the release of what was replaced
          obtain ⟨found, m, releasedPaths, hpub⟩ := publishTransaction_ok hp
          exact ⟨m, .of_rewrites hpub.activation.rewrites, jobEvolution_released hpub.released⟩
  | confirm stagedBlobs now =>
      rw [StorageOp.apply]
      cases hc : confirmPublishOutcome s.db.ledger stagedBlobs now with
      | error err => exact ⟨_, .refl _, .refl _⟩
      | ok r =>
          obtain ⟨outcome, l'⟩ := r
          rcases confirmPublishOutcome_ok hc with ⟨-, hsame, -⟩ | ⟨-, -, hsealed⟩
          · refine ⟨_, .refl _, ?_⟩
            show JobEvolution _ s.db.ledger l'
            rw [hsame]
            exact .refl _
          · exact ⟨_, .refl _, jobEvolution_sealed hsealed⟩
  | abort ids => exact ⟨_, .refl _, .refl _⟩
  | catalog w => exact ⟨_, .refl _, .refl _⟩

/-! ## The workers -/

/-- The storage, the clock, and the tokens handed out so far. -/
structure LeaseState where
  state : State
  clock : Time
  tokens : List String := []

/-- Time passes, a worker lists or a transaction runs. -/
inductive LeaseAction where
  | tick (t : Time)
  | listClaimCandidates (now : Time) (limit : Nat)
  | step (op : StorageOp)

/-- A claim has a token of its own and a clock reading that is not ahead of the clock. -/
def FreshClaim (x : LeaseState) : StorageOp → Prop
  | .ledger (.claim _ owner now _) => owner ∉ x.tokens ∧ now ≤ x.clock
  | _ => True

/-- The clock does not go back, and nobody reads a time ahead of it. -/
def LeaseAction.Enabled (x : LeaseState) : LeaseAction → Prop
  | .tick t => x.clock ≤ t
  | .listClaimCandidates now _ => now ≤ x.clock
  | .step op => op.Allowed x.state ∧ FreshClaim x op

/-- A claim hands out its token. -/
def tokensAfter (tokens : List String) : StorageOp → List String
  | .ledger (.claim _ owner _ _) => owner :: tokens
  | _ => tokens

theorem mem_tokensAfter {tokens : List String} {token : String} (op : StorageOp)
    (h : token ∈ tokens) : token ∈ tokensAfter tokens op := by
  unfold tokensAfter
  split
  · exact List.mem_cons_of_mem _ h
  · exact h

/-- Listing only reads. -/
def LeaseAction.apply (x : LeaseState) : LeaseAction → LeaseState
  | .tick t => { x with clock := t }
  | .listClaimCandidates _ _ => x
  | .step op => { x with state := op.apply x.state, tokens := tokensAfter x.tokens op }

/-- Workers around the storage system. -/
def leaseSystem : System LeaseState LeaseAction where
  start x := x.state = State.initial ∧ x.tokens = []
  step x a y := a.Enabled x ∧ y = a.apply x

variable {x y z : LeaseState}

/-- The workers are part of the storage system. -/
theorem storage_reachable (h : Reachable leaseSystem x) : Reachable storageSystem x.state := by
  refine Reachable.simulate LeaseState.state ?_ ?_ h
  · rintro x ⟨hstart, -⟩
    exact hstart
  · rintro x a y - - ⟨hen, rfl⟩
    cases a with
    | tick t => exact Or.inl rfl
    | listClaimCandidates now limit => exact Or.inl rfl
    | step op => exact Or.inr ⟨op, hen.1, rfl⟩

/-- The job `id` is held under `token`. -/
def Held (l : Ledger) (id : Nat) (token : String) : Prop :=
  ∃ j ∈ l.jobs.rows, j.id = id ∧ j.leaseOwner = some token

/-- Who holds a job afterwards, not by a claim of this step, held it before. -/
theorem held_evolves {claims : String → Prop} {id : Nat} {token : String}
    (he : JobEvolution claims l l') (hclaims : ¬ claims token) (h : Held l' id token) :
    Held l id token := by
  obtain ⟨j', hj', hid, howner⟩ := h
  rcases he.origin j' hj' with ⟨j, hj, hsame, hkept | hclaimed⟩ | ⟨-, hnone⟩
  · exact ⟨j, hj, hsame.symm.trans hid, hkept.symm.trans howner⟩
  · exact absurd (hclaimed token howner) hclaims
  · rw [hnone] at howner
    exact nomatch howner

/-- A token in use was handed out. -/
theorem token_of_held (h : Reachable leaseSystem x) {id : Nat} {token : String}
    (hheld : Held x.state.db.ledger id token) : token ∈ x.tokens := by
  revert id token
  refine h.invariant (I := fun x => ∀ {id : Nat} {token : String},
    Held x.state.db.ledger id token → token ∈ x.tokens) ?_ ?_
  · rintro x ⟨hstart, -⟩ id token ⟨j, hj, -⟩
    rw [hstart] at hj
    exact nomatch hj
  · rintro x a y - hx ⟨-, rfl⟩ id token hheld
    cases a with
    | tick t => exact hx hheld
    | listClaimCandidates now limit => exact hx hheld
    | step op =>
        obtain ⟨m, h1, h2⟩ := apply_jobEvolution x.state op
        by_cases hclaims : StorageOp.claims op token
        · cases op with
          | ledger op =>
              cases op with
              | claim cid owner now leaseUntil =>
                  have howner : token = owner := hclaims
                  rw [howner]
                  exact List.mem_cons_self
              | _ => exact hclaims.elim
          | _ => exact hclaims.elim
        · have hold := hx (held_evolves h1 hclaims (held_evolves h2 hclaims hheld))
          exact mem_tokensAfter op hold

/-- The token was handed out, and the job is not, or no longer, held under it. -/
def Stale (id : Nat) (token : String) (x : LeaseState) : Prop :=
  token ∈ x.tokens ∧ ¬ Held x.state.db.ledger id token

/-- A token never comes back. -/
theorem stale_step {id : Nat} {token : String} {a : LeaseAction} (h : Stale id token x)
    (hs : leaseSystem.step x a y) : Stale id token y := by
  obtain ⟨hen, rfl⟩ := hs
  cases a with
  | tick t => exact h
  | listClaimCandidates now limit => exact h
  | step op =>
      have hclaims : ¬ StorageOp.claims op token := by
        cases op with
        | ledger op =>
            cases op with
            | claim cid owner now leaseUntil =>
                rintro rfl
                exact hen.2.1 h.1
            | _ => exact fun hf => hf
        | _ => exact fun hf => hf
      obtain ⟨m, h1, h2⟩ := apply_jobEvolution x.state op
      refine ⟨mem_tokensAfter op h.1, fun hheld => ?_⟩
      exact h.2 (held_evolves h1 hclaims (held_evolves h2 hclaims hheld))

/-! ## Exclusion and fencing -/

/-- An update that matches no job changes nothing. -/
theorem updateJobs_none {p : StorageCleanupJob → Bool} {f : StorageCleanupJob → StorageCleanupJob}
    {hf : KeepsKey StorageCleanupJob.clash f} (hnone : ∀ j ∈ l.jobs.rows, p j = false) :
    l.updateJobs p f hf = l := by
  have hjobs : l.jobs.updateWhere p f hf = l.jobs := by
    refine Table.ext_rows ?_
    rw [Table.rows_updateWhere, List.map_congr_left (g := id), List.map_id]
    intro j hj
    rw [hnone j hj]
    rfl
  rw [Ledger.updateJobs, hjobs]

theorem count_none {p : StorageCleanupJob → Bool} (hnone : ∀ j ∈ l.jobs.rows, p j = false) :
    l.jobs.count p = 0 := by
  rw [Table.count, Table.select, List.filter_eq_nil_iff.mpr, List.length_nil]
  intro j hj
  rw [hnone j hj]
  exact Bool.false_ne_true

/-- A claim on a job whose lease runs past the reading of the clock does nothing. -/
theorem claim_excluded {j : StorageCleanupJob} (hj : j ∈ l.jobs.rows) {t now : Time}
    (hlease : j.leaseExpiresAt = some t) (hlt : now < t) (owner : String) (leaseUntil : Time) :
    claimCleanupJob l j.id owner now leaseUntil = (false, l) := by
  have hnone : ∀ a ∈ l.jobs.rows, (decide (a.id = j.id) && claimable now a) = false := by
    intro a ha
    by_cases hid : a.id = j.id
    · have haj := l.jobs.eq_of_clash ha hj (StorageCleanupJob.clash_of_id hid)
      rw [haj, claimable, hlease]
      simp only [Option.mem_some_iff, forall_eq', Bool.and_eq_false_iff, decide_eq_false_iff_not]
      exact Or.inr fun h => absurd h.2 (not_le_of_gt hlt)
    · rw [decide_eq_false hid, Bool.false_and]
  refine Prod.ext ?_ (updateJobs_none hnone)
  rw [claimCleanupJob, count_none hnone]
  rfl

/-- A token that does not hold the job matches no row. -/
theorem ownedBy_none {id : Nat} {token : String} (h : ¬ Held l id token) :
    ∀ j ∈ l.jobs.rows, ownedBy id token j = false :=
  fun j hj => decide_eq_false fun hown => h ⟨j, hj, hown.1, hown.2⟩

/-- The three calls a worker makes under its token. -/
def WorkerOp (id : Nat) (token : String) (op : LedgerOp) : Prop :=
  (∃ leaseUntil, op = .renewCleanupLease id token leaseUntil)
    ∨ (∃ message nextRetryAt, op = .fail id token message nextRetryAt)
    ∨ op = .complete id token

/-- Without the job under its token, a worker changes nothing. -/
theorem worker_fenced {id : Nat} {token : String} (h : ¬ Held l id token) {op : LedgerOp}
    (hop : WorkerOp id token op) : op.apply l = l := by
  have hnone := ownedBy_none h
  rcases hop with ⟨leaseUntil, rfl⟩ | ⟨message, nextRetryAt, rfl⟩ | rfl
  · refine apply_of_ok (congrArg Except.ok ?_)
    exact updateJobs_none hnone
  · apply apply_of_error
    rw [LedgerOp.run, failCleanupJob, ensure, count_none hnone]
    rfl
  · have hfirst : l.jobs.first? (ownedBy id token) = none := Table.first?_eq_none.mpr hnone
    apply apply_of_error
    rw [LedgerOp.run, completeCleanupJob, hfirst]
    rfl

/-! ## One completion -/

/-- The job is gone, and its id will not be given out again. -/
def Gone (id : Nat) (l : Ledger) : Prop := id < l.nextJobID ∧ ∀ j ∈ l.jobs.rows, j.id ≠ id

/-- A job that is gone does not come back: ids are not reused. -/
theorem gone_evolves {claims : String → Prop} {id : Nat} (he : JobEvolution claims l l')
    (h : Gone id l) : Gone id l' := by
  refine ⟨Nat.lt_of_lt_of_le h.1 he.nextJobID, fun j' hj' hid => ?_⟩
  rcases he.origin j' hj' with ⟨j, hj, hsame, -⟩ | ⟨hge, -⟩
  · exact h.2 j hj (hsame.symm.trans hid)
  · exact absurd h.1 (Nat.not_lt.mpr (hid ▸ hge))

/-- The blob's row is gone, and its id was issued. -/
def Erased (blobID : String) (s : State) : Prop :=
  blobID ∈ s.registry.issuedIDs ∧ ∀ b ∈ s.db.ledger.blobs.rows, b.id ≠ blobID

/-- A blob that is gone does not come back either, unless it is made anew. -/
theorem absent_evolves {blobID : String} {fp : Footprint} (he : Evolution fp l l')
    (hnew : ∀ n ∈ fp.new, n.id ≠ blobID) (h : ∀ b ∈ l.blobs.rows, b.id ≠ blobID) :
    ∀ b ∈ l'.blobs.rows, b.id ≠ blobID := by
  intro b' hb'
  rcases he.origin b' hb' with ⟨b, hb, hd⟩ | ⟨n, hn, hs⟩
  · exact hd.id ▸ h b hb
  · exact hs.id ▸ hnew n hn

/-- Inserted rows have ids that were never issued. -/
theorem new_fresh {s : State} {op : StorageOp} (hop : op.Allowed s) :
    ∀ n ∈ (StorageOp.footprint s op).new, n.id ∉ s.registry.issuedIDs := by
  intro n hn
  cases op with
  | ledger op =>
      cases op with
      | createStaging blob lease now => exact hop.1.freshIDs n hn
      | createStagingBatch blobs k lease now => exact hop.freshIDs n hn
      | registerOrphan blob =>
          rw [List.mem_singleton.mp hn]
          exact hop.freshID
      | _ => exact nomatch hn
  | _ => exact nomatch hn

/-- A blob that was deleted is made anew by no transaction. -/
theorem erased_apply {s : State} {op : StorageOp} {blobID : String} (hreg : RegistryOk s.registry)
    (hop : op.Allowed s) (h : Erased blobID s) : Erased blobID (op.apply s) := by
  obtain ⟨m, h1, h2⟩ := apply_evolves s op
  refine ⟨(registry_step hreg hop).1.issuedIDs _ h.1, absent_evolves h2 nofun ?_⟩
  refine absent_evolves h1 (fun n hn hid => ?_) h.2
  exact new_fresh hop n hn (hid ▸ h.1)

/-- What a completion leaves behind: the job and its blob are gone for good. -/
def Finished (id : Nat) (blobID : String) (x : LeaseState) : Prop :=
  Gone id x.state.db.ledger ∧ Erased blobID x.state

/-- **The step lemma**: a finished job stays finished. -/
theorem finished_step {id : Nat} {blobID : String} {a : LeaseAction}
    (hr : Reachable leaseSystem x) (h : Finished id blobID x) (hs : leaseSystem.step x a y) :
    Finished id blobID y := by
  obtain ⟨hen, rfl⟩ := hs
  cases a with
  | tick t => exact h
  | listClaimCandidates now limit => exact h
  | step op =>
      obtain ⟨m, h1, h2⟩ := apply_jobEvolution x.state op
      have hok := storageOk_of_reachable (storage_reachable hr)
      exact ⟨gone_evolves h2 (gone_evolves h1 h.1), erased_apply hok.registry hen.1 h.2⟩

/-- A successful completion pays back exactly its blob and finishes the job. -/
theorem finished_completed {id : Nat} {owner : String} {blob : StorageBlob} {s : State}
    (hok : StorageOk s) (hc : Completed s.db.ledger id owner blob l') :
    Gone id l' ∧ blob.id ∈ s.registry.issuedIDs ∧ ∀ b ∈ l'.blobs.rows, b.id ≠ blob.id := by
  obtain ⟨j, hj, hid, -, hblob⟩ := hc.claimed
  refine ⟨⟨?_, fun j' hj' hid' => ?_⟩, hok.rows.ids blob hc.mem, fun b hb => ?_⟩
  · rw [hc.dropped.nextJobID]
    exact hid ▸ hok.ledger.jobs.fresh j hj
  · obtain ⟨hmem, hkept⟩ := hc.dropped.mem_jobs.mp hj'
    have hjj := s.db.ledger.jobs.eq_of_clash hmem hj
      (StorageCleanupJob.clash_of_id (hid'.trans hid.symm))
    exact hkept blob hc.mem (beq_self_eq_true _) (hjj ▸ hblob.symm)
  · have hne := (hc.dropped.mem_rows.mp hb).2
    exact fun hid => Bool.false_ne_true (hne.symm.trans (beq_iff_eq.mpr hid))

/-- Nothing completes a job that is gone. -/
theorem complete_gone {id : Nat} (h : Gone id l) (owner : String) :
    completeCleanupJob l id owner ≠ .ok l' := by
  intro hc
  obtain ⟨blob, hcompleted⟩ := completeCleanupJob_ok hc
  obtain ⟨j, hj, hid, -⟩ := hcompleted.claimed
  exact h.2 j hj hid

/-- **Cleanup leases fence.**  While a lease is unexpired every claim is refused; a token
    that was replaced or cleared changes nothing ever after; and a completion pays its
    blob back once: neither the job nor the blob can be completed again. -/
theorem cleanup_lease_fencing (hx : Reachable leaseSystem x) :
    (∀ j ∈ x.state.db.ledger.jobs.rows, ∀ t, j.leaseExpiresAt = some t → x.clock < t →
      ∀ owner now leaseUntil, now ≤ x.clock →
        claimCleanupJob x.state.db.ledger j.id owner now leaseUntil = (false, x.state.db.ledger))
    ∧ (∀ id token a y, Held x.state.db.ledger id token → leaseSystem.step x a y →
      ¬ Held y.state.db.ledger id token → ∀ as z, Run leaseSystem y as z →
        ∀ op, WorkerOp id token op →
          (StorageOp.ledger op).apply z.state = z.state
            ∧ op.apply z.state.db.ledger = z.state.db.ledger)
    ∧ (∀ id owner l', completeCleanupJob x.state.db.ledger id owner = .ok l' →
      ∃ blob ∈ x.state.db.ledger.blobs.rows,
        l'.quota.usedBytes + blob.usedSize = x.state.db.ledger.quota.usedBytes
        ∧ l'.quota.reservedBytes + blob.reservedSize = x.state.db.ledger.quota.reservedBytes
        ∧ ∀ y, leaseSystem.step x (.step (.ledger (.complete id owner))) y →
          ∀ as z, Run leaseSystem y as z → ∀ owner' l'',
            completeCleanupJob z.state.db.ledger id owner' ≠ .ok l''
            ∧ ∀ id' blob', Completed z.state.db.ledger id' owner' blob' l'' →
              blob'.id ≠ blob.id) := by
  refine ⟨?_, ?_, ?_⟩
  · intro j hj t hlease hlt owner now leaseUntil hnow
    exact claim_excluded hj hlease (lt_of_le_of_lt hnow hlt) owner leaseUntil
  · intro id token a y hheld hstep hlost as z hrun op hop
    -- the token was handed out before and is not on the job now
    have hstale : Stale id token y := by
      have htoken := token_of_held hx hheld
      refine ⟨?_, hlost⟩
      obtain ⟨-, rfl⟩ := hstep
      cases a with
      | tick t => exact htoken
      | listClaimCandidates now limit => exact htoken
      | step op => exact mem_tokensAfter op htoken
    -- stale for the rest of the run, by induction on it
    have hz : Stale id token z :=
      hrun.stable (fun _ _ _ _ hp hs => stale_step hp hs) (hx.step hstep) hstale
    have hsame := worker_fenced hz.2 hop
    refine ⟨?_, hsame⟩
    have hnote : z.state.registry.note op = z.state.registry := by
      rcases hop with ⟨_, rfl⟩ | ⟨_, _, rfl⟩ | rfl <;> rfl
    rw [StorageOp.apply, hsame, hnote]
  · intro id owner l' hcomplete
    obtain ⟨blob, hc⟩ := completeCleanupJob_ok hcomplete
    have hok := storageOk_of_reachable (storage_reachable hx)
    refine ⟨blob, hc.mem, ?_, ?_, ?_⟩
    · rw [hc.dropped.quota]
      exact Nat.sub_add_cancel hc.used
    · rw [hc.dropped.quota]
      exact Nat.sub_add_cancel hc.reserved
    · intro y hstep as z hrun owner' l''
      -- what is gone after the completion stays gone
      obtain ⟨hgone, hissued, habsent⟩ := finished_completed hok hc
      have hy : Finished id blob.id y := by
        obtain ⟨-, rfl⟩ := hstep
        have happly : (LedgerOp.complete id owner).apply x.state.db.ledger = l' :=
          apply_of_ok hcomplete
        refine ⟨?_, hissued, ?_⟩
        · show Gone id ((LedgerOp.complete id owner).apply x.state.db.ledger)
          rw [happly]
          exact hgone
        · show ∀ b ∈ ((LedgerOp.complete id owner).apply x.state.db.ledger).blobs.rows, _
          rw [happly]
          exact habsent
      have hz : Finished id blob.id z :=
        hrun.stable (fun _ _ _ hr hp hs => finished_step hr hp hs) (hx.step hstep) hy
      refine ⟨complete_gone hz.1 owner', fun id' blob' hc' => ?_⟩
      exact hz.2.2 blob' hc'.mem

/-! An aborted upload whose cleanup job one worker has claimed. -/

/-- An enabled step from a reachable state. -/
theorem reachable_leaseApply {a : LeaseAction} (h : Reachable leaseSystem x) (hen : a.Enabled x) :
    Reachable leaseSystem (a.apply x) := h.step ⟨hen, rfl⟩

/-- An upload that was given up. -/
def abortedUpload : LeaseState :=
  let x : LeaseState := { state := State.initial, clock := 5 }
  let x := LeaseAction.apply x (.step (.catalog (.createBucket { name := "docs" })))
  let x := LeaseAction.apply x (.step (.ledger (.createStaging uploadedBlob 60 0)))
  LeaseAction.apply x (.step (.abort ["blob-1"]))

/-- The cleanup job of that upload. -/
def enqueuedCleanup : LeaseState :=
  LeaseAction.apply abortedUpload
    (.step (.ledger (.enqueueCleanup [⟨"blob-1", "objects/1.bin", "aborted"⟩] 5 100)))

/-- A worker claims the job. -/
def claimedCleanup : LeaseState :=
  LeaseAction.apply enqueuedCleanup (.step (.ledger (.claim 1 "worker:1" 5 35)))

theorem claimedCleanup_reachable : Reachable leaseSystem claimedCleanup := by
  have h0 : Reachable leaseSystem { state := State.initial, clock := 5 } := .start ⟨rfl, rfl⟩
  have h1 := reachable_leaseApply (a := .step (.catalog (.createBucket { name := "docs" }))) h0
    ⟨trivial, trivial⟩
  have h2 := reachable_leaseApply (a := .step (.ledger (.createStaging uploadedBlob 60 0))) h1
    ⟨⟨uploadedBlob_new, rfl⟩, trivial⟩
  have h3 : Reachable leaseSystem abortedUpload :=
    reachable_leaseApply (a := .step (.abort ["blob-1"])) h2 ⟨fun _ _ => nofun, trivial⟩
  have h4 : Reachable leaseSystem enqueuedCleanup := by
    refine reachable_leaseApply h3 ⟨fun r hr => ?_, trivial⟩
    rw [List.mem_singleton.mp hr]
    exact ⟨List.mem_cons_self, uploadedBlob, List.mem_cons_self, rfl, rfl⟩
  exact reachable_leaseApply h4 ⟨trivial, nofun, by decide⟩

/-- While the lease runs another worker gets nothing. -/
theorem cleanup_lease_fencing_claimed :
    claimCleanupJob claimedCleanup.state.db.ledger 1 "worker:2" 5 35
      = (false, claimedCleanup.state.db.ledger) :=
  (cleanup_lease_fencing claimedCleanup_reachable).1
    { id := 1, blobID := "blob-1", storagePath := "objects/1.bin", nextRetryAt := 5,
      lastError := "aborted", leaseOwner := some "worker:1", leaseExpiresAt := some 35 }
    (by decide) 35 rfl (by decide) "worker:2" 5 35 (by decide)

end CleanupLease
