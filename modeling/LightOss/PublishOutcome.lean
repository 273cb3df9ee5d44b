import LightOss.LedgerExactness

/-! # Publish outcome — all or nothing, and telling which

    One call of `Publish` in the middle of everything else.  Its transaction can fail
    before the commit, be rolled back, or commit while the response is lost; the
    confirmation transaction can fail in the same ways.  Between any two of its steps
    every other request, worker and expiry may run.

    What the confirmation can rely on is that rows only move forward: without the call
    no row of its blobs becomes active (`noRow_other`), and after it none is staging
    again (`noRow_published`).  `CallOk` says so of a state, each kind of step keeps it
    (`callOk_transaction`, `callOk_confirm`), and with it the rows that the confirmation
    reads tell what the transaction did.  That a transaction that commits did all of its
    work is `complete_published`. -/

namespace PublishOutcome

open KeyedTable Fallible LedgerRows BlobRepository LedgerSpecs LedgerMoves LedgerOps LedgerEvolution
open LedgerInvariant Catalog MetadataServices MetadataReferences StorageAudit PublishLifecycle
open StepSystem StorageSystem LedgerExactness

/-- The arguments of one call; the callback is arbitrary. -/
structure PublishCall where
  stagedBlobs : List StagedBlob
  publishMetadata : Callback Collation.binary

/-- How a transaction can go wrong from outside. -/
inductive Fault where
  | none
  | beforeCommit
  | responseLost
  deriving DecidableEq

/-- Where the call stands; `confirmed none` is `publishOutcomeUnknown`. -/
inductive Phase where
  | ready
  | leaseLost
  | succeeded
  | failed
  | confirmed (outcome : Option PublishLifecycle.PublishOutcome)
  deriving DecidableEq

/-- The system, how far the call is, and what it cannot see. -/
structure CallState where
  state : State
  phase : Phase := .ready
  /-- Whether the transaction of the call was applied, which the call cannot see. -/
  tookEffect : Bool := false

/-- A step of the call, with the fault it meets, or any other transaction. -/
inductive CallAction where
  | other (op : StorageOp)
  | leaseError
  | transaction (fault : Fault) (now : Time)
  | confirm (fault : Fault) (now : Time)

variable {call : PublishCall} {x y : CallState}

/-- No other publication has a blob of this call. -/
def Foreign (call : PublishCall) : StorageOp → Prop
  | .publish p _ => ∀ staged ∈ p.stagedBlobs, staged.id ∉ call.stagedBlobs.map (·.id)
  | _ => True

/-- The call goes through its phases in order; others leave its handles alone. -/
def CallAction.Enabled (call : PublishCall) (x : CallState) : CallAction → Prop
  | .other op => op.Allowed x.state ∧ Foreign call op
  | .leaseError => x.phase = .ready
  | .transaction _ _ => x.phase = .ready
  | .confirm _ _ => x.phase = .failed

/-- A transaction that ended with `result`, seen through `fault`. -/
def runTransaction (x : CallState) (result : Except Err (Database Collation.binary)) :
    Fault → CallState
  | .beforeCommit => { x with phase := .failed }
  | .none =>
      match result with
      | .ok db => { state := { x.state with db := db }, phase := .succeeded, tookEffect := true }
      | .error _ => { x with phase := .failed }
  | .responseLost =>
      match result with
      | .ok db => { state := { x.state with db := db }, phase := .failed, tookEffect := true }
      | .error _ => { x with phase := .failed }

/-- The confirmation that ended with `result`, seen through `fault`. -/
def runConfirmation (x : CallState)
    (result : Except Err (PublishLifecycle.PublishOutcome × Ledger)) :
    Fault → CallState
  | .beforeCommit => { x with phase := .confirmed none }
  | .none =>
      match result with
      | .ok (outcome, l) =>
          { x with state := { x.state with db := { x.state.db with ledger := l } },
                   phase := .confirmed (some outcome) }
      | .error _ => { x with phase := .confirmed none }
  | .responseLost =>
      match result with
      | .ok (_, l) =>
          { x with state := { x.state with db := { x.state.db with ledger := l } },
                   phase := .confirmed none }
      | .error _ => { x with phase := .confirmed none }

/-- What the step leaves. -/
def CallAction.apply (call : PublishCall) (x : CallState) : CallAction → CallState
  | .other op => { x with state := op.apply x.state }
  | .leaseError => { x with phase := .leaseLost }
  | .transaction fault now =>
      runTransaction x
        (publishTransaction x.state.db call.stagedBlobs call.publishMetadata now) fault
  | .confirm fault now =>
      runConfirmation x (confirmPublishOutcome x.state.db.ledger call.stagedBlobs now) fault

/-- The call owns its blobs from the start: they are no longer anybody's to abort. -/
def startState (call : PublishCall) (s : State) : CallState where
  state := { s with registry := { s.registry with
    published := call.stagedBlobs.map (·.id) ++ s.registry.published } }

/-- The call begins in any reachable state, with handles nobody has published yet. -/
def callSystem (call : PublishCall) : System CallState CallAction where
  start x := ∃ s, Reachable storageSystem s
    ∧ (∀ staged ∈ call.stagedBlobs, Publishable s.registry staged
      ∧ staged.id ∉ s.registry.published)
    ∧ x = startState call s
  step x a y := a.Enabled call x ∧ y = a.apply call x

/-- An enabled step from a reachable state. -/
theorem reachable_callApply {a : CallAction} (h : Reachable (callSystem call) x)
    (hen : a.Enabled call x) : Reachable (callSystem call) (a.apply call x) := h.step ⟨hen, rfl⟩

/-! ## All, or nothing -/

/-- The ids of the call. -/
def ids (call : PublishCall) : List String := call.stagedBlobs.map (·.id)

/-- What the transaction makes of a row: active if it is one of the call's, and then
    without the references released on its path. -/
def publishedRow (call : PublishCall) (releasedPaths : List String) (b : StorageBlob) :
    StorageBlob :=
  dereferenced releasedPaths (activated (activationsOf call.stagedBlobs) b)

/-- The release took the last reference of the row. -/
def LostLast (call : PublishCall) (releasedPaths : List String) (b : StorageBlob) : Prop :=
  0 < countStoragePaths releasedPaths b.storagePath
    ∧ (activated (activationsOf call.stagedBlobs) b).refCount
      = countStoragePaths releasedPaths b.storagePath

/-- The whole publication.  `found` are the rows of the staged blobs before the call and
    `releasedPaths` what the callback gave up; both ledgers and both catalogs are tied
    to each other row by row, counter by counter and job by job. -/
structure Complete (call : PublishCall) (db db' : Database Collation.binary)
    (found : List StorageBlob) (releasedPaths : List String) : Prop where
  /-- The callback's metadata, and nothing else, is in the catalog. -/
  metadata : call.publishMetadata db.catalog = .ok (db'.catalog, releasedPaths)
  /-- Each staged blob had its row, which was staging. -/
  foundIDs : found.map (·.id) = ids call
  staging : ∀ b ∈ found, b ∈ db.ledger.blobs.rows ∧ b.status = .staging
  /-- Its activation has the staged size and one reference. -/
  active : ∀ staged ∈ call.stagedBlobs, ∀ b ∈ found, b.id = staged.id →
    activated (activationsOf call.stagedBlobs) b = { b with
      size := staged.size, refCount := 1, status := .active, stagingPath := none,
      stagingLeaseExpiresAt := none }
  /-- The rows afterwards are the rows before, each activated and released. -/
  rows : db'.ledger.blobs.rows = db.ledger.blobs.rows.map (publishedRow call releasedPaths)
  /-- Every released reference was there to be dropped. -/
  released : ∀ path ∈ releasedPaths, path ≠ "" → ∃ b ∈ db.ledger.blobs.rows, b.storagePath = path
    ∧ (activated (activationsOf call.stagedBlobs) b).status = .active
    ∧ countStoragePaths releasedPaths path
      ≤ (activated (activationsOf call.stagedBlobs) b).refCount
  /-- The reserved bytes of the rows became the used bytes of the files. -/
  covered : (found.map (·.size)).sum ≤ db.ledger.quota.reservedBytes
  quota : db'.ledger.quota = { db.ledger.quota with
    usedBytes := db.ledger.quota.usedBytes + (call.stagedBlobs.map (·.size)).sum
    reservedBytes := db.ledger.quota.reservedBytes - (found.map (·.size)).sum }
  /-- A cleanup job exists for what had one and for what lost its last reference. -/
  hasJob : ∀ id, HasJob db'.ledger id ↔ HasJob db.ledger id
    ∨ ∃ b ∈ db.ledger.blobs.rows, b.id = id ∧ LostLast call releasedPaths b
  keptJobs : ∀ j ∈ db.ledger.jobs.rows, ∃ j' ∈ db'.ledger.jobs.rows,
    j'.id = j.id ∧ j'.blobID = j.blobID

/-- Nothing: no metadata, no active blob and no used byte changed. -/
structure NoContribution (db db' : Database Collation.binary) : Prop where
  catalog : db'.catalog = db.catalog
  used : db'.ledger.quota.usedBytes = db.ledger.quota.usedBytes
  active : ∀ b, b.status = .active → (b ∈ db'.ledger.blobs.rows ↔ b ∈ db.ledger.blobs.rows)

theorem NoContribution.refl (db : Database Collation.binary) : NoContribution db db :=
  ⟨rfl, rfl, fun _ _ => Iff.rfl⟩

/-- The activation of a call changes no id and no path. -/
theorem activated_same (activations : List StorageBlobActivation) (b : StorageBlob) :
    (activated activations b).id = b.id
      ∧ (activated activations b).storagePath = b.storagePath := by
  rw [activated]
  split <;> exact ⟨rfl, rfl⟩

/-- The row of a staged blob is activated with the size of its handle. -/
theorem activated_found {db : Database Collation.binary} {found : List StorageBlob} {m : Ledger}
    (ha : Activation db.ledger (activationsOf call.stagedBlobs) found m) {staged : StagedBlob}
    (hs : staged ∈ call.stagedBlobs) {b : StorageBlob} (hb : b ∈ found) (hid : b.id = staged.id) :
    activated (activationsOf call.stagedBlobs) b = { b with
      size := staged.size, refCount := 1, status := .active, stagingPath := none,
      stagingLeaseExpiresAt := none } := by
  have has : (⟨staged.id, staged.size⟩ : StorageBlobActivation) ∈ activationsOf call.stagedBlobs :=
    List.mem_map.mpr ⟨staged, hs, rfl⟩
  have hfind : (activationsOf call.stagedBlobs).find? (fun a => a.id == b.id)
      = some ⟨staged.id, staged.size⟩ :=
    Table.find?_of_nodup ha.nodup has (beq_iff_eq.mpr hid.symm)
      fun a haid => (beq_iff_eq.mp haid).trans hid
  rw [activated_of_mem (ha.ids ▸ List.mem_map_of_mem hb) (ha.staging b hb).2, activatedSize, hfind]

/-- The jobs enqueued by the release are those of the rows that lost their last
    reference. -/
theorem hasJob_published {db db' : Database Collation.binary} {found : List StorageBlob}
    {m n : Ledger} {releasedPaths : List String} {jobs : List StorageCleanupJob}
    (ha : Activation db.ledger (activationsOf call.stagedBlobs) found m)
    (hn : Rewrites m (dereferenced releasedPaths) n) (he : Enqueued n jobs db'.ledger)
    (hjobs : ∀ b ∈ m.blobs.rows, b.id ∈ jobs.map (·.blobID) ↔
      0 < countStoragePaths releasedPaths b.storagePath
        ∧ b.refCount = countStoragePaths releasedPaths b.storagePath)
    (horigin : ∀ j ∈ jobs, ∃ b ∈ m.blobs.rows, b.id = j.blobID ∧ b.storagePath = j.storagePath)
    (id : String) :
    HasJob db'.ledger id ↔ HasJob db.ledger id
      ∨ ∃ b ∈ db.ledger.blobs.rows, b.id = id ∧ LostLast call releasedPaths b := by
  have hsame : ∀ b, (activated (activationsOf call.stagedBlobs) b).id = b.id
      ∧ (activated (activationsOf call.stagedBlobs) b).storagePath = b.storagePath :=
    activated_same _
  have hbefore : HasJob n id ↔ HasJob db.ledger id := by
    rw [HasJob, HasJob, hn.jobs, ha.rewrites.jobs]
    rfl
  rw [he.hasJob, hbefore]
  refine or_congr Iff.rfl ⟨fun hmem => ?_, fun hrow => ?_⟩
  · obtain ⟨j, hj, hjid⟩ := List.mem_map.mp hmem
    obtain ⟨b', hb', hid, -⟩ := horigin j hj
    obtain ⟨b, hb, rfl⟩ := ha.rewrites.mem.mp hb'
    have hlost := (hjobs _ hb').mp (hid ▸ hjid ▸ hmem)
    rw [(hsame b).2] at hlost
    exact ⟨b, hb, (hsame b).1.symm.trans (hid.trans hjid), hlost⟩
  · obtain ⟨b, hb, rfl, hlost⟩ := hrow
    rw [LostLast, ← (hsame b).2] at hlost
    have hmem := (hjobs _ (ha.rewrites.mem.mpr ⟨b, hb, rfl⟩)).mpr hlost
    rwa [(hsame b).1] at hmem

/-- A transaction that commits has done all of it: activation, metadata, releases and jobs. -/
theorem complete_published {db db' : Database Collation.binary} {now : Time}
    (h : publishTransaction db call.stagedBlobs call.publishMetadata now = .ok db') :
    ∃ found releasedPaths, Complete call db db' found releasedPaths := by
  obtain ⟨found, m, releasedPaths, hp⟩ := publishTransaction_ok h
  have ha := hp.activation
  obtain ⟨n, jobs, hn, he, hjobs, horigin⟩ := hp.released.moves
  refine ⟨found, releasedPaths, ?_⟩
  constructor
  case metadata => exact hp.metadata
  case foundIDs => rw [ha.ids, activationsOf, List.map_map]; rfl
  case staging => exact ha.staging
  case active => exact fun staged hs b hb hid => activated_found ha hs hb hid
  case rows =>
    rw [he.blobs, hn.rows, ha.rewrites.rows, List.map_map]
    rfl
  -- a path that is given up has its row, active and with enough references
  case released =>
    intro path hpath hne
    have hpos := countStoragePaths_pos.mpr ⟨hpath, hne⟩
    obtain ⟨b', hb', rfl⟩ := hp.released.owned path hpos
    obtain ⟨hst, hle⟩ := hp.released.active b' hb' hpos
    obtain ⟨b, hb, rfl⟩ := ha.rewrites.mem.mp hb'
    exact ⟨b, hb, (activated_same _ b).2.symm, hst, hle⟩
  case covered => exact ha.covered
  case quota =>
    rw [he.quota, hn.quota, ha.rewrites.quota, activationsOf, List.map_map]
    rfl
  case hasJob => exact hasJob_published ha hn he hjobs horigin
  -- the activation touches no job, and the release renews or adds
  case keptJobs =>
    intro j hj
    have hjn : j ∈ n.jobs.rows := by
      rw [hn.jobs, ha.rewrites.jobs]
      exact hj
    obtain ⟨j', hj', rfl | ⟨-, hc⟩⟩ := he.kept j hjn
    · exact ⟨j', hj', rfl, rfl⟩
    · exact ⟨j', hj', hc.1, hc.2.1⟩

/-- Sealing touches neither the metadata nor an active blob nor `used_bytes`. -/
theorem noContribution_sealed {db : Database Collation.binary} {l' : Ledger}
    {p : StorageBlob → Bool} {jobs : List StorageCleanupJob} (h : Sealed db.ledger p jobs l') :
    NoContribution db { db with ledger := l' } := by
  obtain ⟨m, hm, he⟩ := h.steps
  refine ⟨rfl, ?_, fun b hactive => ?_⟩
  · show l'.quota.usedBytes = _
    rw [he.quota, hm.quota]
  · show b ∈ l'.blobs.rows ↔ _
    rw [he.blobs, hm.mem]
    constructor
    · rintro ⟨a, ha, hab⟩
      split at hab
      · rw [← hab] at hactive
        exact nomatch hactive
      · exact hab ▸ ha
    · intro hb
      refine ⟨b, hb, if_neg fun hp => ?_⟩
      exact absurd ((h.staging b hb hp).symm.trans hactive) (by decide)

/-! ## What holds while the call runs -/

/-- No row of the call's blobs has the status. -/
def NoRow (call : PublishCall) (status : StorageBlobStatus) (l : Ledger) : Prop :=
  ∀ b ∈ l.blobs.rows, b.id ∈ ids call → b.status ≠ status

/-- Before the transaction takes effect the storage is sound and none of the blobs is
    active; afterwards none of them is staging. -/
structure CallOk (call : PublishCall) (x : CallState) : Prop where
  registry : RegistryOk x.state.registry
  issued : ∀ id ∈ ids call, id ∈ x.state.registry.issuedIDs
  before : x.tookEffect = false → StorageOk x.state ∧ NoRow call .active x.state.db.ledger
  after : x.tookEffect = true → NoRow call .staging x.state.db.ledger
  ready : x.phase = .ready → x.tookEffect = false
  succeeded : x.phase = .succeeded → x.tookEffect = true
  committed : x.phase = .confirmed (some .publishOutcomeCommitted) → x.tookEffect = true
  rolledBack : x.phase = .confirmed (some .publishOutcomeRolledBack) → x.tookEffect = false

/-- The handles are staged, and nobody else has them. -/
theorem callOk_start {s : State} (hs : Reachable storageSystem s)
    (hp : ∀ staged ∈ call.stagedBlobs, Publishable s.registry staged
      ∧ staged.id ∉ s.registry.published) : CallOk call (startState call s) := by
  have h := storageOk_of_reachable hs
  have hids : ∀ id ∈ ids call, id ∉ s.registry.aborted := by
    intro id hid
    obtain ⟨staged, hmem, rfl⟩ := List.mem_map.mp hid
    exact (hp staged hmem).1.kept
  have hreg := h.registry.publishing hids
  refine ⟨hreg, fun id hid => ?_, fun _ => ⟨⟨h.ledger, ?_, hreg⟩, ?_⟩, nofun, fun _ => rfl, nofun,
    nofun, nofun⟩
  · obtain ⟨staged, hmem, rfl⟩ := List.mem_map.mp hid
    obtain ⟨c, hc, hcid, -⟩ := (hp staged hmem).1.created
    exact hcid ▸ h.registry.createdIDs c hc
  · exact h.rows.extends (extends_marked s.registry (ids call) [])
  · intro b hb hid hst
    obtain ⟨staged, hmem, hsid⟩ := List.mem_map.mp hid
    exact (hp staged hmem).2 (hsid ▸ h.rows.active b hb hst)

/-- A row of the call's blobs stays off a status it can only enter by an insert of its
    id or, for `active`, by its activation. -/
theorem noRow_evolves {status : StorageBlobStatus} {fp : Footprint} {l l' : Ledger}
    (h : NoRow call status l) (he : Evolution fp l l')
    (hnew : ∀ n ∈ fp.new, n.id ∉ ids call) (hne : status ≠ .pendingDelete)
    (hact : status = .active → ∀ a ∈ fp.activations, a.id ∉ ids call) : NoRow call status l' := by
  intro b' hb' hid hst
  rcases he.origin b' hb' with ⟨b, hb, hd⟩ | ⟨n, hn, hs⟩
  · rw [hd.id] at hid
    cases hd.move with
    | stays hsame _ _ => exact h b hb hid (hsame.symm.trans hst)
    | activated a ha haid _ hst' _ _ =>
        exact hact (hst.symm.trans hst') a ha (haid ▸ hid)
    | doomed _ hst' _ _ => exact hne (hst.symm.trans hst')
  · exact hnew n hn (hs.id ▸ hid)

/-- Steps of others insert fresh ids and activate blobs of other calls. -/
theorem noRow_other {status : StorageBlobStatus} {s : State} {op : StorageOp}
    (hissued : ∀ id ∈ ids call, id ∈ s.registry.issuedIDs) (hop : op.Allowed s)
    (hforeign : Foreign call op) (hne : status ≠ .pendingDelete)
    (h : NoRow call status s.db.ledger) : NoRow call status (op.apply s).db.ledger := by
  obtain ⟨m, he1, he2⟩ := apply_evolves s op
  refine noRow_evolves (noRow_evolves h he1 ?_ hne ?_) he2 nofun hne nofun
  · intro n hn hid
    have hfresh : n.id ∉ s.registry.issuedIDs := by
      cases op with
      | ledger op =>
          cases op with
          | createStaging blob lease now => exact hop.1.freshIDs n hn
          | createStagingBatch blobs k lease now => exact hop.freshIDs n hn
          | registerOrphan blob =>
              rw [List.mem_singleton.mp hn]
              exact hop.freshID
          | _ => exact nomatch hn
      | _ => exact nomatch hn
    exact hfresh (hissued _ hid)
  · intro _ a ha hid
    cases op with
    | ledger op =>
        cases op with
        | activate as n => exact hop
        | _ => exact nomatch ha
    | publish p now =>
        obtain ⟨staged, hs, rfl⟩ := List.mem_map.mp ha
        exact hforeign staged hs hid
    | _ => exact nomatch ha

/-- Others keep the rows of the call moving forward only. -/
theorem callOk_other (h : CallOk call x) {op : StorageOp} (hop : op.Allowed x.state)
    (hforeign : Foreign call op) : CallOk call (CallAction.apply call x (.other op)) := by
  obtain ⟨hext, hreg⟩ := registry_step h.registry hop
  refine ⟨hreg, fun id hid => hext.issuedIDs id (h.issued id hid), fun ht => ?_, fun ht => ?_,
    h.ready, h.succeeded, h.committed, h.rolledBack⟩
  · obtain ⟨hok, hrow⟩ := h.before ht
    exact ⟨storageOk_step hok hop, noRow_other h.issued hop hforeign (by decide) hrow⟩
  · exact noRow_other h.issued hop hforeign (by decide) (h.after ht)

/-- After the transaction no row of the call's blobs is staging. -/
theorem noRow_published {db db' : Database Collation.binary} {now : Time}
    (h : publishTransaction db call.stagedBlobs call.publishMetadata now = .ok db') :
    NoRow call .staging db'.ledger := by
  obtain ⟨found, m, releasedPaths, hp⟩ := publishTransaction_ok h
  refine noRow_evolves ?_ (evolution_published hp).2 (List.forall_mem_nil _) (by decide)
    fun hst => by cases hst
  intro b' hb' hid hst
  obtain ⟨b, -, rfl⟩ := hp.activation.rewrites.mem.mp hb'
  have hids : b.id ∈ (activationsOf call.stagedBlobs).map (·.id) := by
    have hsame : (activated (activationsOf call.stagedBlobs) b).id = b.id := by
      rw [activated]
      split <;> rfl
    rw [hsame, ids] at hid
    rw [activationsOf, List.map_map]
    exact hid
  rw [activated] at hst
  split at hst
  · cases hst
  · next hnot => exact hnot ⟨hids, hst⟩

/-- A failed transaction leaves only the phase behind. -/
theorem callOk_failed (h : CallOk call x) : CallOk call { x with phase := .failed } :=
  ⟨h.registry, h.issued, h.before, h.after, nofun, nofun, nofun, nofun⟩

/-- After the transaction the rows are active, or still staged. -/
theorem callOk_transaction (h : CallOk call x) (fault : Fault) (now : Time) :
    CallOk call (CallAction.apply call x (.transaction fault now)) := by
  rw [CallAction.apply]
  cases hp : publishTransaction x.state.db call.stagedBlobs call.publishMetadata now with
  | error err => cases fault <;> exact callOk_failed h
  | ok db' =>
      cases fault with
      | beforeCommit => exact callOk_failed h
      | none =>
          exact ⟨h.registry, h.issued, nofun, fun _ => noRow_published hp, nofun, fun _ => rfl,
            nofun, nofun⟩
      | responseLost =>
          exact ⟨h.registry, h.issued, nofun, fun _ => noRow_published hp, nofun, nofun, nofun,
            nofun⟩

/-- With a blob to look at, `AllRows` finds a row of the call with the test's status. -/
theorem exists_row (hne : call.stagedBlobs ≠ []) {test : StagedBlob → StorageBlob → Bool}
    {l : Ledger} (h : AllRows test l call.stagedBlobs) :
    ∃ staged, ∃ b ∈ l.blobs.rows, b.id ∈ ids call ∧ test staged b = true := by
  obtain ⟨staged, hs⟩ := List.exists_mem_of_ne_nil _ hne
  obtain ⟨b, hb, hid, htest⟩ := h staged hs
  exact ⟨staged, b, hb, hid ▸ List.mem_map_of_mem hs, htest⟩

/-- Rows that are all committed are the doing of this call. -/
theorem tookEffect_of_committed (hne : call.stagedBlobs ≠ []) (h : CallOk call x)
    (hall : AllRows PublishLifecycle.committed x.state.db.ledger call.stagedBlobs) :
    x.tookEffect = true := by
  obtain ⟨staged, b, hb, hid, htest⟩ := exists_row hne hall
  by_contra hfalse
  have hst := (of_decide_eq_true htest).1
  exact (h.before (Bool.not_eq_true _ ▸ hfalse)).2 b hb hid hst

/-- Rows that are all still staging were not touched by this call. -/
theorem noEffect_of_rolledBack (hne : call.stagedBlobs ≠ []) (h : CallOk call x)
    (hall : AllRows PublishLifecycle.rolledBack x.state.db.ledger call.stagedBlobs) :
    x.tookEffect = false := by
  obtain ⟨staged, b, hb, hid, htest⟩ := exists_row hne hall
  by_contra htrue
  have hst := (of_decide_eq_true htest).1
  exact h.after (Bool.not_eq_false _ ▸ htrue) b hb hid hst

/-- The ledger after a confirmation that ended well: as before, or sealed before the
    transaction took effect. -/
theorem confirmed_ledger (hne : call.stagedBlobs ≠ []) (h : CallOk call x) {now : Time}
    {outcome : PublishLifecycle.PublishOutcome} {l' : Ledger}
    (hc : confirmPublishOutcome x.state.db.ledger call.stagedBlobs now = .ok (outcome, l')) :
    (outcome = .publishOutcomeCommitted ∧ l' = x.state.db.ledger ∧ x.tookEffect = true)
      ∨ (outcome = .publishOutcomeRolledBack ∧ x.tookEffect = false
        ∧ AllRows PublishLifecycle.rolledBack x.state.db.ledger call.stagedBlobs
        ∧ Sealed x.state.db.ledger (unpublished (ids call))
          (call.stagedBlobs.map (rolledBackJob now)) l') := by
  rcases confirmPublishOutcome_ok hc with ⟨houtcome, hsame, hall⟩ | ⟨houtcome, hall, hsealed⟩
  · exact Or.inl ⟨houtcome, hsame, tookEffect_of_committed hne h hall⟩
  · exact Or.inr ⟨houtcome, noEffect_of_rolledBack hne h hall, hall, hsealed⟩

/-- A confirmation that learns nothing changes nothing. -/
theorem callOk_unknown (h : CallOk call x) : CallOk call { x with phase := .confirmed none } :=
  ⟨h.registry, h.issued, h.before, h.after, nofun, nofun, nofun, nofun⟩

/-- A confirmation that finds them staged seals them. -/
theorem callOk_confirm (hne : call.stagedBlobs ≠ []) (h : CallOk call x) (fault : Fault)
    (now : Time) : CallOk call (CallAction.apply call x (.confirm fault now)) := by
  rw [CallAction.apply]
  cases hc : confirmPublishOutcome x.state.db.ledger call.stagedBlobs now with
  | error err => cases fault <;> exact callOk_unknown h
  | ok r =>
      obtain ⟨outcome, l'⟩ := r
      -- the rows tell: committed, and nothing changes; or rolled back, and they are sealed
      rcases confirmed_ledger hne h hc with ⟨rfl, rfl, heffect⟩ | ⟨rfl, heffect, -, hsealed⟩
      · cases fault with
        | beforeCommit => exact callOk_unknown h
        | responseLost => exact callOk_unknown h
        | none =>
            exact ⟨h.registry, h.issued, h.before, h.after, nofun, nofun, fun _ => heffect, nofun⟩
      -- the call did not take effect, so what held before it still does
      · have hbefore : StorageOk { x.state with db := { x.state.db with ledger := l' } }
            ∧ NoRow call .active l' := by
          obtain ⟨hok, hrow⟩ := h.before heffect
          refine ⟨⟨hok.ledger.sealed hsealed, ?_, hok.registry⟩, ?_⟩
          · exact hok.rows.evolve hok.ledger.jobs (evolution_sealed hsealed) nofun nofun nofun
          · exact noRow_evolves hrow (evolution_sealed hsealed) nofun (by decide) nofun
        have hafter : x.tookEffect = true → NoRow call .staging l' := by
          rw [heffect]
          exact nofun
        cases fault with
        | beforeCommit => exact callOk_unknown h
        | responseLost =>
            exact ⟨h.registry, h.issued, fun _ => hbefore, hafter, nofun, nofun, nofun, nofun⟩
        | none =>
            exact ⟨h.registry, h.issued, fun _ => hbefore, hafter, nofun, nofun, nofun,
              fun _ => heffect⟩

/-- **The run lemma**: what the call relies on holds at every moment. -/
theorem callOk_of_reachable (hne : call.stagedBlobs ≠ []) (h : Reachable (callSystem call) x) :
    CallOk call x := by
  refine h.invariant ?_ ?_
  · rintro x ⟨s, hs, hp, rfl⟩
    exact callOk_start hs hp
  · rintro x a y - hx ⟨hen, rfl⟩
    cases a with
    | other op => exact callOk_other hx hen.1 hen.2
    | leaseError =>
        exact ⟨hx.registry, hx.issued, hx.before, hx.after, nofun, nofun, nofun, nofun⟩
    | transaction fault now => exact callOk_transaction hx fault now
    | confirm fault now => exact callOk_confirm hne hx fault now

/-! ## The steps of the call -/

/-- The steps of the call itself. -/
def CallAction.isOwn : CallAction → Bool
  | .other _ => false
  | _ => true

/-- A step of the call that does everything, or one that contributes nothing. -/
def AllOrNothing (call : PublishCall) (x y : CallState) : Prop :=
  (x.tookEffect = false ∧ y.tookEffect = true
      ∧ ∃ found releasedPaths, Complete call x.state.db y.state.db found releasedPaths)
    ∨ (y.tookEffect = x.tookEffect ∧ NoContribution x.state.db y.state.db)

/-- Each step of the call contributes everything or nothing. -/
theorem allOrNothing_step (hne : call.stagedBlobs ≠ []) (hx : CallOk call x) {a : CallAction}
    (hown : a.isOwn = true) (hstep : (callSystem call).step x a y) : AllOrNothing call x y := by
  obtain ⟨hen, rfl⟩ := hstep
  cases a with
  | other op => exact nomatch hown
  | leaseError => exact Or.inr ⟨rfl, .refl _⟩
  | transaction fault now =>
      rw [CallAction.apply]
      cases hp : publishTransaction x.state.db call.stagedBlobs call.publishMetadata now with
      | error err => cases fault <;> exact Or.inr ⟨rfl, .refl _⟩
      | ok db' =>
          have hcomplete := complete_published hp
          cases fault with
          | beforeCommit => exact Or.inr ⟨rfl, .refl _⟩
          | none => exact Or.inl ⟨hx.ready hen, rfl, hcomplete⟩
          | responseLost => exact Or.inl ⟨hx.ready hen, rfl, hcomplete⟩
  | confirm fault now =>
      rw [CallAction.apply]
      cases hc : confirmPublishOutcome x.state.db.ledger call.stagedBlobs now with
      | error err => cases fault <;> exact Or.inr ⟨rfl, .refl _⟩
      | ok r =>
          obtain ⟨outcome, l'⟩ := r
          have hnone : NoContribution x.state.db { x.state.db with ledger := l' } := by
            rcases confirmed_ledger hne hx hc with ⟨-, rfl, -⟩ | ⟨-, -, -, hsealed⟩
            · exact .refl _
            · exact noContribution_sealed hsealed
          cases fault with
          | beforeCommit => exact Or.inr ⟨rfl, .refl _⟩
          | none => exact Or.inr ⟨rfl, hnone⟩
          | responseLost => exact Or.inr ⟨rfl, hnone⟩

/-- What a confirmation may do to the rows. -/
structure SealsOnlyUnpublished (call : PublishCall) (x y : CallState) : Prop where
  /-- A row it changes is a staging row nobody refers to, and all rows of the call are
      still staging. -/
  unpublished : ∀ b ∈ x.state.db.ledger.blobs.rows, b ∉ y.state.db.ledger.blobs.rows →
    AllRows PublishLifecycle.rolledBack x.state.db.ledger call.stagedBlobs
      ∧ b.status = .staging ∧ ∀ r ∈ references x.state.db.catalog, r.1 ≠ b.storagePath
  /-- When it reports a rollback, every blob of the call is sealed and has its job. -/
  sealed : y.phase = .confirmed (some .publishOutcomeRolledBack) →
    ∀ staged ∈ call.stagedBlobs, ∃ b ∈ y.state.db.ledger.blobs.rows, b.id = staged.id
      ∧ b.status = .pendingDelete ∧ HasJob y.state.db.ledger b.id
  /-- Mixed or missing rows: nothing changes and nothing is known. -/
  undecided : ¬ AllRows PublishLifecycle.committed x.state.db.ledger call.stagedBlobs →
    ¬ AllRows PublishLifecycle.rolledBack x.state.db.ledger call.stagedBlobs →
    y = { x with phase := .confirmed none }

/-- A confirmation without an answer. -/
theorem sealsOnlyUnpublished_same (hphase : y.phase = .confirmed none)
    (hy : y = { x with phase := .confirmed none }) : SealsOnlyUnpublished call x y := by
  refine ⟨fun b hb hnot => ?_, fun h => ?_, fun _ _ => hy⟩
  · rw [hy] at hnot
    exact absurd hb hnot
  · rw [hphase] at h
    exact nomatch h

/-- A confirmation that found all rows staged. -/
theorem sealsOnlyUnpublished_sealed {now : Time} {l' : Ledger} {phase : Phase} (hx : CallOk call x)
    (heffect : x.tookEffect = false)
    (hall : AllRows PublishLifecycle.rolledBack x.state.db.ledger call.stagedBlobs)
    (hs : Sealed x.state.db.ledger (unpublished (ids call))
      (call.stagedBlobs.map (rolledBackJob now)) l') :
    SealsOnlyUnpublished call x
      { x with state := { x.state with db := { x.state.db with ledger := l' } },
               phase := phase } := by
  obtain ⟨m, hm, he⟩ := hs.steps
  refine ⟨fun b hb hnot => ?_, fun _ staged hmem => ?_, fun _ hno => absurd hall hno⟩
  · have hp : unpublished (ids call) b = true := by
      by_contra hp
      exact hnot (he.blobs ▸ hm.mem.mpr ⟨b, hb, if_neg hp⟩)
    have hst := hs.staging b hb hp
    refine ⟨hall, hst, ?_⟩
    exact (hx.before heffect).1.ledger.refs_of_inactive hb (by rw [hst]; decide)
  · obtain ⟨b, hb, hid, htest⟩ := hall staged hmem
    obtain ⟨hst, -, -, hcount⟩ := of_decide_eq_true htest
    have hp : unpublished (ids call) b = true :=
      decide_eq_true ⟨hid ▸ List.mem_map_of_mem hmem, hst, hcount⟩
    refine ⟨BlobRepository.sealed b, he.blobs ▸ hm.mem.mpr ⟨b, hb, if_pos hp⟩, hid, rfl, ?_⟩
    exact (he.hasJob b.id).mpr (Or.inr (hs.covered b hb hp))

theorem sealsOnlyUnpublished_confirm (hne : call.stagedBlobs ≠ []) (hx : CallOk call x)
    (fault : Fault) (now : Time) :
    SealsOnlyUnpublished call x (CallAction.apply call x (.confirm fault now)) := by
  rw [CallAction.apply]
  cases hc : confirmPublishOutcome x.state.db.ledger call.stagedBlobs now with
  | error err => cases fault <;> exact sealsOnlyUnpublished_same rfl rfl
  | ok r =>
      obtain ⟨outcome, l'⟩ := r
      rcases confirmPublishOutcome_ok hc with ⟨rfl, rfl, hall⟩ | ⟨rfl, hall, hsealed⟩
      · have hsame : ∀ phase, phase ≠ .confirmed (some .publishOutcomeRolledBack) →
            SealsOnlyUnpublished call x { x with phase := phase } := fun phase hphase =>
          ⟨fun b hb hnot => absurd hb hnot, fun h => absurd h hphase, fun hno => absurd hall hno⟩
        cases fault with
        | beforeCommit => exact hsame _ nofun
        | none => exact hsame _ nofun
        | responseLost => exact hsame _ nofun
      · have heffect := noEffect_of_rolledBack hne hx hall
        cases fault with
        | beforeCommit => exact sealsOnlyUnpublished_same rfl rfl
        | none => exact sealsOnlyUnpublished_sealed hx heffect hall hsealed
        | responseLost => exact sealsOnlyUnpublished_sealed hx heffect hall hsealed

/-- **Publish is all or nothing**, and the confirmation never mistakes one for the
    other: for every callback, every fault and every interleaving with the steps of
    others. -/
theorem publish_all_or_nothing (hne : call.stagedBlobs ≠ [])
    (h : Reachable (callSystem call) x) :
    (∀ a y, a.isOwn = true → (callSystem call).step x a y → AllOrNothing call x y)
      ∧ (∀ a y, a.isOwn = false → (callSystem call).step x a y → y.tookEffect = x.tookEffect)
      ∧ (x.phase = .succeeded → x.tookEffect = true)
      ∧ (x.phase = .confirmed (some .publishOutcomeCommitted) → x.tookEffect = true)
      ∧ (x.phase = .confirmed (some .publishOutcomeRolledBack) → x.tookEffect = false)
      ∧ ∀ fault now y, (callSystem call).step x (.confirm fault now) y →
        SealsOnlyUnpublished call x y := by
  have hx := callOk_of_reachable hne h
  refine ⟨fun a y hown hstep => allOrNothing_step hne hx hown hstep, ?_, hx.succeeded, hx.committed,
    hx.rolledBack, ?_⟩
  -- no step of another sets what the call cannot see
  · rintro a y hother ⟨-, rfl⟩
    cases a with
    | other op => rfl
    | _ => exact nomatch hother
  · rintro fault now y ⟨-, rfl⟩
    exact sealsOnlyUnpublished_confirm hne hx fault now

/-! The upload of one staged file whose commit goes through while the response is lost. -/

/-- The publication of one upload. -/
def uploadCall : PublishCall where
  stagedBlobs := [uploadedFile]
  publishMetadata := uploadMetadata uploadedObject true 1

/-- The run where the transaction commits, the reply is lost, and the confirmation looks. -/
def uncertainCommit : CallState :=
  CallAction.apply uploadCall
    (CallAction.apply uploadCall (startState uploadCall stagedState) (.transaction .responseLost 1))
    (.confirm .none 2)

theorem uncertainCommit_reachable : Reachable (callSystem uploadCall) uncertainCommit := by
  have h0 : Reachable (callSystem uploadCall) (startState uploadCall stagedState) := by
    refine .start ⟨stagedState, stagedState_reachable, fun staged hs => ?_, rfl⟩
    refine ⟨uploadPublication_allowed.2 staged hs, ?_⟩
    exact nofun
  have h1 : Reachable (callSystem uploadCall)
      (CallAction.apply uploadCall (startState uploadCall stagedState)
        (.transaction .responseLost 1)) := reachable_callApply h0 rfl
  exact reachable_callApply h1 rfl

/-- The confirmation finds out that it took effect. -/
theorem publish_all_or_nothing_uncertain :
    uncertainCommit.phase = .confirmed (some .publishOutcomeCommitted)
      ∧ uncertainCommit.tookEffect = true :=
  have hphase : uncertainCommit.phase = .confirmed (some .publishOutcomeCommitted) := by decide
  ⟨hphase, (publish_all_or_nothing (by decide) uncertainCommit_reachable).2.2.2.1 hphase⟩

end PublishOutcome
