import LightOss.LedgerExactness

/-! # Storage reconciliation — one root bound to one database

    `Reconcile` binds the quota row to the identity of the storage root, compares the
    ledger with the files of the root, adopts what nobody owns and marks the ledger as
    reconciled.  Each call of the database is a transaction of its own, and each may
    fail without effect or take effect and still report an error; the replies are an
    input here, as are the answers of the file system.

    No other transaction writes the binding (`apply_sameBinding`).  The body under the
    lock seals rows, adopts orphans and marks, and counts what it adopted: `LockedRun`,
    from `registerOrphans_adopts` through `compareFiles_run` to `reconcileLocked_run`.
    So a first run either stays bound or leaves everything as it was
    (`reconcileBound_first`), and the binding outlives every sequence of runs. -/

namespace StorageReconciliation

open KeyedTable Fallible LedgerRows BlobRepository LedgerSpecs LedgerMoves LedgerOps
open Catalog MetadataServices MetadataReferences StorageAudit PublishLifecycle
open StepSystem StorageSystem

variable {k : Collation}

/-! ## Calls that may fail -/

/-- What becomes of a database call: its answer arrives, it has no effect, or it takes
    effect and an error arrives. -/
inductive Reply where
  | answered
  | failed
  | lost
  deriving DecidableEq

/-- The error of a connection. -/
def connectionError : Err := .errorf "connection"

variable {σ α : Type}

/-- What the caller sees of a transaction on `old`, and the state after it. -/
def Reply.deliver (old : σ) : Reply → Except Err (α × σ) → Except Err α × σ
  | _, .error err => (.error err, old)
  | .answered, .ok (a, new) => (.ok a, new)
  | .failed, .ok _ => (.error connectionError, old)
  | .lost, .ok (_, new) => (.error connectionError, new)

/-- An error of the service: a text, a wrapped error, or two of them joined. -/
inductive ReconcileError where
  | errorf (text : String)
  | wrap (context : String) (cause : Err)
  | plain (cause : Err)
  | join (first second : ReconcileError)

/-- A managed file; `Size()` is an `int64`. -/
structure ManagedFileInfo where
  relativePath : String
  size : Int

/-- What `Stat` says about a path. -/
inductive StatResult where
  | notExist
  | failed (err : Err)
  | info (isRegular : Bool) (size : Int)

/-- A walked file, with the answers to the three calls that `Reconcile` may make for it. -/
structure WalkedFile where
  file : ManagedFileInfo
  managedPathExists : Bool := true
  orphanID : String
  registerOrphan : Reply := .answered
  findByStoragePath : Bool := true

/-- Everything a call of `Reconcile` meets. -/
structure Reconciliation where
  stagingTTL : Duration
  lockAcquired : Bool := true
  identity : Except Err String
  claimStorageIdentity : Reply := .answered
  markReconciliationStarted : Reply := .answered
  databaseTime : Except Err Time
  expireStagingForCleanup : Nat → Reply := fun _ => .answered
  listAll : Bool := true
  stat : String → StatResult
  walkManaged : Except Err (List WalkedFile)
  validateAndMarkReconciled : Reply := .answered
  releaseStorageIdentity : Reply := .answered
  lockReleased : Bool := true

/-- What `Reconcile` reports. -/
structure StorageReconciliationReport where
  trackedBlobs : Nat := 0
  registeredOrphans : Nat := 0
  missingActive : Nat := 0

/-! ## The quota row -/

/-- The database with another quota row. -/
def Database.withQuotaRow (db : Database k) (quota : SystemStorageQuota) : Database k :=
  { db with ledger := { db.ledger with quota := quota } }

/-- Whether the row was bound now. -/
def claimStorageIdentity (db : Database k) (storageID : String) :
    Except Err (Bool × Database k) :=
  match db.ledger.quota.storageID with
  | none => .ok (true, Database.withQuotaRow db
      { db.ledger.quota with storageID := some storageID })
  | some bound =>
      if bound = storageID then .ok (false, db)
      else .error (.errorf "storage root identity does not match the database binding")

/-- `ReleaseStorageIdentity`: only the own binding is given back. -/
def releaseStorageIdentity (db : Database k) (storageID : String) :
    Except Err (Unit × Database k) :=
  if db.ledger.quota.storageID = some storageID then
    .ok ((), Database.withQuotaRow db { db.ledger.quota with storageID := none })
  else .error (.errorf "failed storage identity binding changed concurrently")

/-- `MarkReconciliationStarted`: until the next mark the ledger counts as unreconciled. -/
def markReconciliationStarted (db : Database k) : Except Err (Unit × Database k) :=
  .ok ((), Database.withQuotaRow db { db.ledger.quota with reconciledAt := none })

/-! ## `reconcileLocked` -/

/-- How many rows one call seals. -/
def defaultCleanupBatchSize : Nat := 50

/-- One call of `ExpireStagingForCleanup`. -/
def expireOnce (db : Database k) (before now : Time) : Except Err (Nat × Database k) :=
  (expireStagingForCleanup db.ledger before defaultCleanupBatchSize now).map fun r =>
    (r.1, { db with ledger := r.2 })

/-- `sealExpiredStaging` from its iteration `i` on; the rows that are left to seal bound
    the iterations. -/
def sealFrom (reply : Nat → Reply) (before now : Time) : Nat → Nat → Database k →
    Except Err Unit × Database k
  | 0, _, db => (.ok (), db)
  | fuel + 1, i, db =>
      match (reply i).deliver db (expireOnce db before now) with
      | (.error err, db) => (.error err, db)
      | (.ok sealed, db) =>
          if sealed < defaultCleanupBatchSize then (.ok (), db)
          else sealFrom reply before now fuel (i + 1) db

/-- `sealExpiredStaging`: it stops at the first batch that is not full. -/
def sealExpiredStaging (r : Reconciliation) (now : Time) (db : Database k) :
    Except Err Unit × Database k :=
  sealFrom r.expireStagingForCleanup (now - r.stagingTTL) now (db.ledger.blobs.rows.length + 1) 0 db

/-- `trackedPaths`. -/
def trackedPaths (blobs : List StorageBlob) : List String :=
  blobs.flatMap fun blob =>
    blob.storagePath :: (blob.stagingPath.toList.filter (· ≠ ""))

/-- The check of the active blobs against their files; the missing paths. -/
def missingActive (stat : String → StatResult) :
    List StorageBlob → Except ReconcileError (List String)
  | [] => .ok []
  | blob :: rest =>
      if blob.status ≠ .active then missingActive stat rest
      else
        match stat blob.storagePath with
        | .notExist => do
            let missing ← missingActive stat rest
            return blob.storagePath :: missing
        | .failed err => .error (.wrap s!"stat active blob {blob.storagePath}" err)
        | .info isRegular size =>
            if isRegular = false then
              .error (.errorf s!"active blob {blob.storagePath} is not a regular file")
            else if size < 0 ∨ size ≠ blob.size then
              .error (.errorf s!"active blob {blob.storagePath} physical size {size} does not match ledger size {blob.size}")
            else missingActive stat rest

/-- `ManagedPathExists`. -/
def managedPathExists (l : Ledger) (managedPath : String) : Bool :=
  l.blobs.rows.any fun b => b.storagePath == managedPath || b.stagingPath == some managedPath

/-- The row for a file that nobody owns. -/
def orphanOf (w : WalkedFile) : StorageBlob where
  id := w.orphanID
  storagePath := w.file.relativePath
  size := w.file.size.toNat
  status := .orphaned

/-- `RegisterOrphan` as a transaction of the database. -/
def registerOrphanIn (db : Database k) (blob : StorageBlob) : Except Err (Unit × Database k) :=
  (registerOrphan db.ledger blob).map fun l => ((), { db with ledger := l })

/-- `FindByStoragePath`; a lost connection finds nothing. -/
def findByStoragePath (l : Ledger) (storagePath : String) (answered : Bool) : Option StorageBlob :=
  if answered then l.blobs.first? fun b => b.storagePath == storagePath else none

/-- The loop over the walked files: orphans registered, the error, and the database. -/
def registerOrphans (tracked : List String) : List WalkedFile → Nat → Database k →
    Nat × Option ReconcileError × Database k
  | [], registered, db => (registered, none, db)
  | w :: rest, registered, db =>
      let path := w.file.relativePath
      if path ∈ tracked then registerOrphans tracked rest registered db
      else if w.managedPathExists = false then
        (registered, some (.wrap s!"check managed path {path}" connectionError), db)
      else if managedPathExists db.ledger path then registerOrphans tracked rest registered db
      else if w.file.size < 0 then
        (registered, some (.errorf s!"managed file {path} has a negative size"), db)
      else
        match w.registerOrphan.deliver db (registerOrphanIn db (orphanOf w)) with
        | (.ok (), db) => registerOrphans tracked rest (registered + 1) db
        | (.error err, db) =>
            match findByStoragePath db.ledger path w.findByStoragePath with
            | some existing =>
                if existing.id = w.orphanID then registerOrphans tracked rest (registered + 1) db
                else registerOrphans tracked rest registered db
            | none => (registered, some (.wrap s!"register orphan {path}" err), db)

/-- What `reconcileLocked` and `Reconcile` return, and the database after it. -/
structure Reconciled (k : Collation) where
  report : Option StorageReconciliationReport := none
  error : Option ReconcileError := none
  db : Database k

/-- `reconcileLocked` from the comparison with the files on; `blobs` is `ListAll`. -/
def compareFiles (r : Reconciliation) (now : Time) (blobs : List StorageBlob) (db : Database k) :
    Reconciled k :=
  match missingActive r.stat blobs with
  | .error err => { error := some err, db := db }
  | .ok (path :: missing) =>
      { report := some { trackedBlobs := blobs.length, missingActive := missing.length + 1 }
        error := some (.errorf s!"storage reconciliation found {missing.length + 1} active blobs without physical content; first missing path: {path}")
        db := db }
  | .ok [] =>
      match r.walkManaged with
      | .error err =>
          { report := some { trackedBlobs := blobs.length }
            error := some (.wrap "walk managed storage" err)
            db := db }
      | .ok files =>
          match registerOrphans (trackedPaths blobs) files 0 db with
          | (registered, some err, db) =>
              { report := some { trackedBlobs := blobs.length, registeredOrphans := registered }
                error := some err
                db := db }
          | (registered, none, db) =>
              match r.validateAndMarkReconciled.deliver db
                ((validateAndMarkReconciled db now).map fun db => ((), db)) with
              | (.error err, db) =>
                  { report := some { trackedBlobs := blobs.length, registeredOrphans := registered }
                    error := some
                      (.wrap "validate storage ledger and mark reconciliation complete" err)
                    db := db }
              | (.ok (), db) =>
                  { report := some { trackedBlobs := blobs.length, registeredOrphans := registered }
                    db := db }

/-- `ORDER BY storage_path ASC`. -/
def listAll (l : Ledger) : List StorageBlob :=
  l.blobs.rows.mergeSort fun a b => decide (a.storagePath ≤ b.storagePath)

/-- `reconcileLocked`: the calls before the comparison. -/
def reconcileLocked (r : Reconciliation) (db : Database k) : Reconciled k :=
  match r.markReconciliationStarted.deliver db (markReconciliationStarted db) with
  | (.error err, db) =>
      { error := some (.wrap "mark storage reconciliation started" err), db := db }
  | (.ok (), db) =>
      match r.databaseTime with
      | .error err => { error := some (.wrap "read database time" err), db := db }
      | .ok now =>
          match sealExpiredStaging r now db with
          | (.error err, db) => { error := some (.wrap "seal expired staging blobs" err), db := db }
          | (.ok (), db) =>
              if r.listAll = false then
                { error := some (.wrap "list storage blobs" connectionError), db := db }
              else compareFiles r now (listAll db.ledger) db

/-- The body that runs under the lock. -/
def reconcileBound (r : Reconciliation) (db : Database k) : Reconciled k :=
  match r.identity with
  | .error err => { error := some (.wrap "read storage identity" err), db := db }
  | .ok storageID =>
      match r.claimStorageIdentity.deliver db (claimStorageIdentity db storageID) with
      | (.error err, db) => { error := some (.plain err), db := db }
      | (.ok newlyBound, db) =>
          let out := reconcileLocked r db
          match out.error with
          | none => out
          | some err =>
              -- a failed first run gives the binding back, unless it adopted files
              if newlyBound ∧ (out.report.map (·.registeredOrphans)).getD 0 = 0 then
                match r.releaseStorageIdentity.deliver out.db
                  (releaseStorageIdentity out.db storageID) with
                | (.error releaseErr, db) =>
                    { out with
                      error := some (.join err
                        (.wrap "release failed storage identity binding" releaseErr))
                      db := db }
                | (.ok (), db) => { out with db := db }
              else out

/-- `Reconcile`; the lock is released whatever the body returned. -/
def reconcile (r : Reconciliation) (db : Database k) : Reconciled k :=
  if r.lockAcquired = false then
    { error := some (.errorf "storage reconciliation lock was not acquired within 30s"), db := db }
  else
    let out := reconcileBound r db
    if r.lockReleased then out
    else
      let lockErr := ReconcileError.wrap "release storage reconciliation lock" connectionError
      { out with error := some (out.error.elim lockErr fun err => .join err lockErr) }

/-! ## The other transactions leave the binding alone -/

/-- The two columns that only `Reconcile` writes. -/
structure SameBinding (l l' : Ledger) : Prop where
  storageID : l'.quota.storageID = l.quota.storageID
  reconciledAt : l'.quota.reconciledAt = l.quota.reconciledAt

section Binding

variable {l l' m : Ledger}

theorem SameBinding.of_quota {used reserved : Nat}
    (h : l'.quota = (withQuota l used reserved).quota) : SameBinding l l' := by
  constructor <;> rw [h] <;> rfl

theorem SameBinding.of_same (h : l'.quota = l.quota) : SameBinding l l' := by
  constructor <;> rw [h]

theorem SameBinding.trans (h1 : SameBinding l m) (h2 : SameBinding m l') : SameBinding l l' :=
  ⟨h2.storageID.trans h1.storageID, h2.reconciledAt.trans h1.reconciledAt⟩

theorem sameBinding_sealed {p : StorageBlob → Bool} {jobs : List StorageCleanupJob}
    (hs : Sealed l p jobs l') : SameBinding l l' := by
  obtain ⟨m, hm, he⟩ := hs.steps
  exact .of_same (he.quota.trans hm.quota)

theorem sameBinding_released {paths : List String} (hr : Released l paths l') :
    SameBinding l l' := by
  obtain ⟨m, jobs, hm, he, -⟩ := hr.moves
  exact .of_same (he.quota.trans hm.quota)

/-- Every call of the repositories leaves the two columns alone. -/
theorem run_sameBinding {op : LedgerOp} (h : op.run l = .ok l') : SameBinding l l' := by
  -- what writes to the quota row at all only moves bytes
  cases op with
  | createStaging blob lease now => exact .of_quota (createStagingWithLease_ok h).quota
  | createStagingBatch blobs n lease now => exact .of_quota (createStagingBatchWithLease_ok h).quota
  | renewStagingLease ids lease n now =>
      cases h
      obtain ⟨_, hr, -⟩ := renewStagingLease_rewrites l ids lease n now
      exact .of_same hr.quota
  | reserve blobID bytes =>
      rcases reserve_ok h with rfl | ⟨-, -, -, -, hr⟩
      · exact .of_same rfl
      · exact .of_quota hr.quota
  | activate as n =>
      obtain ⟨found, ha⟩ := activateStagingBatch_ok h
      exact .of_quota ha.rewrites.quota
  | releaseReferences paths now n => exact sameBinding_released (releaseReferences_ok h)
  | releaseStaging blobID =>
      obtain ⟨p, -, hs⟩ := releaseStaging_ok h
      exact .of_quota hs.dropped.quota
  | releaseStagingBatch ids n =>
      obtain ⟨p, -, hs⟩ := releaseStagingBatch_ok h
      exact .of_quota hs.dropped.quota
  | expireStaging before limit now =>
      obtain ⟨p, jobs, -, hs⟩ := expire_ok h
      exact sameBinding_sealed hs
  | sealStaging ids n => exact .of_same (sealStagingForCleanupBatch_ok h).quota
  | enqueueCleanup requests now n => exact .of_same (enqueue_ok h).quota
  | registerOrphan blob => exact .of_quota (registerOrphan_ok h).2.1
  | scheduleOrphanCleanup id now =>
      obtain ⟨_, -, -, -, -, m, hm, he⟩ := scheduleOrphanCleanup_ok h
      exact .of_same (he.quota.trans hm.quota)
  | claim id owner now leaseUntil =>
      cases h
      exact .of_same (claimCleanupJob_touches l id owner now leaseUntil).quota
  | renewCleanupLease id owner leaseUntil =>
      cases h
      exact .of_same (renewCleanupJobLease_touches l id owner leaseUntil).quota
  | fail id owner message nextRetryAt => exact .of_same (failCleanupJob_ok h).quota
  | complete id owner =>
      obtain ⟨blob, hc⟩ := completeCleanupJob_ok h
      exact .of_quota hc.dropped.quota
  | updateMaxBytes maxBytes =>
      obtain ⟨-, -, rfl⟩ := updateMaxBytes_ok.mp h
      exact ⟨rfl, rfl⟩

/-- Every transaction of the services leaves the two columns alone. -/
theorem apply_sameBinding (s : State) (op : StorageOp) :
    SameBinding s.db.ledger (op.apply s).db.ledger := by
  cases op with
  | ledger op =>
      rcases apply_cases s.db.ledger op with hrun | hsame
      · exact run_sameBinding hrun
      · exact .of_same (congrArg Ledger.quota hsame)
  | publish p now =>
      rw [StorageOp.apply]
      cases hp : publishTransaction s.db p.stagedBlobs (p.publishMetadata now) now with
      | error err => exact .of_same rfl
      | ok db' =>
          obtain ⟨found, m, releasedPaths, hpub⟩ := publishTransaction_ok hp
          have hmoved : SameBinding s.db.ledger m := .of_quota hpub.activation.rewrites.quota
          exact hmoved.trans (sameBinding_released hpub.released)
  | confirm stagedBlobs now =>
      rw [StorageOp.apply]
      cases hc : confirmPublishOutcome s.db.ledger stagedBlobs now with
      | error err => exact .of_same rfl
      | ok r =>
          obtain ⟨outcome, l'⟩ := r
          rcases confirmPublishOutcome_ok hc with ⟨-, hsame, -⟩ | ⟨-, -, hsealed⟩
          · exact .of_same (congrArg Ledger.quota hsame)
          · exact sameBinding_sealed hsealed
  | abort ids => exact .of_same rfl
  | catalog w => exact .of_same rfl

end Binding

/-! ## What one call does -/

/-- The state afterwards is the old one, or the one of a success. -/
theorem deliver_state (old : σ) (reply : Reply) (run : Except Err (α × σ)) :
    (reply.deliver old run).2 = old ∨ ∃ a, run = .ok (a, (reply.deliver old run).2) := by
  cases run with
  | error err => cases reply <;> exact Or.inl rfl
  | ok r =>
      obtain ⟨a, new⟩ := r
      cases reply
      · exact Or.inr ⟨a, rfl⟩
      · exact Or.inl rfl
      · exact Or.inr ⟨a, rfl⟩

/-- Success is reported only for a success. -/
theorem deliver_ok {old new : σ} {reply : Reply} {run : Except Err (α × σ)} {a : α}
    (h : reply.deliver old run = (.ok a, new)) : run = .ok (a, new) := by
  cases run with
  | error err => cases reply <;> exact nomatch h
  | ok r =>
      cases reply
      · cases h
        rfl
      · exact nomatch h
      · exact nomatch h

/-- Success needs the answer. -/
theorem deliver_answered {old new : σ} {reply : Reply} {run : Except Err (α × σ)} {a : α}
    (h : reply.deliver old run = (.ok a, new)) : reply = .answered := by
  cases run with
  | error err => cases reply <;> exact nomatch h
  | ok r =>
      cases reply
      · rfl
      · exact nomatch h
      · exact nomatch h

/-- An error without effect, unless the reply was lost. -/
theorem deliver_error {old new : σ} {reply : Reply} {run : Except Err (α × σ)} {err : Err}
    (h : reply.deliver old run = (.error err, new)) :
    new = old ∨ (reply = .lost ∧ ∃ a, run = .ok (a, new)) := by
  cases run with
  | error err' => cases reply <;> (cases h; exact Or.inl rfl)
  | ok r =>
      obtain ⟨a, new'⟩ := r
      cases reply
      · exact nomatch h
      · cases h
        exact Or.inl rfl
      · cases h
        exact Or.inr ⟨rfl, a, rfl⟩

section Locked

variable {db db' m : Database k}

/-- Rows were rewritten under their ids, and the quota row is as it was. -/
structure SealedRows (db db' : Database k) : Prop where
  quota : db'.ledger.quota = db.ledger.quota
  rows : ∃ g : StorageBlob → StorageBlob, (∀ b, (g b).id = b.id)
    ∧ db'.ledger.blobs.rows = db.ledger.blobs.rows.map g

theorem SealedRows.refl (db : Database k) : SealedRows db db :=
  ⟨rfl, id, fun _ => rfl, (List.map_id _).symm⟩

theorem SealedRows.trans (h1 : SealedRows db m) (h2 : SealedRows m db') : SealedRows db db' := by
  obtain ⟨g, hg, hrows⟩ := h1.rows
  obtain ⟨g', hg', hrows'⟩ := h2.rows
  refine ⟨h2.quota.trans h1.quota, g' ∘ g, fun b => (hg' (g b)).trans (hg b), ?_⟩
  rw [hrows', hrows, List.map_map]

/-- One batch seals rows and writes jobs, nothing else. -/
theorem expireOnce_ok {before now : Time} {n : Nat}
    (h : expireOnce db before now = .ok (n, db')) : SealedRows db db' := by
  obtain ⟨⟨sealed, l⟩, hr, heq⟩ := map_eq_ok.mp h
  obtain ⟨-, rfl⟩ := Prod.mk.inj heq
  obtain ⟨p, jobs, -, hs⟩ := expireStagingForCleanup_ok hr
  obtain ⟨m, hm, he⟩ := hs.steps
  refine ⟨he.quota.trans hm.quota, _, fun b => ?_, (congrArg Table.rows he.blobs).trans hm.rows⟩
  split <;> rfl

/-- The loop seals rows and writes jobs, nothing else, wherever it stops. -/
theorem sealFrom_rows (reply : Nat → Reply) (before now : Time) :
    ∀ (fuel i : Nat) (db : Database k),
    SealedRows db (sealFrom reply before now fuel i db).2 := by
  intro fuel
  induction fuel with
  | zero => exact fun i db => .refl db
  | succ fuel ih =>
      intro i db
      rw [sealFrom]
      cases hstep : (reply i).deliver db (expireOnce db before now) with
      | mk answer db' =>
          have hkept : SealedRows db db' := by
            have hstate := deliver_state db (reply i) (expireOnce db before now)
            rw [hstep] at hstate
            rcases hstate with rfl | ⟨n, hrun⟩
            · exact .refl db'
            · exact expireOnce_ok hrun
          cases answer with
          | error err => exact hkept
          | ok sealed =>
              dsimp only
              split
              · exact hkept
              · exact hkept.trans (ih _ _)

/-- Sealing takes rows out of staging. -/
theorem sealed_shrinks {l l' : Ledger} {p : StorageBlob → Bool} {jobs : List StorageCleanupJob}
    (hs : Sealed l p jobs l') (hjobs : 0 < jobs.length) :
    (l'.blobs.rows.filter fun b => decide (b.status = .staging)).length
      < (l.blobs.rows.filter fun b => decide (b.status = .staging)).length := by
  obtain ⟨job, hjob⟩ := List.exists_mem_of_length_pos hjobs
  obtain ⟨b, hb, hpb, -⟩ := hs.paths job hjob
  obtain ⟨m, hm, he⟩ := hs.steps
  have hrows : l'.blobs.rows = l.blobs.rows.map fun b => if p b then sealed b else b :=
    (congrArg Table.rows he.blobs).trans hm.rows
  have hstays : ∀ a, decide ((if p a then sealed a else a).status = .staging)
      = (decide (a.status = .staging) && !p a) := by
    intro a
    cases p a
    · exact (Bool.and_true _).symm
    · exact (Bool.and_false _).symm
  have hfilter : (l'.blobs.rows.filter fun b => decide (b.status = .staging)).length
      = ((l.blobs.rows.filter fun b => decide (b.status = .staging)).filter fun a =>
          !p a).length := by
    rw [List.filter_filter, hrows, List.filter_map, List.length_map]
    refine congrArg List.length (List.filter_congr fun a _ => ?_)
    rw [Function.comp, hstays, Bool.and_comm]
  rw [hfilter]
  refine List.length_filter_lt_length_iff_exists.mpr ⟨b, ?_, ?_⟩
  · exact List.mem_filter.mpr ⟨hb, decide_eq_true (hs.staging b hb hpb)⟩
  · rw [hpb]
    exact Bool.false_ne_true

/-! ## Adopting files -/

/-- The orphans `new` were added; without any the quota row is as it was. -/
structure Adopted (db db' : Database k) (new : List StorageBlob) : Prop where
  rows : db'.ledger.blobs.rows = db.ledger.blobs.rows ++ new
  orphaned : ∀ b ∈ new, b.status = .orphaned
  binding : SameBinding db.ledger db'.ledger
  quota : new = [] → db'.ledger.quota = db.ledger.quota

theorem Adopted.refl (db : Database k) : Adopted db db [] :=
  ⟨(List.append_nil _).symm, nofun, .of_same rfl, fun _ => rfl⟩

theorem Adopted.trans {xs ys : List StorageBlob} (h1 : Adopted db m xs) (h2 : Adopted m db' ys) :
    Adopted db db' (xs ++ ys) where
  rows := by rw [h2.rows, h1.rows, List.append_assoc]
  orphaned := fun b hb => (List.mem_append.mp hb).elim (h1.orphaned b) (h2.orphaned b)
  binding := h1.binding.trans h2.binding
  quota := by
    intro hnil
    obtain ⟨hx, hy⟩ := List.append_eq_nil_iff.mp hnil
    exact (h2.quota hy).trans (h1.quota hx)

theorem registerOrphanIn_ok {w : WalkedFile} {u : Unit}
    (h : registerOrphanIn db (orphanOf w) = .ok (u, db')) : Adopted db db' [orphanOf w] := by
  obtain ⟨l, hl, heq⟩ := map_eq_ok.mp h
  obtain ⟨-, rfl⟩ := Prod.mk.inj heq
  obtain ⟨-, hquota, -, -, hrows⟩ := registerOrphan_ok hl
  refine ⟨hrows, ?_, .of_quota hquota, fun hnil => nomatch hnil⟩
  exact List.forall_mem_singleton.mpr rfl

/-- A path without an owner is found again only after its orphan went in. -/
theorem findByStoragePath_unowned {path : String} {answered : Bool}
    (hfree : managedPathExists db.ledger path = false) :
    findByStoragePath db.ledger path answered = none := by
  rw [findByStoragePath]
  split
  · refine Table.first?_eq_none.mpr fun b hb => ?_
    have hb := List.any_eq_false.mp hfree b hb
    rw [Bool.or_eq_true, not_or] at hb
    exact Bool.eq_false_iff.mpr hb.1
  · rfl

/-- The lookup after a lost reply finds the row that was just added. -/
theorem findByStoragePath_adopted {w : WalkedFile} (had : Adopted db db' [orphanOf w]) :
    findByStoragePath db'.ledger w.file.relativePath true = some (orphanOf w) := by
  have hmem : orphanOf w ∈ db'.ledger.blobs.rows :=
    had.rows ▸ List.mem_append_right _ (List.mem_singleton_self _)
  refine Table.first?_of_mem _ hmem (beq_self_eq_true _) fun b hb => ?_
  exact StorageBlob.clash_of_path (beq_iff_eq.mp hb)

/-- Every lost `RegisterOrphan` is found again. -/
def FoundAgain (files : List WalkedFile) : Prop :=
  ∀ w ∈ files, w.registerOrphan = .lost → w.findByStoragePath = true

/-- The loop counts orphans it added, and all of them when every lost one is found. -/
theorem registerOrphans_adopts (tracked : List String) :
    ∀ (files : List WalkedFile) (registered : Nat) (db : Database k), ∃ new,
      Adopted db (registerOrphans tracked files registered db).2.2 new
      ∧ (registerOrphans tracked files registered db).1 ≤ registered + new.length
      ∧ (FoundAgain files →
        (registerOrphans tracked files registered db).1 = registered + new.length) := by
  intro files
  induction files with
  | nil => exact fun registered db => ⟨[], .refl db, Nat.le_refl _, fun _ => rfl⟩
  | cons w rest ih =>
      intro registered db
      -- a file with an owner changes nothing
      have hskip : ∃ new, Adopted db (registerOrphans tracked rest registered db).2.2 new
          ∧ (registerOrphans tracked rest registered db).1 ≤ registered + new.length
          ∧ (FoundAgain (w :: rest) →
            (registerOrphans tracked rest registered db).1 = registered + new.length) := by
        obtain ⟨new, hnew, hle, heq⟩ := ih registered db
        exact ⟨new, hnew, hle, fun hfound => heq fun v hv => hfound v (List.mem_cons_of_mem _ hv)⟩
      -- the loop ends here and keeps its count
      have hstop : ∃ new, Adopted db db new ∧ registered ≤ registered + new.length
          ∧ (FoundAgain (w :: rest) → registered = registered + new.length) :=
        ⟨[], .refl db, Nat.le_refl _, fun _ => rfl⟩
      rw [registerOrphans]
      split
      · exact hskip
      split
      · exact hstop
      split
      · exact hskip
      next howned =>
      have hfree := Bool.eq_false_iff.mpr howned
      split
      · exact hstop
      -- the file was added and counted
      have hcounted : ∀ db', Adopted db db' [orphanOf w] →
          ∃ new, Adopted db (registerOrphans tracked rest (registered + 1) db').2.2 new
            ∧ (registerOrphans tracked rest (registered + 1) db').1 ≤ registered + new.length
            ∧ (FoundAgain (w :: rest) →
              (registerOrphans tracked rest (registered + 1) db').1 = registered + new.length) := by
        intro db' had
        obtain ⟨new, hnew, hle, heq⟩ := ih (registered + 1) db'
        refine ⟨orphanOf w :: new, had.trans hnew, ?_, fun hfound => ?_⟩
        · rw [List.length_cons]
          omega
        · rw [heq fun v hv => hfound v (List.mem_cons_of_mem _ hv), List.length_cons]
          omega
      cases hstep : w.registerOrphan.deliver db (registerOrphanIn db (orphanOf w)) with
      | mk answer db' =>
          cases answer with
          | ok u => exact hcounted db' (registerOrphanIn_ok (deliver_ok hstep))
          | error err =>
              dsimp only
              rcases deliver_error hstep with rfl | ⟨hlost, u, hrun⟩
              · rw [findByStoragePath_unowned hfree]
                exact hstop
              · have had := registerOrphanIn_ok hrun
                cases hanswered : w.findByStoragePath with
                | true =>
                    rw [findByStoragePath_adopted had]
                    dsimp only
                    rw [if_pos (show (orphanOf w).id = w.orphanID from rfl)]
                    exact hcounted db' had
                | false =>
                    -- added, but nobody knows
                    refine ⟨[orphanOf w], had, Nat.le_add_right _ _, fun hfound => ?_⟩
                    have := hfound w List.mem_cons_self hlost
                    exact absurd (hanswered.symm.trans this) Bool.false_ne_true

/-! ## The whole procedure -/

/-- The audit writes the mark and nothing else. -/
theorem validateAndMarkReconciled_eq {now : Time}
    (h : validateAndMarkReconciled db now = .ok db') : db' = db.reconciled now := by
  rw [validateAndMarkReconciled] at h
  obtain ⟨_, -, h⟩ := bind_eq_ok.mp h
  obtain ⟨_, -, h⟩ := bind_eq_ok.mp h
  obtain ⟨_, -, h⟩ := bind_eq_ok.mp h
  obtain ⟨_, -, h⟩ := bind_eq_ok.mp h
  obtain ⟨_, -, h⟩ := bind_eq_ok.mp h
  exact (pure_eq_ok.mp h).symm

/-- `report.RegisteredOrphans`, without a report zero. -/
def Reconciled.registeredOrphans (out : Reconciled k) : Nat :=
  (out.report.map (·.registeredOrphans)).getD 0

/-- What `reconcileLocked` may do: rewrite rows under their ids, add the orphans `new`, and
    write `reconciled_at`, which an error leaves alone unless the audit's reply was lost. -/
structure LockedRun (r : Reconciliation) (db : Database k) (out : Reconciled k)
    (new : List StorageBlob) : Prop where
  rows : ∃ g : StorageBlob → StorageBlob, (∀ b, (g b).id = b.id)
    ∧ out.db.ledger.blobs.rows = db.ledger.blobs.rows.map g ++ new
  orphaned : ∀ b ∈ new, b.status = .orphaned
  storageID : out.db.ledger.quota.storageID = db.ledger.quota.storageID
  counters : new = [] → out.db.ledger.quota.usedBytes = db.ledger.quota.usedBytes
    ∧ out.db.ledger.quota.reservedBytes = db.ledger.quota.reservedBytes
  reconciledAt : out.error.isSome → r.validateAndMarkReconciled ≠ .lost →
    db.ledger.quota.reconciledAt = none → out.db.ledger.quota.reconciledAt = none
  counted : out.registeredOrphans ≤ new.length
  exact : (∀ files, r.walkManaged = .ok files → FoundAgain files) →
    out.registeredOrphans = new.length

/-- A run that only sealed rows and cleared the mark, and registered nothing. -/
theorem LockedRun.of_sealed {r : Reconciliation} {out : Reconciled k}
    (h : SealedRows db m) (hm : out.db = m) (hcount : out.registeredOrphans = 0) :
    LockedRun r db out [] := by
  subst hm
  obtain ⟨g, hg, hrows⟩ := h.rows
  refine ⟨⟨g, hg, hrows.trans (List.append_nil _).symm⟩, nofun, ?_, fun _ => ?_, fun _ _ => ?_,
    Nat.le_of_eq hcount, fun _ => hcount⟩
  · rw [h.quota]
  · rw [h.quota]
    exact ⟨rfl, rfl⟩
  · rw [h.quota]
    exact id

theorem compareFiles_run (r : Reconciliation) (now : Time) (blobs : List StorageBlob)
    (db : Database k) : ∃ new, LockedRun r db (compareFiles r now blobs db) new := by
  -- it ends before the files are looked at
  have hnone : ∀ {out : Reconciled k}, out.db = db → out.registeredOrphans = 0 →
      ∃ new, LockedRun r db out new := fun hdb hcount => ⟨[], .of_sealed (.refl db) hdb hcount⟩
  rw [compareFiles]
  split
  · exact hnone rfl rfl
  · exact hnone rfl rfl
  split
  · exact hnone rfl rfl
  next files hfiles =>
  obtain ⟨new, hnew, hle, heq⟩ := registerOrphans_adopts (trackedPaths blobs) files 0 db
  have hrows : ∃ g : StorageBlob → StorageBlob, (∀ b, (g b).id = b.id)
      ∧ (registerOrphans (trackedPaths blobs) files 0 db).2.2.ledger.blobs.rows
        = db.ledger.blobs.rows.map g ++ new :=
    ⟨id, fun _ => rfl, by rw [List.map_id]; exact hnew.rows⟩
  have hcounters : new = [] →
      (registerOrphans (trackedPaths blobs) files 0 db).2.2.ledger.quota.usedBytes
        = db.ledger.quota.usedBytes
      ∧ (registerOrphans (trackedPaths blobs) files 0 db).2.2.ledger.quota.reservedBytes
        = db.ledger.quota.reservedBytes := by
    intro hnil
    rw [hnew.quota hnil]
    exact ⟨rfl, rfl⟩
  have hexact : (∀ files, r.walkManaged = .ok files → FoundAgain files) →
      (registerOrphans (trackedPaths blobs) files 0 db).1 = new.length := fun hfound =>
    (heq (hfound files hfiles)).trans (Nat.zero_add _)
  rw [Nat.zero_add] at hle
  refine ⟨new, ?_⟩
  generalize registerOrphans (trackedPaths blobs) files 0 db = result at *
  obtain ⟨registered, err, db'⟩ := result
  cases err with
  | some err =>
      refine ⟨hrows, hnew.orphaned, hnew.binding.storageID, hcounters, fun _ _ hat => ?_, hle,
        hexact⟩
      exact hnew.binding.reconciledAt.trans hat
  | none =>
      dsimp only
      cases hstep : r.validateAndMarkReconciled.deliver db'
          ((validateAndMarkReconciled db' now).map fun db => ((), db)) with
      | mk answer db'' =>
          -- the audit writes the mark or nothing
          have hwritten : db'' = db' ∨ db'' = db'.reconciled now := by
            have hstate := deliver_state db' r.validateAndMarkReconciled
              ((validateAndMarkReconciled db' now).map fun db => ((), db))
            rw [hstep] at hstate
            refine hstate.imp_right fun ⟨u, hrun⟩ => ?_
            obtain ⟨d, hd, heq⟩ := map_eq_ok.mp hrun
            obtain ⟨-, rfl⟩ := Prod.mk.inj heq
            exact validateAndMarkReconciled_eq hd
          have hblobs : db''.ledger.blobs = db'.ledger.blobs := by
            rcases hwritten with rfl | rfl <;> rfl
          have hid : db''.ledger.quota.storageID = db'.ledger.quota.storageID := by
            rcases hwritten with rfl | rfl <;> rfl
          have hused : db''.ledger.quota.usedBytes = db'.ledger.quota.usedBytes := by
            rcases hwritten with rfl | rfl <;> rfl
          have hreserved : db''.ledger.quota.reservedBytes = db'.ledger.quota.reservedBytes := by
            rcases hwritten with rfl | rfl <;> rfl
          have hrows' : ∃ g : StorageBlob → StorageBlob, (∀ b, (g b).id = b.id)
              ∧ db''.ledger.blobs.rows = db.ledger.blobs.rows.map g ++ new := hblobs ▸ hrows
          have hcounters' : new = [] → db''.ledger.quota.usedBytes = db.ledger.quota.usedBytes
              ∧ db''.ledger.quota.reservedBytes = db.ledger.quota.reservedBytes :=
            fun hnil => ⟨hused.trans (hcounters hnil).1, hreserved.trans (hcounters hnil).2⟩
          cases answer with
          | error err =>
              refine ⟨hrows', hnew.orphaned, hid.trans hnew.binding.storageID, hcounters',
                fun _ hnotlost hat => ?_, hle, hexact⟩
              rcases deliver_error hstep with rfl | ⟨hlost, -⟩
              · exact hnew.binding.reconciledAt.trans hat
              · exact absurd hlost hnotlost
          | ok u =>
              exact ⟨hrows', hnew.orphaned, hid.trans hnew.binding.storageID, hcounters',
                nofun, hle, hexact⟩

/-- What happens before the comparison only seals rows and clears the mark. -/
theorem LockedRun.after {r : Reconciliation} {out : Reconciled k} {new : List StorageBlob}
    (h1 : SealedRows m db') (hrows : m.ledger.blobs = db.ledger.blobs)
    (hquota : m.ledger.quota = db.ledger.quota
      ∨ m.ledger.quota = { db.ledger.quota with reconciledAt := none })
    (h2 : LockedRun r db' out new) : LockedRun r db out new := by
  obtain ⟨g, hg, hg'⟩ := h1.rows
  obtain ⟨g2, hg2, hg2'⟩ := h2.rows
  have hid : db'.ledger.quota.storageID = db.ledger.quota.storageID := by
    rw [h1.quota]
    rcases hquota with h | h <;> rw [h]
  have hused : db'.ledger.quota.usedBytes = db.ledger.quota.usedBytes := by
    rw [h1.quota]
    rcases hquota with h | h <;> rw [h]
  have hreserved : db'.ledger.quota.reservedBytes = db.ledger.quota.reservedBytes := by
    rw [h1.quota]
    rcases hquota with h | h <;> rw [h]
  have hat : db.ledger.quota.reconciledAt = none → db'.ledger.quota.reconciledAt = none := by
    rw [h1.quota]
    rcases hquota with h | h
    · rw [h]
      exact fun h => h
    · rw [h]
      exact fun _ => rfl
  refine ⟨⟨g2 ∘ g, fun b => (hg2 _).trans (hg b), ?_⟩, h2.orphaned, h2.storageID.trans hid, ?_,
    fun herr hlost h => h2.reconciledAt herr hlost (hat h), h2.counted, h2.exact⟩
  · rw [hg2', hg', hrows, List.map_map]
  · intro hnil
    exact ⟨(h2.counters hnil).1.trans hused, (h2.counters hnil).2.trans hreserved⟩

/-- The whole body under the lock: it seals, adopts and marks, and reports no more orphans
    than it added. -/
theorem reconcileLocked_run (r : Reconciliation) (db : Database k) :
    ∃ new, LockedRun r db (reconcileLocked r db) new := by
  rw [reconcileLocked]
  cases hstep : r.markReconciliationStarted.deliver db (markReconciliationStarted db) with
  | mk answer m =>
      have hmarked : m.ledger.blobs = db.ledger.blobs ∧ (m.ledger.quota = db.ledger.quota
          ∨ m.ledger.quota = { db.ledger.quota with reconciledAt := none }) := by
        have hstate := deliver_state db r.markReconciliationStarted (markReconciliationStarted db)
        rw [hstep] at hstate
        rcases hstate with rfl | ⟨u, hrun⟩
        · exact ⟨rfl, Or.inl rfl⟩
        · cases hrun
          exact ⟨rfl, Or.inr rfl⟩
      -- every early return has sealed rows at most
      have hstop : ∀ {m' : Database k} {out : Reconciled k}, SealedRows m m' → out.db = m' →
          out.registeredOrphans = 0 → ∃ new, LockedRun r db out new := fun hs hdb hcount =>
        ⟨[], LockedRun.after (.refl m) hmarked.1 hmarked.2 (.of_sealed hs hdb hcount)⟩
      cases answer with
      | error err => exact hstop (.refl m) rfl rfl
      | ok u =>
          dsimp only
          cases r.databaseTime with
          | error err => exact hstop (.refl m) rfl rfl
          | ok now =>
              dsimp only
              have hsealed := sealFrom_rows r.expireStagingForCleanup (now - r.stagingTTL) now
                (m.ledger.blobs.rows.length + 1) 0 m
              rw [sealExpiredStaging]
              revert hsealed
              cases sealFrom r.expireStagingForCleanup (now - r.stagingTTL) now
                  (m.ledger.blobs.rows.length + 1) 0 m with
              | mk answer m' =>
                  intro hsealed
                  cases answer with
                  | error err => exact hstop hsealed rfl rfl
                  | ok u =>
                      dsimp only
                      split
                      · exact hstop hsealed rfl rfl
                      · obtain ⟨new, hnew⟩ := compareFiles_run r now (listAll m'.ledger) m'
                        exact ⟨new, .after hsealed hmarked.1 hmarked.2 hnew⟩

/-- The run added an orphan row. -/
def Registered (db db' : Database k) : Prop :=
  ∃ b ∈ db'.ledger.blobs.rows, b.status = .orphaned ∧ ∀ a ∈ db.ledger.blobs.rows, a.id ≠ b.id

/-- A run that changes nothing registers nothing. -/
theorem not_registered_refl (db : Database k) : ¬ Registered db db :=
  fun ⟨b, hb, _, hnew⟩ => hnew b hb rfl

/-- A run registers something exactly when it adds rows. -/
theorem LockedRun.registered_iff {r : Reconciliation} {out : Reconciled k} {new : List StorageBlob}
    (h : LockedRun r db out new) : Registered db out.db ↔ new ≠ [] := by
  obtain ⟨g, hg, hrows⟩ := h.rows
  constructor
  · rintro ⟨b, hb, -, hfresh⟩ rfl
    rw [hrows, List.append_nil] at hb
    obtain ⟨a, ha, rfl⟩ := List.mem_map.mp hb
    exact hfresh a ha (hg a).symm
  · intro hne
    obtain ⟨b, hb⟩ := List.exists_mem_of_ne_nil new hne
    refine ⟨b, hrows ▸ List.mem_append_right _ hb, h.orphaned b hb, fun a ha hid => ?_⟩
    have hunique := out.db.ledger.blobs.unique
    rw [hrows] at hunique
    have hapart := (List.pairwise_append.mp hunique).2.2 (g a) (List.mem_map_of_mem ha) b hb
    exact Bool.false_ne_true (hapart.symm.trans (StorageBlob.clash_of_id ((hg a).trans hid)))

/-- What every run that succeeds is answered, its lock aside; any other run fails anyway. -/
structure Answered (r : Reconciliation) : Prop where
  identity : ∃ storageID, r.identity = .ok storageID
  claim : r.claimStorageIdentity = .answered
  started : r.markReconciliationStarted = .answered
  time : ∃ now, r.databaseTime = .ok now
  expired : r.expireStagingForCleanup 0 = .answered
  listed : r.listAll = true
  walked : ∃ files, r.walkManaged = .ok files
  validated : r.validateAndMarkReconciled = .answered

/-- On a run that may bind: no write takes effect behind an error that `Reconcile` does not
    look into, giving the binding back works, and so does releasing the lock, unless the run
    fails anyway. -/
structure Careful (r : Reconciliation) : Prop where
  claim : r.claimStorageIdentity ≠ .lost
  register : ∀ files, r.walkManaged = .ok files → FoundAgain files
  validate : r.validateAndMarkReconciled ≠ .lost
  release : r.releaseStorageIdentity ≠ .failed
  lock : Answered r → r.lockReleased = true

section Runs

variable {r : Reconciliation} {storageID : String}

/-- The lock only adds an error. -/
theorem reconcile_db (r : Reconciliation) (db : Database k) :
    (reconcile r db).db = db ∨ (reconcile r db).db = (reconcileBound r db).db := by
  rw [reconcile]
  split
  · exact Or.inl rfl
  · dsimp only
    split <;> exact Or.inr rfl

/-- A row that is bound elsewhere refuses the root. -/
theorem claim_other {other : String} (hbound : db.ledger.quota.storageID = some storageID)
    (hne : storageID ≠ other) : claimStorageIdentity db other
      = .error (.errorf "storage root identity does not match the database binding") := by
  rw [claimStorageIdentity, hbound]
  exact if_neg hne

/-- A root with another identity changes nothing. -/
theorem reconcile_other (hbound : db.ledger.quota.storageID = some storageID)
    (hother : r.identity ≠ .ok storageID) : (reconcile r db).db = db := by
  refine (reconcile_db r db).elim id fun h => h.trans ?_
  rw [reconcileBound]
  cases hid : r.identity with
  | error err => rfl
  | ok other =>
      have hne : storageID ≠ other := fun heq => hother (heq ▸ hid)
      dsimp only
      rw [claim_other hbound hne]
      cases r.claimStorageIdentity <;> rfl

/-- A root that is bound elsewhere gets the error of the claim. -/
theorem reconcile_other_error (hbound : db.ledger.quota.storageID = some storageID)
    (hother : r.identity ≠ .ok storageID) : (reconcile r db).error ≠ none := by
  have hlocked : (reconcileBound r db).error ≠ none := by
    rw [reconcileBound]
    cases hid : r.identity with
    | error err => exact nofun
    | ok other =>
        have hne : storageID ≠ other := fun heq => hother (heq ▸ hid)
        dsimp only
        rw [claim_other hbound hne]
        cases r.claimStorageIdentity <;> exact nofun
  rw [reconcile]
  split
  · exact nofun
  · dsimp only
    split
    · exact hlocked
    · exact nofun

/-- The claim on a bound row, and on its own root. -/
theorem claim_bound (hbound : db.ledger.quota.storageID = some storageID) :
    claimStorageIdentity db storageID = .ok (false, db) := by
  rw [claimStorageIdentity, hbound]
  exact if_pos rfl

/-- A run on the bound root does not touch the binding, whatever fails. -/
theorem reconcileBound_stays (hbound : db.ledger.quota.storageID = some storageID)
    (hid : r.identity = .ok storageID) :
    (reconcileBound r db).db.ledger.quota.storageID = some storageID := by
  rw [reconcileBound, hid]
  dsimp only
  rw [claim_bound hbound]
  obtain ⟨new, hrun⟩ := reconcileLocked_run r db
  have hlocked := hrun.storageID.trans hbound
  cases r.claimStorageIdentity with
  | failed => exact hbound
  | lost => exact hbound
  | answered =>
      rw [Reply.deliver]
      dsimp only
      split
      · exact hlocked
      · rw [if_neg (fun h => Bool.false_ne_true h.1)]
        exact hlocked

theorem reconcile_stays (hbound : db.ledger.quota.storageID = some storageID) :
    (reconcile r db).db.ledger.quota.storageID = some storageID := by
  by_cases hid : r.identity = .ok storageID
  · rcases reconcile_db r db with h | h
    · exact (congrArg (·.ledger.quota.storageID) h).trans hbound
    · exact (congrArg (·.ledger.quota.storageID) h).trans (reconcileBound_stays hbound hid)
  · rw [reconcile_other hbound hid]
    exact hbound

/-- A first run: it binds and succeeds or adopts files, or it fails and leaves the quota
    row as it was. -/
def FirstRun (r : Reconciliation) (db : Database k) (out : Reconciled k) : Prop :=
  (∃ storageID, r.identity = .ok storageID
      ∧ out.db.ledger.quota.storageID = some storageID
      ∧ (out.error = none ∨ Registered db out.db))
    ∨ (out.error ≠ none ∧ ¬ Registered db out.db ∧ out.db.ledger.quota.storageID = none
      ∧ (db.ledger.quota.reconciledAt = none → out.db.ledger.quota.reconciledAt = none)
      ∧ out.db.ledger.quota.usedBytes = db.ledger.quota.usedBytes
      ∧ out.db.ledger.quota.reservedBytes = db.ledger.quota.reservedBytes)

theorem FirstRun.of_same {out : Reconciled k} (hfree : db.ledger.quota.storageID = none)
    (hdb : out.db = db) (herr : out.error ≠ none) : FirstRun r db out :=
  Or.inr ⟨herr, by rw [hdb]; exact not_registered_refl db, by rw [hdb]; exact hfree,
    by rw [hdb]; exact id, by rw [hdb], by rw [hdb]⟩

theorem release_bound (hbound : db.ledger.quota.storageID = some storageID) :
    releaseStorageIdentity db storageID = .ok ((), Database.withQuotaRow db
      { db.ledger.quota with storageID := none }) := by
  rw [releaseStorageIdentity, if_pos hbound]

/-- The row after a first claim. -/
theorem claim_free (hfree : db.ledger.quota.storageID = none) :
    claimStorageIdentity db storageID = .ok (true, Database.withQuotaRow db
      { db.ledger.quota with storageID := some storageID }) := by
  rw [claimStorageIdentity, hfree]

/-- **The body of a first run**: the cases are the reply to the claim, the error of the
    locked part, and whether it adopted files. -/
theorem reconcileBound_first (hc : Careful r) (hfree : db.ledger.quota.storageID = none) :
    FirstRun r db (reconcileBound r db) := by
  rw [reconcileBound]
  cases hid : r.identity with
  | error err => exact .of_same hfree rfl nofun
  | ok storageID =>
      dsimp only
      rw [claim_free hfree]
      -- a careful run learns whether it bound the row
      cases hclaim : r.claimStorageIdentity with
      | failed => exact .of_same hfree rfl nofun
      | lost => exact absurd hclaim hc.claim
      | answered =>
          rw [Reply.deliver]
          dsimp only
          obtain ⟨new, hrun⟩ := reconcileLocked_run r (Database.withQuotaRow db
            { db.ledger.quota with storageID := some storageID })
          have hregistered : ∀ db' : Database k, db'.ledger.blobs
              = (reconcileLocked r (Database.withQuotaRow db
                { db.ledger.quota with storageID := some storageID })).db.ledger.blobs →
              (Registered db db' ↔ new ≠ []) := by
            intro db' hblobs
            rw [← hrun.registered_iff, Registered, hblobs]
            rfl
          have hbound := hrun.storageID
          have hexact := hrun.exact hc.register
          generalize reconcileLocked r (Database.withQuotaRow db
            { db.ledger.quota with storageID := some storageID }) = out at *
          cases herr : out.error with
          | none => exact Or.inl ⟨storageID, hid, hbound, Or.inl herr⟩
          | some err =>
              dsimp only
              rw [Reconciled.registeredOrphans] at hexact
              rw [hexact]
              -- nothing adopted: the binding is given back
              by_cases hnone : new = []
              · rw [if_pos ⟨rfl, by rw [hnone]; rfl⟩, release_bound hbound]
                have hat := hrun.reconciledAt (by rw [herr]; rfl) hc.validate
                have hcounters := hrun.counters hnone
                -- answered or lost, the row is free again
                cases hrelease : r.releaseStorageIdentity with
                | failed => exact absurd hrelease hc.release
                | answered =>
                    exact Or.inr ⟨Option.some_ne_none err,
                      fun h => (hregistered _ rfl).mp h hnone, rfl, hat, hcounters.1, hcounters.2⟩
                | lost =>
                    exact Or.inr ⟨nofun, fun h => (hregistered _ rfl).mp h hnone, rfl, hat,
                      hcounters.1, hcounters.2⟩
              · rw [if_neg]
                · exact Or.inl ⟨storageID, hid, hbound, Or.inr ((hregistered _ rfl).mpr hnone)⟩
                · rintro ⟨-, hzero⟩
                  exact hnone (List.length_eq_zero_iff.mp hzero)

/-- Another error on top of one changes neither what was bound nor what was adopted. -/
theorem FirstRun.with_error {out : Reconciled k} (h : FirstRun r db out) (herr : out.error ≠ none)
    (err : ReconcileError) : FirstRun r db { out with error := some err } := by
  rcases h with ⟨storageID, hid, hbound, hdone⟩ | ⟨-, hkept⟩
  · exact Or.inl ⟨storageID, hid, hbound, Or.inr (hdone.resolve_left herr)⟩
  · exact Or.inr ⟨Option.some_ne_none err, hkept⟩

/-- The first batch is always asked for. -/
theorem sealExpiredStaging_answers {now : Time} (h : sealExpiredStaging r now db = (.ok (), db')) :
    r.expireStagingForCleanup 0 = .answered := by
  rw [sealExpiredStaging, sealFrom] at h
  split at h
  · exact nomatch h
  next sealedRows m hstep => exact deliver_answered hstep

/-- A comparison that succeeds walked the root and was answered by the audit. -/
theorem compareFiles_answers {now : Time} {blobs : List StorageBlob}
    (h : (compareFiles r now blobs db).error = none) :
    (∃ files, r.walkManaged = .ok files) ∧ r.validateAndMarkReconciled = .answered := by
  rw [compareFiles] at h
  split at h
  · exact nomatch h
  · exact nomatch h
  · split at h
    · exact nomatch h
    next files hfiles =>
    split at h
    · exact nomatch h
    next registered db' hadopted =>
    split at h
    · exact nomatch h
    next db'' hstep => exact ⟨⟨files, hfiles⟩, deliver_answered hstep⟩

/-- A run that succeeds was answered everything. -/
theorem answered_of_succeeds (h : (reconcileBound r db).error = none) : Answered r := by
  rw [reconcileBound] at h
  cases hid : r.identity with
  | error err =>
      rw [hid] at h
      exact nomatch h
  | ok storageID =>
      rw [hid] at h
      dsimp only at h
      split at h
      · exact nomatch h
      next newlyBound m hclaim =>
      have hlocked : (reconcileLocked r m).error = none := by
        cases herr : (reconcileLocked r m).error with
        | none => rfl
        | some err =>
            rw [herr] at h
            dsimp only at h
            -- with the binding given back or not, the error stays
            split at h
            · split at h <;> exact nomatch h
            · exact nomatch herr.symm.trans h
      rw [reconcileLocked] at hlocked
      split at hlocked
      · exact nomatch hlocked
      next started hstarted =>
      split at hlocked
      · exact nomatch hlocked
      next now hnow =>
      split at hlocked
      · exact nomatch hlocked
      next sealedDb hsealed =>
      split at hlocked
      · exact nomatch hlocked
      next hlisted =>
      obtain ⟨hwalked, hvalidated⟩ := compareFiles_answers hlocked
      exact ⟨⟨storageID, hid⟩, deliver_answered hclaim, deliver_answered hstarted, ⟨now, hnow⟩,
        sealExpiredStaging_answers hsealed, Bool.not_eq_false _ ▸ hlisted, hwalked, hvalidated⟩

/-- **A first run**: releasing the lock adds at most an error, to a run that has one
    already. -/
theorem reconcile_first (hc : Careful r) (hfree : db.ledger.quota.storageID = none) :
    FirstRun r db (reconcile r db) := by
  have hbody := reconcileBound_first hc hfree
  rw [reconcile]
  split
  · exact .of_same hfree rfl nofun
  · cases hlock : r.lockReleased with
    | true => exact hbody
    | false =>
        have herr : (reconcileBound r db).error ≠ none := fun hok =>
          Bool.false_ne_true (hlock.symm.trans (hc.lock (answered_of_succeeds hok)))
        exact hbody.with_error herr _

end Runs

end Locked

/-! ## Sequences of runs -/

/-- A call of `Reconcile`, or any other transaction of the services. -/
inductive IdentityAction where
  | reconcile (r : Reconciliation)
  | other (op : StorageOp)

/-- Any number of runs on any roots, with other transactions in between. -/
def identitySystem : System (Database Collation.binary) IdentityAction where
  start db := db = Database.migrated Collation.binary
  step
    | db, .reconcile r, db' => db' = (reconcile r db).db
    | db, .other op, db' => ∃ registry, db' = (op.apply { db := db, registry := registry }).db

/-- The runs that may bind are careful. -/
def CarefulStep (db : Database Collation.binary) : IdentityAction → Prop
  | .reconcile r => db.ledger.quota.storageID = none → Careful r
  | .other _ => True

section Sequences

variable {db db' : Database Collation.binary} {r : Reconciliation} {storageID : String}

/-- A bound row stays bound, whatever runs and whatever fails. -/
theorem bound_step {a : IdentityAction} (hbound : db.ledger.quota.storageID = some storageID)
    (hstep : identitySystem.step db a db') : db'.ledger.quota.storageID = some storageID := by
  cases a with
  | reconcile r =>
      rw [show db' = (reconcile r db).db from hstep]
      exact reconcile_stays hbound
  | other op =>
      obtain ⟨registry, rfl⟩ := hstep
      exact (apply_sameBinding { db := db, registry := registry } op).storageID.trans hbound

/-- A row that is not bound has no mark. -/
theorem free_unmarked (h : Reachable (identitySystem.guarded CarefulStep) db) :
    db.ledger.quota.storageID = none → db.ledger.quota.reconciledAt = none := by
  refine h.invariant (I := fun db => db.ledger.quota.storageID = none →
    db.ledger.quota.reconciledAt = none) ?_ ?_
  · rintro db rfl -
    rfl
  · rintro db a db' - hdb ⟨hstep, hcareful⟩ hfree
    cases a with
    | reconcile r =>
        rw [show db' = (reconcile r db).db from hstep] at hfree ⊢
        cases hid : db.ledger.quota.storageID with
        | some storageID => exact nomatch (reconcile_stays hid).symm.trans hfree
        | none =>
            rcases reconcile_first (hcareful hid) hid with
              ⟨storageID, -, hbound, -⟩ | ⟨-, -, -, hat, -⟩
            · exact nomatch hbound.symm.trans hfree
            · exact hat (hdb hid)
    | other op =>
        obtain ⟨registry, rfl⟩ := hstep
        have hsame := apply_sameBinding { db := db, registry := registry } op
        exact hsame.reconciledAt.trans (hdb (hsame.storageID.symm.trans hfree))

/-- **Storage identity isolation**, in every sequence whose binding runs are careful: a run
    that succeeds or registers an orphan leaves the row bound to its own root, whatever
    runs later; then runs on other roots change nothing; and a failed run on a row that is
    not bound, without a registered orphan, leaves it unbound, unmarked and with its
    counters. -/
theorem storage_identity_isolation (hdb : Reachable (identitySystem.guarded CarefulStep) db)
    (hr : CarefulStep db (.reconcile r)) :
    ((reconcile r db).error = none ∨ Registered db (reconcile r db).db →
      ∃ storageID, r.identity = .ok storageID
        ∧ ∀ as db', Run identitySystem (reconcile r db).db as db' →
          db'.ledger.quota.storageID = some storageID
          ∧ ∀ r', r'.identity ≠ .ok storageID → (reconcile r' db').db = db')
    ∧ (db.ledger.quota.storageID = none → (reconcile r db).error ≠ none →
      ¬ Registered db (reconcile r db).db →
        (reconcile r db).db.ledger.quota.storageID = none
        ∧ (reconcile r db).db.ledger.quota.reconciledAt = none
        ∧ (reconcile r db).db.ledger.quota.usedBytes = db.ledger.quota.usedBytes
        ∧ (reconcile r db).db.ledger.quota.reservedBytes = db.ledger.quota.reservedBytes) := by
  constructor
  · intro hdone
    obtain ⟨storageID, hid, hbound⟩ : ∃ storageID, r.identity = .ok storageID
        ∧ (reconcile r db).db.ledger.quota.storageID = some storageID := by
      -- the row was free, or bound to this root, or to another
      cases hbinding : db.ledger.quota.storageID with
      | none =>
          rcases reconcile_first (hr hbinding) hbinding with
            ⟨storageID, hid, hbound, -⟩ | ⟨herr, hnone, -⟩
          · exact ⟨storageID, hid, hbound⟩
          · exact absurd hdone (not_or.mpr ⟨herr, hnone⟩)
      | some storageID =>
          refine ⟨storageID, ?_, reconcile_stays hbinding⟩
          by_contra hother
          -- another root: an error, and nothing registered
          rcases hdone with hok | hregistered
          · exact reconcile_other_error hbinding hother hok
          · rw [reconcile_other hbinding hother] at hregistered
            exact not_registered_refl db hregistered
    refine ⟨storageID, hid, fun as db' hrun => ?_⟩
    have hbound' := hrun.along
      (P := fun db : Database Collation.binary => db.ledger.quota.storageID = some storageID)
      (fun _ _ _ _ hb hs => bound_step hb hs) hbound
    exact ⟨hbound', fun r' hother => reconcile_other hbound' hother⟩
  · intro hfree herr hnone
    rcases reconcile_first (hr hfree) hfree with
      ⟨storageID, -, -, hdone⟩ | ⟨-, -, hid, hat, hused, hreserved⟩
    · exact absurd hdone (not_or.mpr ⟨herr, hnone⟩)
    · exact ⟨hid, hat (free_unmarked hdb hfree), hused, hreserved⟩

end Sequences

/-! A first run that is cancelled right after it bound the row: every later call on the
    cancelled context fails, the release of the binding among them. -/

/-- A run on `root-a`, cancelled before its second query. -/
def cancelledRun : Reconciliation where
  stagingTTL := 86400
  identity := .ok "root-a"
  databaseTime := .error (.errorf "context canceled")
  stat := fun _ => .notExist
  walkManaged := .error (.errorf "context canceled")
  releaseStorageIdentity := .failed

/-- It fails, registers nothing and keeps the binding. -/
theorem cancelled_run_keeps_binding :
    ¬ ∀ r : Reconciliation, (reconcile r (Database.migrated Collation.binary)).error ≠ none →
      ¬ Registered (Database.migrated Collation.binary)
        (reconcile r (Database.migrated Collation.binary)).db →
      (reconcile r (Database.migrated Collation.binary)).db.ledger.quota.storageID = none := by
  intro hclaim
  have hfree := hclaim cancelledRun nofun (fun ⟨_, hb, _⟩ => nomatch hb)
  exact nomatch hfree

/-- The same run with a context that is still alive gives the binding back. -/
theorem storage_identity_isolation_released :
    (reconcile { cancelledRun with releaseStorageIdentity := .answered }
      (Database.migrated Collation.binary)).db.ledger.quota.storageID = none :=
  ((storage_identity_isolation (.start rfl)
    (r := { cancelledRun with releaseStorageIdentity := .answered })
    (fun _ => ⟨nofun, nofun, nofun, nofun, fun _ => rfl⟩)).2 rfl nofun
      (fun ⟨_, hb, _⟩ => nomatch hb)).1

end StorageReconciliation
