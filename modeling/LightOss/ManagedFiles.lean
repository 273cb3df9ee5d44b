import LightOss.StreamingStage
import Mathlib.Data.List.AList

/-! # Managed files — the storage root and the programs that write it

    The database and the files under the storage root, and who changes them: uploaders
    that stage, publish or give up blobs, cleanup workers that delete the files of the
    jobs they claimed, and every other transaction of the services.  Each transaction
    and each file operation is one step, in any order; a file operation may fail, and
    an uploader may stop anywhere.

    `Bookkeeping` is what holds whatever the files do: the database is a reachable one
    of the storage system, every uploader's handle is known to the registry, and paths
    are issued once (`bookkeeping_step`).  The modules above this one add what the files
    themselves keep. -/

namespace ManagedFiles

open KeyedTable Fallible LedgerRows BlobRepository LedgerOps Catalog MetadataServices
open PublishLifecycle StepSystem StorageSystem LedgerExactness StreamingStage

/-! ## The files -/

/-- The files under the root by their path, with their sizes. -/
abbrev Files : Type := AList fun _ : String => Nat

namespace Files

/-- The bytes of a file; none when it is not there. -/
def sizeOf (files : Files) (path : String) : Nat := (files.lookup path).getD 0

/-- All managed bytes. -/
def bytes (files : Files) : Nat := (files.entries.map Sigma.snd).sum

/-- `file.Write`: what is written to a file that was removed meanwhile is lost. -/
def append (files : Files) (path : String) (written : Nat) : Files :=
  match files.lookup path with
  | some size => files.insert path (size + written)
  | none => files

/-- `LocalStorage.Delete`; the system may refuse to remove the file. -/
def unlink (files : Files) (path : String) (removed : Bool) : Files :=
  if removed then files.erase path else files

/-- `LocalStorage.Commit`; without a staging file the rename fails. -/
def commit (files : Files) (stagingPath finalPath : String) : Option Files :=
  if finalPath ∈ files then some (files.erase stagingPath)
  else (files.lookup stagingPath).map fun size => (files.erase stagingPath).insert finalPath size

section Facts

variable {files files' : Files} {path other stagingPath finalPath : String} {size written : Nat}

theorem lookup_insert_other (h : other ≠ path) :
    (files.insert path size).lookup other = files.lookup other := AList.lookup_insert_ne h

theorem lookup_append_self (h : files.lookup path = some size) :
    (files.append path written).lookup path = some (size + written) := by
  rw [append, h]
  exact AList.lookup_insert files

theorem lookup_append_other (h : other ≠ path) :
    (files.append path written).lookup other = files.lookup other := by
  rw [append]
  split
  · exact lookup_insert_other h
  · rfl

theorem lookup_unlink_other (h : other ≠ path) (removed : Bool) :
    (files.unlink path removed).lookup other = files.lookup other := by
  rw [unlink]
  split
  · exact AList.lookup_erase_ne h
  · rfl

/-- A delete brings no file back. -/
theorem lookup_unlink_none (h : files.lookup other = none) (path : String) (removed : Bool) :
    (files.unlink path removed).lookup other = none := by
  rw [unlink]
  split
  · by_cases hpath : other = path
    · rw [hpath]
      exact AList.lookup_erase _ _
    · rw [AList.lookup_erase_ne hpath, h]
  · exact h

/-- An unlink that works leaves no file. -/
theorem lookup_unlink_removed (files : Files) (path : String) :
    (files.unlink path true).lookup path = none := AList.lookup_erase _ _

/-- A file that is still there after a delete is the one that was there. -/
theorem lookup_of_unlink {removed : Bool}
    (h : (files.unlink path removed).lookup other = some size) :
    files.lookup other = some size := by
  rw [unlink] at h
  split at h
  · by_cases hpath : other = path
    · rw [hpath, AList.lookup_erase] at h
      cases h
    · rwa [AList.lookup_erase_ne hpath] at h
  · exact h

/-- The rename of a staged file to a path without a file. -/
theorem commit_rename (hfree : files.lookup finalPath = none)
    (hstaged : files.lookup stagingPath = some size)
    (h : files.commit stagingPath finalPath = some files') :
    files' = (files.erase stagingPath).insert finalPath size := by
  rw [commit, if_neg (AList.lookup_eq_none.mp hfree), hstaged] at h
  exact (Option.some.inj h).symm

theorem lookup_commit_other (h : files.commit stagingPath finalPath = some files')
    (hstaging : other ≠ stagingPath) (hfinal : other ≠ finalPath) :
    files'.lookup other = files.lookup other := by
  rw [commit] at h
  split at h
  · cases h
    exact AList.lookup_erase_ne hstaging
  · obtain ⟨size, -, rfl⟩ := Option.map_eq_some_iff.mp h
    rw [AList.lookup_insert_ne hfinal, AList.lookup_erase_ne hstaging]

end Facts

end Files

/-! ## Uploaders -/

/-- Where an uploader is with one blob; `size` bytes are in the file, `reserved` is
    `reservedBytes` of `Stage`, and `n` bytes are about to be written. -/
inductive Phase where
  | opening
  | writing (size reserved : Nat)
  | reserving (size reserved n : Nat)
  | retrying (size reserved n : Nat)
  | granted (size reserved n : Nat)
  | broken
  | closed (size reserved : Nat)
  | failed
  | committed (size : Nat)
  | published
  | deletingStaging
  | deletingFinal (ok : Bool)
  | deleted (ok : Bool)
  | released
  | crashed
  deriving DecidableEq

namespace Phase

/-- The blob is neither published nor given up. -/
def pending : Phase → Bool
  | .opening | .writing _ _ | .reserving _ _ _ | .retrying _ _ _ | .granted _ _ _ | .broken
  | .closed _ _ | .failed | .committed _ => true
  | _ => false

/-- `abortBatch` has the blob. -/
def givenUp : Phase → Bool
  | .deletingStaging | .deletingFinal _ | .deleted _ | .released => true
  | _ => false

/-- The bytes in the file, with those about to be written. -/
def total : Phase → Nat
  | .writing size _ => size
  | .reserving size _ n => size + n
  | .retrying size _ n => size + n
  | .granted size _ n => size + n
  | .closed size _ => size
  | .committed size => size
  | _ => 0

end Phase

/-- One blob of `Stage`, or of `StageKnownBatch` with its declared size. -/
structure Upload where
  storagePath : String
  stagingPath : String
  expectedSize : Option Nat
  phase : Phase := .opening

/-- `beforeWrite`, as far as it needs no transaction. -/
def afterRead (expectedSize : Option Nat) (size reserved n : Nat) : Phase :=
  match expectedSize with
  | some expected =>
      if int64 (size + n) < 0 ∨ expected < size + n then .broken else .granted size reserved n
  | none =>
      if int64 (size + n) ≤ 0 ∨ size + n ≤ reserved then .granted size reserved n
      else .reserving size reserved n

/-- The first `Reserve` of `reserveBeforeWrite`. -/
def afterReserve (required size reserved n : Nat) : Except Err Ledger → Phase
  | .ok _ => .granted size required n
  | .error .storageQuotaExceeded => .retrying size reserved n
  | .error _ => .broken

/-- The second one, for the exact size. -/
def afterRetry (size n : Nat) : Except Err Ledger → Phase
  | .ok _ => .granted size (size + n) n
  | .error _ => .broken

/-- A short write breaks the stream. -/
def afterWrite (size reserved n written : Nat) : Phase :=
  if written = n then .writing (size + written) reserved else .broken

/-- `stageKnown` compares the size of the file with the declared one. -/
def afterClose (expectedSize : Option Nat) (size reserved : Nat) : Phase :=
  match expectedSize with
  | some expected => if size = expected then .closed size reserved else .failed
  | none => .closed size reserved

/-- The `Reserve` for an empty body. -/
def afterReserveOne : Except Err Ledger → Phase
  | .ok _ => .closed 0 1
  | .error _ => .failed

/-! ## Cleanup workers -/

/-- Where `processClaimedJob` is. -/
inductive WorkerPhase where
  | found (blobID : String)
  | unlinkingStaging (blob : StorageBlob)
  | unlinkingFinal (blob : StorageBlob) (ok : Bool)
  | unlinked (blob : StorageBlob) (ok : Bool)
  | ended

/-- The job a worker has claimed, and how far it is. -/
structure Worker where
  jobID : Nat
  phase : WorkerPhase

/-- `blob.Status == active || blob.RefCount != 0`. -/
def referenced (blob : StorageBlob) : Bool := decide (blob.status = .active ∨ blob.refCount ≠ 0)

/-- The staging file a worker deletes. -/
def stagingFile (blob : StorageBlob) : Option String :=
  match blob.stagingPath with
  | some path => if path ≠ "" ∧ path ≠ blob.storagePath then some path else none
  | none => none

/-! ## The world -/

/-- The database with its registry, the files, the uploaders by blob id, and the
    workers by the token they claimed their job with. -/
structure World where
  storage : State
  files : Files
  uploads : String → Option Upload := fun _ => none
  workers : String → Option Worker := fun _ => none

namespace World

/-- The ledger of the world. -/
def ledger (w : World) : Ledger := w.storage.db.ledger

/-- A transaction leaves the files alone. -/
def transact (w : World) (op : StorageOp) : World := { w with storage := op.apply w.storage }

/-- One uploader goes on. -/
def setUpload (w : World) (id : String) (u : Upload) (phase : Phase) : World :=
  { w with uploads := Function.update w.uploads id (some { u with phase := phase }) }

/-- Every uploader of a list goes on to one phase. -/
def setPhases (w : World) (ids : List String) (phase : Phase) : World :=
  { w with uploads := fun id =>
      if id ∈ ids then (w.uploads id).map fun u => { u with phase := phase } else w.uploads id }

/-- One worker goes on. -/
def setWorker (w : World) (token : String) (jobID : Nat) (phase : WorkerPhase) : World :=
  { w with workers := Function.update w.workers token (some { jobID := jobID, phase := phase }) }

/-- The uploads of new rows begin, when the insert went through. -/
def enlist (w : World) (op : LedgerOp) (blobs : List StorageBlob)
    (expectedSize : StorageBlob → Option Nat) : World :=
  match op.run w.ledger with
  | .error _ => w.transact (.ledger op)
  | .ok _ =>
      { w.transact (.ledger op) with uploads := fun id =>
          match (blobs.find? fun b => b.id == id) with
          | some b => some {
              storagePath := b.storagePath
              stagingPath := b.stagingPath.getD ""
              expectedSize := expectedSize b }
          | none => w.uploads id }

end World

/-- The paths of new rows name no file, and no two rows get the same one. -/
structure FreshPaths (files : Files) (blobs : List StorageBlob) : Prop where
  distinct : ∀ b ∈ blobs, ∀ c ∈ blobs, b.storagePath = c.storagePath → b = c
  final : ∀ b ∈ blobs, b.storagePath ∉ files
  staging : ∀ b ∈ blobs, ∀ p ∈ b.stagingPath, p ∉ files

/-- Transactions that neither an uploader nor a worker makes in one of its steps. -/
def Independent : StorageOp → Prop
  | .ledger (.renewStagingLease _ _ _ _) => True
  | .ledger (.expireStaging _ _ _) => True
  | .ledger (.registerOrphan _) => True
  | .ledger (.scheduleOrphanCleanup _ _) => True
  | .ledger (.claim _ _ _ _) => True
  | .ledger (.renewCleanupLease _ _ _) => True
  | .ledger (.fail _ _ _ _) => True
  | .ledger (.updateMaxBytes _) => True
  | .publish p _ => p.stagedBlobs = []
  | .catalog _ => True
  | _ => False

/-- What a step is seen to do. -/
inductive Event where
  | transaction (op : StorageOp)
  | unlink (path : String)
  | silent

/-- The steps; `chunk` is `reservationChunk`. -/
inductive Step (chunk : Nat) (w : World) : Event → World → Prop where
  | stage {blob : StorageBlob} {lease : Duration} {now : Time} :
      NewBlobs w.storage.registry [blob] → blob.size = 0 → FreshPaths w.files [blob] →
      Step chunk w (.transaction (.ledger (.createStaging blob lease now)))
        (w.enlist (.createStaging blob lease now) [blob] fun _ => none)
  | stageBatch {blobs : List StorageBlob} {declared : StorageBlob → Nat} {lease : Duration}
      {now : Time} :
      NewBlobs w.storage.registry blobs → FreshPaths w.files blobs →
      (∀ b ∈ blobs, b.size = if declared b = 0 then 1 else declared b) →
      Step chunk w
        (.transaction (.ledger (.createStagingBatch blobs blobLedgerWriteBatchSize lease now)))
        (w.enlist (.createStagingBatch blobs blobLedgerWriteBatchSize lease now) blobs
          fun b => some (declared b))
  | openFile {id : String} {u : Upload} :
      w.uploads id = some u → u.phase = .opening → u.stagingPath ∉ w.files →
      Step chunk w .silent
        { w.setUpload id u (.writing 0 0) with files := w.files.insert u.stagingPath 0 }
  | openFails {id : String} {u : Upload} :
      w.uploads id = some u → u.phase = .opening → Step chunk w .silent (w.setUpload id u .failed)
  | read {id : String} {u : Upload} {size reserved n : Nat} :
      w.uploads id = some u → u.phase = .writing size reserved → 0 < n → size + n < 2 ^ 63 →
      Step chunk w .silent (w.setUpload id u (afterRead u.expectedSize size reserved n))
  | reserve {id : String} {u : Upload} {size reserved n required : Nat} {op : LedgerOp} :
      w.uploads id = some u → u.phase = .reserving size reserved n →
      required = roundUp (size + n) chunk → op = .reserve id (uint64Sub required reserved) →
      Step chunk w (.transaction (.ledger op))
        ((w.transact (.ledger op)).setUpload id u
          (afterReserve required size reserved n (op.run w.ledger)))
  | reserveExact {id : String} {u : Upload} {size reserved n : Nat} {op : LedgerOp} :
      w.uploads id = some u → u.phase = .retrying size reserved n →
      op = .reserve id (uint64Sub (size + n) reserved) →
      Step chunk w (.transaction (.ledger op))
        ((w.transact (.ledger op)).setUpload id u (afterRetry size n (op.run w.ledger)))
  | write {id : String} {u : Upload} {size reserved n written : Nat} :
      w.uploads id = some u → u.phase = .granted size reserved n → written ≤ n →
      Step chunk w .silent
        { w.setUpload id u (afterWrite size reserved n written) with
          files := w.files.append u.stagingPath written }
  | interrupt {id : String} {u : Upload} {size reserved : Nat} :
      w.uploads id = some u → u.phase = .writing size reserved →
      Step chunk w .silent (w.setUpload id u .broken)
  | discard {id : String} {u : Upload} {removed : Bool} :
      w.uploads id = some u → u.phase = .broken →
      Step chunk w (.unlink u.stagingPath)
        { w.setUpload id u .failed with files := w.files.unlink u.stagingPath removed }
  | close {id : String} {u : Upload} {size reserved : Nat} :
      w.uploads id = some u → u.phase = .writing size reserved →
      Step chunk w .silent (w.setUpload id u (afterClose u.expectedSize size reserved))
  | reserveOne {id : String} {u : Upload} {op : LedgerOp} :
      w.uploads id = some u → u.phase = .closed 0 0 → u.expectedSize = none →
      op = .reserve id 1 →
      Step chunk w (.transaction (.ledger op))
        ((w.transact (.ledger op)).setUpload id u (afterReserveOne (op.run w.ledger)))
  | commit {id : String} {u : Upload} {size reserved : Nat} {files : Files} :
      w.uploads id = some u → u.phase = .closed size reserved →
      (u.expectedSize = none → ¬ (size = 0 ∧ reserved = 0)) →
      w.files.commit u.stagingPath u.storagePath = some files →
      Step chunk w .silent { w.setUpload id u (.committed size) with files := files }
  | commitFails {id : String} {u : Upload} {size reserved : Nat} :
      w.uploads id = some u → u.phase = .closed size reserved →
      Step chunk w .silent (w.setUpload id u .failed)
  | publish {p : Publication} {now : Time} :
      p.Accepted → (∀ staged ∈ p.stagedBlobs, ∃ u, w.uploads staged.id = some u
        ∧ u.storagePath = staged.storagePath ∧ u.phase = .committed staged.size) →
      Step chunk w (.transaction (.publish p now))
        ((w.transact (.publish p now)).setPhases (p.stagedBlobs.map (·.id)) .published)
  | confirm {stagedBlobs : List StagedBlob} {now : Time} :
      (∀ staged ∈ stagedBlobs, ∃ u, w.uploads staged.id = some u ∧ u.phase = .published) →
      Step chunk w (.transaction (.confirm stagedBlobs now)) (w.transact (.confirm stagedBlobs now))
  | giveUp {ids : List String} :
      (∀ id ∈ ids, ∃ u, w.uploads id = some u
        ∧ (u.phase = .opening ∨ u.phase = .failed ∨ ∃ size, u.phase = .committed size)) →
      Step chunk w (.transaction (.abort ids))
        ((w.transact (.abort ids)).setPhases ids .deletingStaging)
  | deleteStaging {id : String} {u : Upload} {removed : Bool} :
      w.uploads id = some u → u.phase = .deletingStaging →
      Step chunk w (.unlink u.stagingPath)
        { w.setUpload id u (.deletingFinal removed) with
          files := w.files.unlink u.stagingPath removed }
  | deleteFinal {id : String} {u : Upload} {ok removed : Bool} :
      w.uploads id = some u → u.phase = .deletingFinal ok →
      Step chunk w (.unlink u.storagePath)
        { w.setUpload id u (.deleted (ok && removed)) with
          files := w.files.unlink u.storagePath removed }
  | release {ids : List String} :
      (∀ id ∈ ids, ∃ u, w.uploads id = some u ∧ u.phase = .deleted true) →
      Step chunk w (.transaction (.ledger (.releaseStagingBatch ids blobLedgerWriteBatchSize)))
        (w.transact (.ledger (.releaseStagingBatch ids blobLedgerWriteBatchSize)))
  | track {requests : List CleanupRequest} {now : Time} :
      (∀ r ∈ requests, ∃ u ok, w.uploads r.blobID = some u ∧ u.storagePath = r.storagePath
        ∧ u.phase = .deleted ok) →
      Step chunk w (.transaction (.ledger (.enqueueCleanup requests now blobLedgerWriteBatchSize)))
        (w.transact (.ledger (.enqueueCleanup requests now blobLedgerWriteBatchSize)))
  | crash {id : String} {u : Upload} :
      w.uploads id = some u → Step chunk w .silent (w.setUpload id u .crashed)
  | find {token : String} {jobID : Nat} {job : StorageCleanupJob} :
      w.workers token = none → findClaimedCleanupJob w.ledger jobID token = .ok job →
      Step chunk w .silent (w.setWorker token jobID (.found job.blobID))
  | load {token blobID : String} {jobID : Nat} {blob : StorageBlob} :
      w.workers token = some { jobID := jobID, phase := .found blobID } →
      findByID w.ledger blobID = .ok blob →
      Step chunk w .silent (w.setWorker token jobID
        (if referenced blob then .ended else .unlinkingStaging blob))
  | unlinkStaging {token path : String} {jobID : Nat} {blob : StorageBlob} {removed : Bool} :
      w.workers token = some { jobID := jobID, phase := .unlinkingStaging blob } →
      stagingFile blob = some path →
      Step chunk w (.unlink path)
        { w.setWorker token jobID (.unlinkingFinal blob removed) with
          files := w.files.unlink path removed }
  | skipStaging {token : String} {jobID : Nat} {blob : StorageBlob} :
      w.workers token = some { jobID := jobID, phase := .unlinkingStaging blob } →
      stagingFile blob = none →
      Step chunk w .silent (w.setWorker token jobID (.unlinkingFinal blob true))
  | unlinkFinal {token : String} {jobID : Nat} {blob : StorageBlob} {ok removed : Bool} :
      w.workers token = some { jobID := jobID, phase := .unlinkingFinal blob ok } →
      Step chunk w (.unlink blob.storagePath)
        { w.setWorker token jobID (.unlinked blob (ok && removed)) with
          files := w.files.unlink blob.storagePath removed }
  | complete {token : String} {jobID : Nat} {blob : StorageBlob} :
      w.workers token = some { jobID := jobID, phase := .unlinked blob true } →
      Step chunk w (.transaction (.ledger (.complete jobID token)))
        ((w.transact (.ledger (.complete jobID token))).setWorker token jobID .ended)
  | other {op : StorageOp} :
      Independent op → op.Allowed w.storage →
      Step chunk w (.transaction op) (w.transact op)

/-- The system from the empty database, over a root that may hold foreign files. -/
def worldSystem (chunk : Nat) (foreign : Files) : System World Event where
  start w := w = { storage := State.initial, files := foreign }
  step := Step chunk

/-! ## Uploaders and the registry -/

/-- What the registry knows of an upload. -/
structure UploadOk (g : Registry) (id : String) (u : Upload) : Prop where
  created : ∃ c ∈ g.created, c.id = id ∧ c.storagePath = u.storagePath
    ∧ c.stagingPath = some u.stagingPath
  pending : u.phase.pending = true → id ∉ g.published ∧ id ∉ g.aborted
  givenUp : u.phase.givenUp = true → id ∈ g.aborted
  total : u.phase.total < 2 ^ 63

/-- Every uploader's handle is known to the registry. -/
def UploadsOk (g : Registry) (uploads : String → Option Upload) : Prop :=
  ∀ id u, uploads id = some u → UploadOk g id u

section Uploads

variable {g g' : Registry} {uploads : String → Option Upload} {id : String} {u : Upload}
  {phase : Phase} {ids : List String}

/-- One uploader goes on to `phase`. -/
theorem UploadsOk.move (h : UploadsOk g uploads) (hu : uploads id = some u)
    (hpending : phase.pending = true → u.phase.pending = true)
    (hgivenUp : phase.givenUp = true → u.phase.givenUp = true) (htotal : phase.total < 2 ^ 63) :
    UploadsOk g (Function.update uploads id (some { u with phase := phase })) := by
  intro other v hv
  by_cases hid : other = id
  · rw [hid, Function.update_self] at hv
    cases hv
    have hok := h id u hu
    exact hid ▸ ⟨hok.created, fun hp => hok.pending (hpending hp),
      fun hp => hok.givenUp (hgivenUp hp), htotal⟩
  · rw [Function.update_of_ne hid] at hv
    exact h other v hv

/-- One uploader goes on to a phase that is neither publishing nor giving up. -/
theorem UploadsOk.continue (h : UploadsOk g uploads) (hu : uploads id = some u)
    (hpending : u.phase.pending = true) (hgivenUp : phase.givenUp = false)
    (htotal : phase.total < 2 ^ 63) :
    UploadsOk g (Function.update uploads id (some { u with phase := phase })) := by
  refine h.move hu (fun _ => hpending) (fun hgiven => ?_) htotal
  exact absurd (hgivenUp.symm.trans hgiven) Bool.false_ne_true

/-- A registry that knows more, as long as it does not decide about pending uploads. -/
theorem UploadsOk.extends (h : UploadsOk g uploads) (hg : Extends g g')
    (hpending : ∀ id u, uploads id = some u → u.phase.pending = true →
      (id ∈ g'.published → id ∈ g.published) ∧ (id ∈ g'.aborted → id ∈ g.aborted)) :
    UploadsOk g' uploads := by
  intro id u hu
  obtain ⟨⟨c, hc, hcreated⟩, hfree, hgivenUp, htotal⟩ := h id u hu
  refine ⟨⟨c, hg.created c hc, hcreated⟩, fun hp => ?_,
    fun hp => hg.aborted id (hgivenUp hp), htotal⟩
  exact ⟨fun hpub => (hfree hp).1 ((hpending id u hu hp).1 hpub),
    fun habort => (hfree hp).2 ((hpending id u hu hp).2 habort)⟩

/-- What the uploads are after some of them went on. -/
theorem setPhases_eq {w : World} {v : Upload} (hv : (w.setPhases ids phase).uploads id = some v) :
    (id ∈ ids ∧ ∃ u, w.uploads id = some u ∧ v = { u with phase := phase })
      ∨ (id ∉ ids ∧ w.uploads id = some v) := by
  rw [World.setPhases] at hv
  dsimp only at hv
  split at hv
  · next hmem =>
      obtain ⟨u, hu, rfl⟩ := Option.map_eq_some_iff.mp hv
      exact Or.inl ⟨hmem, u, hu, rfl⟩
  · next hmem => exact Or.inr ⟨hmem, hv⟩

/-- The upload of a new row begins with its paths. -/
theorem enlist_eq {w : World} {op : LedgerOp} {blobs : List StorageBlob}
    {expectedSize : StorageBlob → Option Nat} {v : Upload}
    (hv : (w.enlist op blobs expectedSize).uploads id = some v) :
    w.uploads id = some v ∨ ((∃ l, op.run w.ledger = .ok l) ∧ ∃ b ∈ blobs, b.id = id
      ∧ v = { storagePath := b.storagePath, stagingPath := b.stagingPath.getD ""
              expectedSize := expectedSize b }) := by
  rw [World.enlist] at hv
  split at hv
  · exact Or.inl hv
  · next l hrun =>
      dsimp only at hv
      split at hv
      · next b hb =>
          have hid := List.find?_some hb
          exact Or.inr ⟨⟨l, hrun⟩, b, List.mem_of_find?_eq_some hb, beq_iff_eq.mp hid,
            (Option.some.inj hv).symm⟩
      · exact Or.inl hv

/-- New uploaders leave the rest of the world to the transaction. -/
theorem enlist_storage (w : World) (op : LedgerOp) (blobs : List StorageBlob)
    (expectedSize : StorageBlob → Option Nat) :
    (w.enlist op blobs expectedSize).storage = (StorageOp.ledger op).apply w.storage
      ∧ (w.enlist op blobs expectedSize).files = w.files
      ∧ (w.enlist op blobs expectedSize).workers = w.workers := by
  rw [World.enlist]
  split <;> exact ⟨rfl, rfl, rfl⟩

end Uploads

section Phases

variable {size reserved n required written : Nat} {expectedSize : Option Nat}
  {result : Except Err Ledger}

theorem total_of_zero {phase : Phase} (h : phase.total = 0) : phase.total < 2 ^ 63 := by
  rw [h]
  exact Nat.two_pow_pos 63

/-- After a read the write may go on, needs a reservation or fails. -/
theorem afterRead_cases (expectedSize : Option Nat) (size reserved n : Nat) :
    afterRead expectedSize size reserved n = .granted size reserved n
      ∨ afterRead expectedSize size reserved n = .reserving size reserved n
      ∨ afterRead expectedSize size reserved n = .broken := by
  unfold afterRead
  split <;> split <;> simp

/-- After a reservation: granted, tried again for less, or failed. -/
theorem afterReserve_cases (required size reserved n : Nat) (result : Except Err Ledger) :
    afterReserve required size reserved n result = .granted size required n
      ∨ afterReserve required size reserved n result = .retrying size reserved n
      ∨ afterReserve required size reserved n result = .broken := by
  unfold afterReserve
  split <;> simp

theorem afterRetry_cases (size n : Nat) (result : Except Err Ledger) :
    afterRetry size n result = .granted size (size + n) n ∨ afterRetry size n result = .broken := by
  unfold afterRetry
  split <;> simp

/-- A body of another length than announced fails. -/
theorem afterClose_cases (expectedSize : Option Nat) (size reserved : Nat) :
    afterClose expectedSize size reserved = .closed size reserved
      ∨ afterClose expectedSize size reserved = .failed := by
  unfold afterClose
  split
  · split <;> simp
  · exact Or.inl rfl

theorem afterReserveOne_cases (result : Except Err Ledger) :
    afterReserveOne result = .closed 0 1 ∨ afterReserveOne result = .failed := by
  unfold afterReserveOne
  split <;> simp

end Phases

/-! ## A step -/

section Steps

variable {chunk : Nat} {w w' : World} {e : Event}

/-- The database after the event. -/
def Event.apply (s : State) : Event → State
  | .transaction op => op.apply s
  | _ => s

/-- Only a transaction changes the database. -/
theorem step_storage (hs : Step chunk w e w') : w'.storage = e.apply w.storage := by
  cases hs with
  | stage => exact (enlist_storage _ _ _ _).1
  | stageBatch => exact (enlist_storage _ _ _ _).1
  | _ => rfl

/-- Every transaction is one the services allow themselves. -/
theorem step_allowed (h : UploadsOk w.storage.registry w.uploads) {op : StorageOp}
    (hs : Step chunk w (.transaction op) w') : op.Allowed w.storage := by
  cases hs with
  | stage hnew hsize _ => exact ⟨hnew, hsize⟩
  | stageBatch hnew _ _ => exact hnew
  | reserve _ _ _ hop =>
      rw [hop]
      trivial
  | reserveExact _ _ hop =>
      rw [hop]
      trivial
  | reserveOne _ _ _ hop =>
      rw [hop]
      trivial
  | @publish p now haccepted hstaged =>
      refine ⟨haccepted, fun staged hmem => ?_⟩
      obtain ⟨u, hu, hpath, hphase⟩ := hstaged staged hmem
      -- a handle that is ready was issued with this path and is neither published nor given up
      obtain ⟨⟨c, hc, hid, hcpath, -⟩, hfree, -, htotal⟩ := h staged.id u hu
      rw [hphase] at hfree htotal
      exact ⟨⟨c, hc, hid, hcpath.trans hpath⟩, htotal, (hfree rfl).2⟩
  | confirm _ => trivial
  | giveUp hids =>
      intro id hid
      obtain ⟨u, hu, hphase⟩ := hids id hid
      refine ((h id u hu).pending ?_).1
      rcases hphase with hphase | hphase | ⟨size, hphase⟩ <;> rw [hphase] <;> rfl
  | release _ => trivial
  | track hrequests =>
      intro r hr
      obtain ⟨u, ok, hu, hpath, hphase⟩ := hrequests r hr
      -- tracked are blobs whose uploader has given them up
      obtain ⟨⟨c, hc, hid, hcpath, -⟩, -, hgivenUp, -⟩ := h r.blobID u hu
      refine ⟨hgivenUp ?_, c, hc, hid, hcpath.trans hpath⟩
      rw [hphase]
      rfl
  | complete _ => trivial
  | other _ hop => exact hop

/-- No step of the world makes the registry forget. -/
theorem step_extends (hr : RegistryOk w.storage.registry)
    (h : UploadsOk w.storage.registry w.uploads) (hs : Step chunk w e w') :
    Extends w.storage.registry w'.storage.registry := by
  rw [step_storage hs]
  cases e with
  | transaction op => exact (registry_step hr (step_allowed h hs)).1
  | unlink path => exact extends_marked w.storage.registry [] []
  | silent => exact extends_marked w.storage.registry [] []

end Steps

/-! ## What the registry knows along a run -/

/-- Blobs that are published or given up were made up before, and no two blobs were made
    up with one path. -/
structure RegistryPaths (g : Registry) : Prop where
  published : ∀ id ∈ g.published, id ∈ g.issuedIDs
  aborted : ∀ id ∈ g.aborted, id ∈ g.issuedIDs
  final : ∀ c ∈ g.created, ∀ d ∈ g.created, c.storagePath = d.storagePath → c = d
  apart : ∀ c ∈ g.created, ∀ d ∈ g.created, c.stagingPath ≠ some d.storagePath
  staging : ∀ c ∈ g.created, ∀ d ∈ g.created, ∀ p, c.stagingPath = some p →
    d.stagingPath = some p → c = d

section Registry

variable {g : Registry} {blobs : List StorageBlob}

theorem RegistryPaths.issue (h : RegistryPaths g) (hr : RegistryOk g) (hn : NewBlobs g blobs)
    (hdistinct : ∀ b ∈ blobs, ∀ c ∈ blobs, b.storagePath = c.storagePath → b = c) :
    RegistryPaths (g.issue blobs) where
  published := fun id hid => List.mem_append_right _ (h.published id hid)
  aborted := fun id hid => List.mem_append_right _ (h.aborted id hid)
  final := by
    intro c hc d hd heq
    rcases List.mem_append.mp hc with hc | hc <;> rcases List.mem_append.mp hd with hd | hd
    · exact hdistinct c hc d hd heq
    · exact absurd (heq ▸ hr.createdPaths d hd) (hn.storagePaths c hc)
    · exact absurd (heq ▸ hr.createdPaths c hc) (hn.storagePaths d hd)
    · exact h.final c hc d hd heq
  apart := by
    intro c hc d hd heq
    rcases List.mem_append.mp hc with hc | hc <;> rcases List.mem_append.mp hd with hd | hd
    · exact hn.apart c hc d hd heq
    · exact hn.stagingPaths c hc _ heq (hr.createdPaths d hd)
    · exact hn.storagePaths d hd (hr.stagingPaths c hc _ heq)
    · exact h.apart c hc d hd heq
  staging := by
    intro c hc d hd p hcp hdp
    rcases List.mem_append.mp hc with hc | hc <;> rcases List.mem_append.mp hd with hd | hd
    · exact (hn.distinct c hc d hd (hdp.trans hcp.symm)).symm
    · exact absurd (hr.stagingPaths d hd p hdp) (hn.stagingPaths c hc p hcp)
    · exact absurd (hr.stagingPaths c hc p hcp) (hn.stagingPaths d hd p hdp)
    · exact h.staging c hc d hd p hcp hdp

/-- Only what was issued is published or given up. -/
theorem RegistryPaths.marked (h : RegistryPaths g) {published aborted : List String}
    (hpublished : ∀ id ∈ published, id ∈ g.issuedIDs)
    (haborted : ∀ id ∈ aborted, id ∈ g.issuedIDs) :
    RegistryPaths { g with
      published := published ++ g.published, aborted := aborted ++ g.aborted } where
  published := fun id hid => (List.mem_append.mp hid).elim (hpublished id) (h.published id)
  aborted := fun id hid => (List.mem_append.mp hid).elim (haborted id) (h.aborted id)
  final := h.final
  apart := h.apart
  staging := h.staging

theorem RegistryPaths.adopt (h : RegistryPaths g) (blob : StorageBlob) :
    RegistryPaths (g.adopt blob) where
  published := fun id hid => List.mem_cons_of_mem _ (h.published id hid)
  aborted := fun id hid => List.mem_cons_of_mem _ (h.aborted id hid)
  final := h.final
  apart := h.apart
  staging := h.staging

/-- An upload has paths of its own. -/
theorem UploadsOk.apart {uploads : String → Option Upload} (h : UploadsOk g uploads)
    (hp : RegistryPaths g) {id other : String} {u v : Upload} (hu : uploads id = some u)
    (hv : uploads other = some v) (hne : id ≠ other) :
    u.storagePath ≠ v.storagePath ∧ u.stagingPath ≠ v.storagePath
      ∧ u.storagePath ≠ v.stagingPath ∧ u.stagingPath ≠ v.stagingPath := by
  obtain ⟨c, hc, hcid, hcpath, hcstaging⟩ := (h id u hu).created
  obtain ⟨d, hd, hdid, hdpath, hdstaging⟩ := (h other v hv).created
  have hdiffer : c ≠ d := by
    rintro rfl
    exact hne (hcid.symm.trans hdid)
  refine ⟨fun heq => ?_, fun heq => ?_, fun heq => ?_, fun heq => ?_⟩
  · exact hdiffer (hp.final c hc d hd (hcpath.trans (heq.trans hdpath.symm)))
  · exact hp.apart c hc d hd (hcstaging.trans (congrArg some (heq.trans hdpath.symm)))
  · exact hp.apart d hd c hc (hdstaging.trans (congrArg some (heq.symm.trans hcpath.symm)))
  · exact hdiffer (hp.staging c hc d hd _ hcstaging (heq ▸ hdstaging))

/-- New rows begin uploads of their own. -/
theorem UploadsOk.enlist {w : World} (h : UploadsOk w.storage.registry w.uploads)
    (hp : RegistryPaths w.storage.registry) (hn : NewBlobs w.storage.registry blobs)
    (op : LedgerOp) (expectedSize : StorageBlob → Option Nat) :
    UploadsOk (w.storage.registry.issue blobs) (w.enlist op blobs expectedSize).uploads := by
  intro id v hv
  rcases enlist_eq hv with hv | ⟨-, b, hb, rfl, rfl⟩
  · obtain ⟨⟨c, hc, hcreated⟩, hfree, hgivenUp, htotal⟩ := h id v hv
    exact ⟨⟨c, List.mem_append_right _ hc, hcreated⟩, hfree, hgivenUp, htotal⟩
  · have hfresh := hn.freshIDs b hb
    have hstaging := (hn.staging b hb).hasStagingPath
    refine ⟨⟨b, List.mem_append_left _ hb, rfl, rfl, ?_⟩, fun _ => ⟨?_, ?_⟩, nofun, ?_⟩
    · cases hpath : b.stagingPath with
      | none =>
          rw [StorageBlob.hasStagingPath, hpath] at hstaging
          cases hstaging
      | some p => rfl
    · exact fun hpub => hfresh (hp.published _ hpub)
    · exact fun habort => hfresh (hp.aborted _ habort)
    · show 0 < 2 ^ 63
      decide

end Registry

/-- What holds of the database and the uploaders, whatever happens to the files. -/
structure Bookkeeping (w : World) : Prop where
  reachable : Reachable storageSystem w.storage
  uploads : UploadsOk w.storage.registry w.uploads
  paths : RegistryPaths w.storage.registry

section Bookkeeping

variable {chunk : Nat} {w w' : World} {e : Event}

/-- The invariant of the storage system. -/
theorem Bookkeeping.storage (h : Bookkeeping w) : StorageOk w.storage :=
  storageOk_of_reachable h.reachable

theorem Bookkeeping.issued (h : Bookkeeping w) {id : String} {u : Upload}
    (hu : w.uploads id = some u) : id ∈ w.storage.registry.issuedIDs := by
  obtain ⟨c, hc, hid, -⟩ := (h.uploads id u hu).created
  exact hid ▸ h.storage.registry.createdIDs c hc

/-- A step of the world is one of the storage system, or leaves it alone. -/
theorem Bookkeeping.reachable_step (h : Bookkeeping w) (hs : Step chunk w e w') :
    Reachable storageSystem w'.storage := by
  rw [step_storage hs]
  cases e with
  | transaction op => exact reachable_apply h.reachable (step_allowed h.uploads hs)
  | unlink path => exact h.reachable
  | silent => exact h.reachable

/-- The transactions that mark blobs. -/
theorem Bookkeeping.marked (h : Bookkeeping w) {published aborted : List String} {phase : Phase}
    (hids : ∀ id ∈ published ++ aborted, ∃ u, w.uploads id = some u)
    (hpending : phase.pending = false)
    (hgivenUp : phase.givenUp = true → published = []) (htotal : phase.total < 2 ^ 63) :
    UploadsOk { w.storage.registry with
        published := published ++ w.storage.registry.published
        aborted := aborted ++ w.storage.registry.aborted }
        (w.setPhases (published ++ aborted) phase).uploads
      ∧ RegistryPaths { w.storage.registry with
        published := published ++ w.storage.registry.published
        aborted := aborted ++ w.storage.registry.aborted } := by
  have hissued : ∀ id ∈ published ++ aborted, id ∈ w.storage.registry.issuedIDs := by
    intro id hid
    obtain ⟨u, hu⟩ := hids id hid
    exact h.issued hu
  refine ⟨fun id v hv => ?_, h.paths.marked
    (fun id hid => hissued id (List.mem_append_left _ hid))
    (fun id hid => hissued id (List.mem_append_right _ hid))⟩
  rcases setPhases_eq hv with ⟨hmem, u, hu, rfl⟩ | ⟨hmem, hv⟩
  · refine ⟨(h.uploads id u hu).created, fun hp => ?_, fun hp => ?_, htotal⟩
    · exact absurd (hpending.symm.trans hp) Bool.false_ne_true
    · rw [hgivenUp hp, List.nil_append] at hmem
      exact List.mem_append_left _ hmem
  · obtain ⟨hcreated, hfree, hgiven, htotal⟩ := h.uploads id v hv
    refine ⟨hcreated, fun hp => ⟨fun hpub => ?_, fun habort => ?_⟩, fun hp => ?_, htotal⟩
    · refine (List.mem_append.mp hpub).elim (fun hin => hmem ?_) (hfree hp).1
      exact List.mem_append_left _ hin
    · refine (List.mem_append.mp habort).elim (fun hin => hmem ?_) (hfree hp).2
      exact List.mem_append_right _ hin
    · exact List.mem_append_right _ (hgiven hp)

/-- `Reserve` issues nothing. -/
theorem reserve_registry (w : World) (u : Upload) (phase : Phase) {id : String} {bytes : Nat}
    {op : LedgerOp} (hop : op = .reserve id bytes) :
    ((w.transact (.ledger op)).setUpload id u phase).storage.registry = w.storage.registry := by
  rw [hop]
  rfl

/-- **The bookkeeping step.** -/
theorem bookkeeping_step (h : Bookkeeping w) (hs : Step chunk w e w') : Bookkeeping w' := by
  have hreachable := h.reachable_step hs
  have huploads := h.uploads
  have hpaths := h.paths
  -- a step of one uploader leaves the registry alone
  have hmove : w'.storage.registry = w.storage.registry →
      UploadsOk w.storage.registry w'.uploads → Bookkeeping w' := by
    intro hreg hmoved
    exact ⟨hreachable, hreg ▸ hmoved, hreg ▸ hpaths⟩
  cases hs with
  -- new rows: the registry issues what the rows are made of
  | stage hnew hsize hfresh =>
      refine ⟨hreachable, ?_, ?_⟩
      · rw [(enlist_storage _ _ _ _).1]
        exact huploads.enlist hpaths hnew _ _
      · rw [(enlist_storage _ _ _ _).1]
        exact hpaths.issue h.storage.registry hnew hfresh.distinct
  | stageBatch hnew hfresh hsizes =>
      refine ⟨hreachable, ?_, ?_⟩
      · rw [(enlist_storage _ _ _ _).1]
        exact huploads.enlist hpaths hnew _ _
      · rw [(enlist_storage _ _ _ _).1]
        exact hpaths.issue h.storage.registry hnew hfresh.distinct
  -- the uploader's own steps: its phase changes, its handle does not
  | openFile hu hphase _ =>
      exact hmove rfl (huploads.continue hu (by rw [hphase]; rfl) rfl (total_of_zero rfl))
  | openFails hu hphase =>
      exact hmove rfl (huploads.continue hu (by rw [hphase]; rfl) rfl (total_of_zero rfl))
  | @read id u size reserved n hu hphase _ hlt =>
      refine hmove rfl (huploads.continue hu (by rw [hphase]; rfl) ?_ ?_)
      · rcases afterRead_cases u.expectedSize size reserved n with h | h | h <;> rw [h] <;> rfl
      · rcases afterRead_cases u.expectedSize size reserved n with h | h | h <;> rw [h]
        · exact hlt
        · exact hlt
        · exact total_of_zero rfl
  | @reserve id u size reserved n required op hu hphase _ hop =>
      have htotal := (huploads id u hu).total
      rw [hphase] at htotal
      refine hmove (reserve_registry w u _ hop) (huploads.continue hu (by rw [hphase]; rfl) ?_ ?_)
      · rcases afterReserve_cases required size reserved n (op.run w.ledger) with h | h | h <;>
          rw [h] <;> rfl
      · rcases afterReserve_cases required size reserved n (op.run w.ledger) with
          h | h | h <;> rw [h]
        · exact htotal
        · exact htotal
        · exact total_of_zero rfl
  | @reserveExact id u size reserved n op hu hphase hop =>
      have htotal := (huploads id u hu).total
      rw [hphase] at htotal
      refine hmove (reserve_registry w u _ hop) (huploads.continue hu (by rw [hphase]; rfl) ?_ ?_)
      · rcases afterRetry_cases size n (op.run w.ledger) with h | h <;> rw [h] <;> rfl
      · rcases afterRetry_cases size n (op.run w.ledger) with h | h <;> rw [h]
        · exact htotal
        · exact total_of_zero rfl
  | @write id u size reserved n written hu hphase hle =>
      have htotal := (huploads id u hu).total
      rw [hphase] at htotal
      refine hmove rfl (huploads.continue hu (by rw [hphase]; rfl) ?_ ?_)
      · rw [afterWrite]
        split <;> rfl
      · rw [afterWrite]
        split
        · exact Nat.lt_of_le_of_lt (Nat.add_le_add_left hle size) htotal
        · exact total_of_zero rfl
  | interrupt hu hphase =>
      exact hmove rfl (huploads.continue hu (by rw [hphase]; rfl) rfl (total_of_zero rfl))
  | discard hu hphase =>
      exact hmove rfl (huploads.continue hu (by rw [hphase]; rfl) rfl (total_of_zero rfl))
  | @close id u size reserved hu hphase =>
      have htotal := (huploads id u hu).total
      rw [hphase] at htotal
      refine hmove rfl (huploads.continue hu (by rw [hphase]; rfl) ?_ ?_)
      · rcases afterClose_cases u.expectedSize size reserved with h | h <;> rw [h] <;> rfl
      · rcases afterClose_cases u.expectedSize size reserved with h | h <;> rw [h]
        · exact htotal
        · exact total_of_zero rfl
  | @reserveOne id u op hu hphase _ hop =>
      refine hmove (reserve_registry w u _ hop) (huploads.continue hu (by rw [hphase]; rfl) ?_ ?_)
      · rcases afterReserveOne_cases (op.run w.ledger) with h | h <;> rw [h] <;> rfl
      · rcases afterReserveOne_cases (op.run w.ledger) with h | h <;> rw [h]
        · exact total_of_zero rfl
        · exact total_of_zero rfl
  | @commit id u size reserved files hu hphase _ _ =>
      have htotal := (huploads id u hu).total
      rw [hphase] at htotal
      exact hmove rfl (huploads.continue hu (by rw [hphase]; rfl) rfl htotal)
  | commitFails hu hphase =>
      exact hmove rfl (huploads.continue hu (by rw [hphase]; rfl) rfl (total_of_zero rfl))
  -- the two steps that promise something: publishing, and giving up
  | @publish p now haccepted hstaged =>
      have hids : ∀ id ∈ p.stagedBlobs.map (·.id) ++ [], ∃ u, w.uploads id = some u := by
        intro id hid
        rw [List.append_nil] at hid
        obtain ⟨staged, hmem, rfl⟩ := List.mem_map.mp hid
        obtain ⟨u, hu, -⟩ := hstaged staged hmem
        exact ⟨u, hu⟩
      have hgone : Phase.givenUp .published = true → p.stagedBlobs.map (·.id) = [] := nofun
      have hmarked := h.marked hids rfl hgone (total_of_zero rfl)
      rw [List.append_nil] at hmarked
      exact ⟨hreachable, hmarked.1, hmarked.2⟩
  | confirm _ => exact hmove rfl huploads
  | @giveUp ids hgiven =>
      have hids : ∀ id ∈ [] ++ ids, ∃ u, w.uploads id = some u := by
        intro id hid
        obtain ⟨u, hu, -⟩ := hgiven id hid
        exact ⟨u, hu⟩
      have hgone : Phase.givenUp .deletingStaging = true → ([] : List String) = [] := fun _ => rfl
      have hmarked := h.marked hids rfl hgone (total_of_zero rfl)
      exact ⟨hreachable, hmarked.1, hmarked.2⟩
  | deleteStaging hu hphase =>
      exact hmove rfl (huploads.move hu nofun (fun _ => by rw [hphase]; rfl) (total_of_zero rfl))
  | deleteFinal hu hphase =>
      exact hmove rfl (huploads.move hu nofun (fun _ => by rw [hphase]; rfl) (total_of_zero rfl))
  | release _ => exact hmove rfl huploads
  | track _ => exact hmove rfl huploads
  | crash hu => exact hmove rfl (huploads.move hu nofun nofun (total_of_zero rfl))
  -- a worker's steps touch no upload
  | find _ _ => exact hmove rfl huploads
  | load _ _ => exact hmove rfl huploads
  | unlinkStaging _ _ => exact hmove rfl huploads
  | skipStaging _ _ => exact hmove rfl huploads
  | unlinkFinal _ => exact hmove rfl huploads
  | complete _ => exact hmove rfl huploads
  | @other op hfree hop =>
      cases op with
      | ledger op =>
          cases op with
          | registerOrphan blob =>
              have hext := extends_adopt w.storage.registry blob
              refine ⟨hreachable, huploads.extends hext fun id u _ _ => ⟨?_, ?_⟩, hpaths.adopt blob⟩
              · exact fun hpub => hpub
              · exact fun habort => habort
          | createStaging blob lease now => exact hfree.elim
          | createStagingBatch blobs n lease now => exact hfree.elim
          | _ => exact hmove rfl huploads
      | publish p now =>
          refine hmove ?_ huploads
          rw [World.transact, StorageOp.apply, hfree]
          rfl
      | abort ids => exact hfree.elim
      | confirm stagedBlobs now => exact hfree.elim
      | catalog c => exact hmove rfl huploads

end Bookkeeping

end ManagedFiles
