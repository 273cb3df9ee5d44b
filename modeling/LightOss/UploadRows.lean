import LightOss.DeletionSafety
import LightOss.SparedRows

/-! # Upload rows — the row of an unfinished upload pays for its file

    While the heartbeat keeps its lease, an unfinished upload has its staging row, and
    the row is large enough for what the uploader may have written in its phase
    (`Covered`): a row is made before its file, and grows before each write.

    The row is taken only by a publication, which ends the upload (`pending_kept`);
    every other step leaves it or lets it grow.  `BytesOk` adds what is gone from the
    disk, and what workers have removed. -/

namespace UploadRows

open KeyedTable Fallible LedgerRows BlobRepository LedgerSpecs LedgerMoves LedgerOps
open LedgerEvolution LedgerInvariant Catalog MetadataServices MetadataReferences
open StorageAudit PublishLifecycle StepSystem StorageSystem LedgerExactness StreamingStage
open ManagedFiles DeletionSafety SparedRows

/-! ## What a step does to the files -/

/-- The files after one step. -/
inductive FileMove (w : World) : Files → Prop where
  | same : FileMove w w.files
  | create {id : String} {u : Upload} : w.uploads id = some u → u.phase = .opening →
      FileMove w (w.files.insert u.stagingPath 0)
  | grow {id : String} {u : Upload} {size reserved n written : Nat} : w.uploads id = some u →
      u.phase = .granted size reserved n → written ≤ n →
      FileMove w (w.files.append u.stagingPath written)
  | rename {id : String} {u : Upload} {size reserved : Nat} : w.uploads id = some u →
      u.phase = .closed size reserved →
      FileMove w ((w.files.erase u.stagingPath).insert u.storagePath size)
  | remove (path : String) (removed : Bool) : FileMove w (w.files.unlink path removed)

/-- The files of a closed upload are in order. -/
def ClosedOk (w : World) : Prop :=
  ∀ id u size reserved, w.uploads id = some u → u.phase = .closed size reserved →
    w.files.lookup u.stagingPath = some size ∧ w.files.lookup u.storagePath = none

section Moves

variable {chunk : Nat} {w w' : World} {e : Event} {files : Files} {path : String}

theorem step_fileMove (hclosed : ClosedOk w) (hs : Step chunk w e w') : FileMove w w'.files := by
  cases hs with
  | stage => exact (enlist_storage _ _ _ _).2.1.symm ▸ .same
  | stageBatch => exact (enlist_storage _ _ _ _).2.1.symm ▸ .same
  | openFile hu hphase _ => exact .create hu hphase
  | write hu hphase hle => exact .grow hu hphase hle
  | discard => exact .remove _ _
  | commit hu hphase _ hcommit =>
      obtain ⟨hstaging, hfinal⟩ := hclosed _ _ _ _ hu hphase
      rw [Files.commit_rename hfinal hstaging hcommit]
      exact .rename hu hphase
  | deleteStaging => exact .remove _ _
  | deleteFinal => exact .remove _ _
  | unlinkStaging => exact .remove _ _
  | unlinkFinal => exact .remove _ _
  | _ => exact .same

/-- Appending to a file makes no other one. -/
theorem lookup_append_none (h : w.files.lookup path = none) (other : String) (written : Nat) :
    (w.files.append other written).lookup path = none := by
  by_cases heq : path = other
  · rw [heq] at h ⊢
    rw [Files.append, h]
    exact h
  · rw [Files.lookup_append_other heq, h]

/-- No file comes to a path that no uploader is about to make. -/
theorem FileMove.absent (h : FileMove w files) (hpath : w.files.lookup path = none)
    (hcreate : ∀ id u, w.uploads id = some u → u.phase = .opening → path ≠ u.stagingPath)
    (hrename : ∀ id u size reserved, w.uploads id = some u → u.phase = .closed size reserved →
      path ≠ u.storagePath) : files.lookup path = none := by
  cases h with
  | same => exact hpath
  | create hu hphase =>
      rw [Files.lookup_insert_other (hcreate _ _ hu hphase), hpath]
  | grow hu hphase hle => exact lookup_append_none hpath _ _
  | @rename id u size reserved hu hphase =>
      rw [Files.lookup_insert_other (hrename _ _ _ _ hu hphase)]
      exact Files.lookup_unlink_none hpath u.stagingPath true
  | remove other removed => exact Files.lookup_unlink_none hpath other removed

end Moves

/-! ## Uploads and their rows -/

/-- The bytes an uploader may have in its file. -/
def cap (expectedSize : Option Nat) (reserved : Nat) : Nat := expectedSize.getD reserved

/-- A row of size `total` pays for an upload in this phase. -/
def Covered (expectedSize : Option Nat) (total : Nat) : Phase → Prop
  | .opening => cap expectedSize 0 ≤ total
  | .writing size reserved | .closed size reserved =>
      size ≤ cap expectedSize reserved ∧ cap expectedSize reserved ≤ total
  | .reserving size reserved n | .retrying size reserved n =>
      expectedSize = none ∧ reserved < size + n ∧ reserved ≤ total
  | .granted size reserved n =>
      size + n ≤ cap expectedSize reserved ∧ cap expectedSize reserved ≤ total
  | .committed size => size ≤ total
  | _ => True

theorem Covered.mono {expectedSize : Option Nat} {total total' : Nat} {phase : Phase}
    (h : Covered expectedSize total phase) (hle : total ≤ total') :
    Covered expectedSize total' phase := by
  cases phase with
  | opening => exact Nat.le_trans h hle
  | writing size reserved => exact ⟨h.1, Nat.le_trans h.2 hle⟩
  | reserving size reserved n => exact ⟨h.1, h.2.1, Nat.le_trans h.2.2 hle⟩
  | retrying size reserved n => exact ⟨h.1, h.2.1, Nat.le_trans h.2.2 hle⟩
  | granted size reserved n => exact ⟨h.1, Nat.le_trans h.2 hle⟩
  | closed size reserved => exact ⟨h.1, Nat.le_trans h.2 hle⟩
  | committed size => exact Nat.le_trans h hle
  | _ => trivial

/-- The row of an unfinished upload. -/
structure UploadRow (l : Ledger) (id : String) (u : Upload) (b : StorageBlob) : Prop where
  mem : b ∈ l.blobs.rows
  id : b.id = id
  status : b.status = .staging
  storagePath : b.storagePath = u.storagePath
  stagingPath : b.stagingPath = some u.stagingPath
  covered : Covered u.expectedSize b.size u.phase

/-- What is gone from the disk. -/
def UploadGone (files : Files) (u : Upload) : Prop :=
  match u.phase with
  | .committed _ => files.lookup u.stagingPath = none
  | .deletingFinal ok => ok = true → files.lookup u.stagingPath = none
  | .deleted ok => ok = true →
      files.lookup u.stagingPath = none ∧ files.lookup u.storagePath = none
  | _ => True

/-- What a worker knows of the row it loaded. -/
structure Loaded (w : World) (jobID : Nat) (blob : StorageBlob) : Prop where
  job : JobFor w.ledger jobID blob.id
  doomed : Doomed w.storage blob.id
  rows : ∀ b ∈ w.ledger.blobs.rows, b.id = blob.id →
    b.storagePath = blob.storagePath ∧ b.stagingPath = blob.stagingPath
  apart : blob.stagingPath ≠ some blob.storagePath
  final : Discarded w.storage blob.storagePath
  staging : ∀ p ∈ blob.stagingPath, Discarded w.storage p

/-- What a worker has removed is gone, in each of its phases. -/
def WorkerGone (w : World) (worker : Worker) : Prop :=
  match worker.phase with
  | .found blobID => JobFor w.ledger worker.jobID blobID ∧ Doomed w.storage blobID
  | .unlinkingStaging blob => Loaded w worker.jobID blob
  | .unlinkingFinal blob ok => Loaded w worker.jobID blob
      ∧ (ok = true → ∀ p ∈ blob.stagingPath, w.files.lookup p = none)
  | .unlinked blob ok => Loaded w worker.jobID blob
      ∧ (ok = true → (∀ p ∈ blob.stagingPath, w.files.lookup p = none)
        ∧ w.files.lookup blob.storagePath = none)
  | .ended => True

/-- The row manages the path. -/
def Manages (b : StorageBlob) (path : String) : Prop :=
  b.storagePath = path ∨ b.stagingPath = some path

/-- The ledger pays for the files. -/
structure BytesOk (w : World) : Prop where
  uploads : ∀ id u, w.uploads id = some u → u.phase.pending = true →
    ∃ b, UploadRow w.ledger id u b
  owned : ∀ path n, w.files.lookup path = some n →
    ∃ b ∈ w.ledger.blobs.rows, Manages b path ∧ n ≤ b.size
  single : ∀ b ∈ w.ledger.blobs.rows, ∀ p ∈ b.stagingPath,
    w.files.lookup p = none ∨ w.files.lookup b.storagePath = none
  gone : ∀ id u, w.uploads id = some u → UploadGone w.files u
  workers : ∀ token worker, w.workers token = some worker → WorkerGone w worker
  unnamed : w.files.lookup "" = none

/-- The leases of unfinished uploads do not run out. -/
def Heartbeat (w : World) : Event → Prop
  | .transaction (.ledger (.expireStaging before _ now)) =>
      ∀ id u, w.uploads id = some u → u.phase.pending = true →
        ∀ b ∈ w.ledger.blobs.rows, b.id = id → stagingExpired before now b = false
  | _ => True

/-! ## Unfinished uploads -/

section Pending

variable {chunk : Nat} {w w' : World} {e : Event} {id : String} {u : Upload}

/-- An upload with a row may still be published. -/
theorem live_of_row (hb : Bookkeeping w) (hu : w.uploads id = some u)
    (hpending : u.phase.pending = true) {b : StorageBlob} (hrow : UploadRow w.ledger id u b) :
    ¬ Doomed w.storage id := by
  rintro ⟨-, habort | hsealed⟩
  · exact ((hb.uploads id u hu).pending hpending).2 habort
  · have := hsealed b hrow.mem hrow.id
    simp [hrow.status] at this

/-- An upload that goes on is not doomed. -/
theorem pending_live (hb : Bookkeeping w) (h : BytesOk w) (hu : w.uploads id = some u)
    (hpending : u.phase.pending = true) : ¬ Doomed w.storage id := by
  obtain ⟨b, hrow⟩ := h.uploads id u hu hpending
  exact live_of_row hb hu hpending hrow

/-- A closed file has the length that was written. -/
theorem closedOk (hb : Bookkeeping w) (hf : FilesOk w) (h : BytesOk w) : ClosedOk w := by
  intro id u size reserved hu hphase
  have hfiles := hf.uploads id u hu (pending_live hb h hu (by rw [hphase]; rfl))
  rw [UploadFiles, hphase] at hfiles
  exact hfiles

/-- No uploader makes a file at a discarded path. -/
theorem discarded_absent (hb : Bookkeeping w) (hf : FilesOk w) (h : BytesOk w)
    (hs : Step chunk w e w') {path : String} (hpath : Discarded w.storage path)
    (hnone : w.files.lookup path = none) : w'.files.lookup path = none := by
  refine (step_fileMove (closedOk hb hf h) hs).absent hnone ?_ ?_
  · intro id u hu hphase heq
    have hpending : u.phase.pending = true := by rw [hphase]; rfl
    obtain ⟨⟨c, hc, hid, -, hstaging⟩, hfree, -⟩ := hb.uploads id u hu
    rcases hpath.2 c hc (hstaging.trans (congrArg some heq.symm)) with hpub | hdoomed
    · exact (hfree hpending).1 (hid ▸ hpub)
    · exact pending_live hb h hu hpending (hid ▸ hdoomed)
  · intro id u size reserved hu hphase heq
    have hpending : u.phase.pending = true := by rw [hphase]; rfl
    obtain ⟨c, hc, hid, hcpath, -⟩ := (hb.uploads id u hu).created
    exact pending_live hb h hu hpending (hid ▸ hpath.1.2 c hc (hcpath.trans heq.symm))

/-- Only a publication takes the row of an unfinished upload, and ends it. -/
theorem pending_kept (hb : Bookkeeping w) {op : StorageOp}
    (hs : Step chunk w (.transaction op) w') (hbeat : Heartbeat w (.transaction op))
    (hu : w.uploads id = some u) (hpending : u.phase.pending = true) {b : StorageBlob}
    (hrow : UploadRow w.ledger id u b) (htaken : TakenBy w.storage b op) :
    ∀ v, w'.uploads id = some v → v.phase.pending = false := by
  have hfree := (hb.uploads id u hu).pending hpending
  -- an upload in another phase is another upload
  have hother : ∀ {v : Upload} {phase : Phase}, w.uploads id = some v → v.phase = phase →
      phase.pending = false → False := by
    intro v phase hv hphase hfalse
    have hvu : u = v := Option.some.inj (hu.symm.trans hv)
    rw [hvu, hphase, hfalse] at hpending
    cases hpending
  cases hs with
  | stage => exact htaken.elim
  | stageBatch => exact htaken.elim
  | reserve _ _ _ hop =>
      rw [hop] at htaken
      exact htaken.elim
  | reserveExact _ _ hop =>
      rw [hop] at htaken
      exact htaken.elim
  | reserveOne _ _ _ hop =>
      rw [hop] at htaken
      exact htaken.elim
  | publish _ _ =>
      intro v hv
      rcases setPhases_eq hv with ⟨-, u', -, rfl⟩ | ⟨hnot, -⟩
      · rfl
      · exact absurd (hrow.id ▸ htaken) hnot
  | confirm hstaged =>
      -- a confirmation names blobs of an upload that is publishing, not this one
      obtain ⟨staged, hmem, hid⟩ := List.mem_map.mp htaken
      obtain ⟨v, hv, hphase⟩ := hstaged staged hmem
      rw [hid, hrow.id] at hv
      exact (hother hv hphase rfl).elim
  | giveUp _ => exact htaken.elim
  | release hids =>
      obtain ⟨v, hv, hphase⟩ := hids id (hrow.id ▸ htaken)
      exact (hother hv hphase rfl).elim
  | track _ => exact htaken.elim
  | complete _ =>
      exact absurd (hrow.id ▸ hb.storage.rows.jobs b hrow.mem hrow.status htaken) hfree.2
  | other hop _ =>
      cases op with
      | ledger op =>
          cases op with
          | expireStaging before limit now =>
              -- the heartbeat: the lease has not run out
              have hlease := hbeat id u hu hpending b hrow.mem hrow.id
              exact absurd (hlease.symm.trans htaken) Bool.false_ne_true
          | activate as n => exact hop.elim
          | releaseStaging blobID => exact hop.elim
          | releaseStagingBatch ids n => exact hop.elim
          | sealStaging ids n => exact hop.elim
          | complete id owner => exact hop.elim
          | _ => exact htaken.elim
      | publish p now =>
          have hnone : p.stagedBlobs = [] := hop
          rw [TakenBy, hnone] at htaken
          exact absurd htaken List.not_mem_nil
      | confirm stagedBlobs now => exact hop.elim
      | abort ids => exact htaken.elim
      | catalog c => exact htaken.elim

/-- The row of an upload that goes on. -/
theorem row_stays (hb : Bookkeeping w) (hs : Step chunk w e w') (hbeat : Heartbeat w e)
    (hu : w.uploads id = some u) (hpending : u.phase.pending = true) {b : StorageBlob}
    (hrow : UploadRow w.ledger id u b) {v : Upload} (hv : w'.uploads id = some v)
    (hgoes : v.phase.pending = true) : ∃ b' ∈ w'.ledger.blobs.rows, Stays b b' := by
  rw [World.ledger, step_storage hs]
  cases e with
  | unlink path => exact ⟨b, hrow.mem, .refl hrow.status⟩
  | silent => exact ⟨b, hrow.mem, .refl hrow.status⟩
  | transaction op =>
      refine (apply_spares op hrow.mem hrow.status).resolve_right fun htaken => ?_
      have hends := pending_kept hb hs hbeat hu hpending hrow htaken v hv
      exact absurd (hends.symm.trans hgoes) Bool.false_ne_true

/-- The row of a new upload. -/
theorem row_enlisted {op : LedgerOp} {blobs : List StorageBlob} {l : Ledger}
    {expectedSize : StorageBlob → Option Nat} {total : Nat} {t : Time}
    (hnew : NewBlobs w.storage.registry blobs) (hstaged : Staged w.ledger blobs total t l)
    (hrun : op.run w.ledger = .ok l) (hcap : ∀ b ∈ blobs, cap (expectedSize b) 0 ≤ b.size)
    {b : StorageBlob} (hb : b ∈ blobs) :
    ∃ b', UploadRow (w.enlist op blobs expectedSize).ledger b.id
      { storagePath := b.storagePath, stagingPath := b.stagingPath.getD ""
        expectedSize := expectedSize b } b' := by
  obtain ⟨hst, hhas, -⟩ := hnew.staging b hb
  have hledger : (w.enlist op blobs expectedSize).ledger = l := by
    rw [World.ledger, (enlist_storage _ _ _ _).1]
    exact apply_of_ok hrun
  have hstays := stays_renewed hst (blobs.map (·.id)) t
  refine ⟨renewed (blobs.map (·.id)) t b, ?_, hstays.id, hstays.status, hstays.storagePath, ?_, ?_⟩
  · rw [hledger, hstaged.rows]
    exact List.mem_map_of_mem (List.mem_append_right _ hb)
  · rw [hstays.stagingPath]
    cases hpath : b.stagingPath with
    | none =>
        rw [StorageBlob.hasStagingPath, hpath] at hhas
        cases hhas
    | some p => rfl
  · exact Nat.le_trans (hcap b hb) hstays.size

/-- What was reserved is in the row. -/
theorem covered_reserved {op : LedgerOp} {bytes : Nat} {phase : Phase} {b : StorageBlob}
    (hrow : UploadRow w.ledger id u b) (hop : op = .reserve id bytes) {l : Ledger}
    (hrun : op.run w.ledger = .ok l)
    (hcovered : Covered u.expectedSize (b.size + bytes) phase) :
    ∃ b', UploadRow ((w.transact (.ledger op)).setUpload id u phase).ledger id
      { u with phase := phase } b' := by
  have hledger : ((w.transact (.ledger op)).setUpload id u phase).ledger = l := apply_of_ok hrun
  rw [hop, ← hrow.id] at hrun
  refine ⟨{ b with size := b.size + bytes }, ?_, hrow.id, hrow.status, hrow.storagePath,
    hrow.stagingPath, hcovered⟩
  rw [hledger]
  exact reserve_grows hrun hrow.mem hrow.status

/-- **One step**: an unfinished upload keeps a row that pays for what it may have written. -/
theorem uploadRows_step (hchunk : 0 < chunk) (hrange : chunk < 2 ^ 64) (hb : Bookkeeping w)
    (h : BytesOk w) (hs : Step chunk w e w') (hbeat : Heartbeat w e) :
    ∀ id u, w'.uploads id = some u → u.phase.pending = true →
      ∃ b, UploadRow w'.ledger id u b := by
  intro other v hv hgoes
  -- the row is still there, and pays for the phase the upload is in now
  have hstay : ∀ u, w.uploads other = some u → u.phase.pending = true →
      v.storagePath = u.storagePath → v.stagingPath = u.stagingPath →
      (∀ total, Covered u.expectedSize total u.phase → Covered v.expectedSize total v.phase) →
      ∃ b, UploadRow w'.ledger other v b := by
    intro u hu hpending hfinal hstaging hcovered
    obtain ⟨b, hrow⟩ := h.uploads other u hu hpending
    obtain ⟨b', hmem, hstays⟩ := row_stays hb hs hbeat hu hpending hrow hv hgoes
    exact ⟨b', hmem, hstays.id.trans hrow.id, hstays.status,
      hstays.storagePath.trans (hrow.storagePath.trans hfinal.symm),
      hstays.stagingPath.trans (hrow.stagingPath.trans (congrArg some hstaging.symm)),
      (hcovered _ hrow.covered).mono hstays.size⟩
  have hkept : w.uploads other = some v → ∃ b, UploadRow w'.ledger other v b :=
    fun hold => hstay v hold hgoes rfl rfl fun _ hcovered => hcovered
  have hown : ∀ (id : String) (u : Upload) (phase : Phase), w.uploads id = some u →
      w'.uploads = Function.update w.uploads id (some { u with phase := phase }) →
      (phase.pending = true → u.phase.pending = true
        ∧ ∀ total, Covered u.expectedSize total u.phase → Covered u.expectedSize total phase) →
      ∃ b, UploadRow w'.ledger other v b := by
    intro id u phase hu hupdate hafter
    rw [hupdate] at hv
    by_cases hid : other = id
    · rw [hid, Function.update_self] at hv
      cases hv
      obtain ⟨hpending, hcovered⟩ := hafter hgoes
      exact hstay u (hid ▸ hu) hpending rfl rfl hcovered
    · rw [Function.update_of_ne hid] at hv
      exact hkept hv
  -- a phase that is no longer pending
  have hdone : ∀ {P : Prop} {phase : Phase}, phase.pending = false → phase.pending = true → P :=
    fun hfalse htrue => absurd (hfalse.symm.trans htrue) Bool.false_ne_true
  -- a reservation of one upload
  have hreserved : ∀ (id : String) (u : Upload) (phase : Phase) (bytes : Nat) (op : LedgerOp),
      w.uploads id = some u → u.phase.pending = true → op = .reserve id bytes →
      w' = (w.transact (.ledger op)).setUpload id u phase →
      ((∃ l, op.run w.ledger = .ok l) ∧ (∀ total, Covered u.expectedSize total u.phase →
          Covered u.expectedSize (total + bytes) phase))
        ∨ (∀ total, Covered u.expectedSize total u.phase → Covered u.expectedSize total phase) →
      ∃ b, UploadRow w'.ledger other v b := by
    rintro id u phase bytes op hu hpending hop rfl hafter
    rcases hafter with ⟨⟨l, hrun⟩, hcovered⟩ | hcovered
    · by_cases hid : other = id
      · obtain ⟨b, hrow⟩ := h.uploads id u hu hpending
        rw [World.setUpload] at hv
        dsimp only at hv
        rw [hid, Function.update_self] at hv
        cases hv
        rw [hid]
        exact covered_reserved hrow hop hrun (hcovered _ hrow.covered)
      · rw [World.setUpload] at hv
        dsimp only at hv
        rw [Function.update_of_ne hid] at hv
        exact hkept hv
    · exact hown id u phase hu rfl fun _ => ⟨hpending, hcovered⟩
  cases hs with
  | stage hnew hsize hfresh =>
      rcases enlist_eq hv with hold | ⟨⟨l, hrun⟩, b, hmem, rfl, rfl⟩
      · exact hkept hold
      · exact row_enlisted hnew (createStagingWithLease_ok hrun) hrun
          (fun _ _ => Nat.zero_le _) hmem
  | @stageBatch blobs declared lease now hnew hfresh hsizes =>
      rcases enlist_eq hv with hold | ⟨⟨l, hrun⟩, b, hmem, rfl, rfl⟩
      · exact hkept hold
      · refine row_enlisted hnew (createStagingBatchWithLease_ok hrun) hrun (fun c hc => ?_) hmem
        show declared c ≤ c.size
        rw [hsizes c hc]
        split <;> omega
  | openFile hu hphase _ =>
      refine hown _ _ _ hu rfl fun _ => ⟨by rw [hphase]; rfl, fun total hcovered => ?_⟩
      rw [hphase] at hcovered
      exact ⟨Nat.zero_le _, hcovered⟩
  | openFails hu hphase =>
      exact hown _ _ _ hu rfl fun _ => ⟨by rw [hphase]; rfl, fun _ _ => trivial⟩
  | @read id u size reserved n hu hphase hpos hlt =>
      refine hown _ _ _ hu rfl fun _ => ⟨by rw [hphase]; rfl, fun total hcovered => ?_⟩
      rw [hphase] at hcovered
      have hint : int64 (size + n) = size + n := int64_of_lt hlt
      unfold afterRead
      split
      · next expected hexpected =>
          split
          · trivial
          · next hfits =>
              refine ⟨?_, hcovered.2⟩
              rw [hexpected, cap, Option.getD_some]
              omega
      · next hnone =>
          have hcap : ∀ r, cap u.expectedSize r = r := by
            intro r
            rw [hnone]
            rfl
          have hle := hcovered.2
          rw [hcap] at hle
          split
          · next hfits =>
              refine ⟨?_, ?_⟩ <;> rw [hcap]
              · omega
              · exact hle
          · next hgrows => exact ⟨hnone, by omega, hle⟩
  | @reserve id u size reserved n required op hu hphase hrequired hop =>
      have hpending : u.phase.pending = true := by rw [hphase]; rfl
      have htotal := (hb.uploads id u hu).total
      rw [hphase] at htotal
      replace htotal : size + n < 2 ^ 63 := htotal
      refine hreserved id u _ _ op hu hpending hop rfl ?_
      cases hrun : op.run w.ledger with
      | ok l =>
          refine Or.inl ⟨⟨l, rfl⟩, fun total hcovered => ?_⟩
          rw [hphase] at hcovered
          obtain ⟨hnone, hgrows, hle⟩ := hcovered
          obtain ⟨hge, -, -, hlt⟩ := roundUp_bounds htotal hrange (by omega) hchunk
          rw [← hrequired] at hge hlt
          rw [uint64Sub_eq hlt (by omega)]
          show size + n ≤ cap u.expectedSize required ∧ cap u.expectedSize required ≤ _
          rw [hnone, cap, Option.getD_none]
          omega
      | error err =>
          refine Or.inr fun total hcovered => ?_
          rw [hphase] at hcovered
          unfold afterReserve
          split
          · next heq => cases heq
          · exact hcovered
          · trivial
  | @reserveExact id u size reserved n op hu hphase hop =>
      have hpending : u.phase.pending = true := by rw [hphase]; rfl
      have htotal := (hb.uploads id u hu).total
      rw [hphase] at htotal
      replace htotal : size + n < 2 ^ 63 := htotal
      refine hreserved id u _ _ op hu hpending hop rfl ?_
      cases hrun : op.run w.ledger with
      | ok l =>
          refine Or.inl ⟨⟨l, rfl⟩, fun total hcovered => ?_⟩
          rw [hphase] at hcovered
          obtain ⟨hnone, hgrows, hle⟩ := hcovered
          rw [uint64Sub_eq (by omega) (by omega)]
          show size + n ≤ cap u.expectedSize (size + n) ∧ cap u.expectedSize (size + n) ≤ _
          rw [hnone, cap, Option.getD_none]
          omega
      | error err => exact Or.inr fun _ _ => trivial
  | @write id u size reserved n written hu hphase hle =>
      refine hown _ _ _ hu rfl fun _ => ⟨by rw [hphase]; rfl, fun total hcovered => ?_⟩
      rw [hphase] at hcovered
      rw [afterWrite]
      split
      · next heq => exact ⟨heq ▸ hcovered.1, hcovered.2⟩
      · trivial
  | interrupt hu hphase =>
      exact hown _ _ _ hu rfl fun _ => ⟨by rw [hphase]; rfl, fun _ _ => trivial⟩
  | discard hu hphase =>
      exact hown _ _ _ hu rfl fun _ => ⟨by rw [hphase]; rfl, fun _ _ => trivial⟩
  | @close id u size reserved hu hphase =>
      refine hown _ _ _ hu rfl fun _ => ⟨by rw [hphase]; rfl, fun total hcovered => ?_⟩
      rw [hphase] at hcovered
      rcases afterClose_cases u.expectedSize size reserved with heq | heq <;> rw [heq]
      · exact hcovered
      · trivial
  | @reserveOne id u op hu hphase hnone hop =>
      have hpending : u.phase.pending = true := by rw [hphase]; rfl
      refine hreserved id u _ _ op hu hpending hop rfl ?_
      cases hrun : op.run w.ledger with
      | ok l =>
          refine Or.inl ⟨⟨l, rfl⟩, fun total hcovered => ?_⟩
          show 0 ≤ cap u.expectedSize 1 ∧ cap u.expectedSize 1 ≤ _
          rw [hnone, cap, Option.getD_none]
          omega
      | error err => exact Or.inr fun _ _ => trivial
  | commit hu hphase _ _ =>
      refine hown _ _ _ hu rfl fun _ => ⟨by rw [hphase]; rfl, fun total hcovered => ?_⟩
      rw [hphase] at hcovered
      exact Nat.le_trans hcovered.1 hcovered.2
  | commitFails hu hphase =>
      exact hown _ _ _ hu rfl fun _ => ⟨by rw [hphase]; rfl, fun _ _ => trivial⟩
  | publish _ _ =>
      rcases setPhases_eq hv with ⟨-, u, -, rfl⟩ | ⟨-, hold⟩
      · exact hdone rfl hgoes
      · exact hkept hold
  | confirm _ => exact hkept hv
  | giveUp _ =>
      rcases setPhases_eq hv with ⟨-, u, -, rfl⟩ | ⟨-, hold⟩
      · exact hdone rfl hgoes
      · exact hkept hold
  | deleteStaging hu _ => exact hown _ _ _ hu rfl fun hafter => hdone rfl hafter
  | deleteFinal hu _ => exact hown _ _ _ hu rfl fun hafter => hdone rfl hafter
  | release _ => exact hkept hv
  | track _ => exact hkept hv
  | crash hu => exact hown _ _ _ hu rfl fun hafter => hdone rfl hafter
  | find _ _ => exact hkept hv
  | load _ _ => exact hkept hv
  | unlinkStaging _ _ => exact hkept hv
  | skipStaging _ _ => exact hkept hv
  | unlinkFinal _ => exact hkept hv
  | complete _ => exact hkept hv
  | other _ _ => exact hkept hv

end Pending

end UploadRows
