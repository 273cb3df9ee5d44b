import LightOss.AbortLifecycle

/-! # Streaming stage — reserve before write

    `Stage` writes a body of unknown length.  Before each write it makes sure that the
    ledger row covers the bytes that will then be on disk, growing the reservation by
    whole chunks, or by exactly what is missing when a chunk no longer fits
    (`reserveBeforeWrite_runs`, `reserveBeforeWrite_refused`).

    The loop keeps `Reserving`: the row has the reserved size, which covers what was
    written and fits into what was free.  A body that fits is therefore written to its
    end (`stageFile_runs`), and one that does not is refused (`stageFile_refused`), so
    the call fails exactly when the body does not fit into what the quota has left.
    Every write is recorded with the ledger it was made under. -/

namespace StreamingStage

open KeyedTable Fallible LedgerRows BlobRepository LedgerSpecs LedgerMoves
open Catalog MetadataServices MetadataReferences StorageAudit PublishLifecycle AbortLifecycle

/-! ## `roundUp` -/

/-- `a - b` on `uint64`. -/
def uint64Sub (a b : Nat) : Nat := (a + 2 ^ 64 - b) % 2 ^ 64

/-- `roundUp` on `uint64`. -/
def roundUp (value block : Nat) : Nat :=
  if block = 0 ∨ value = 0 then value
  else ((value - 1) / block + 1) % 2 ^ 64 * block % 2 ^ 64

/-- The subtraction of the code does not wrap here. -/
theorem uint64Sub_eq {a b : Nat} (ha : a < 2 ^ 64) (hba : b ≤ a) : uint64Sub a b = a - b := by
  rw [uint64Sub]
  omega

/-- No step of `roundUp` wraps: the quotient is below the value, and the product below
    one more block than the value, or one block when the block is the larger. -/
theorem roundUp_eq {value block : Nat} (hv : value < 2 ^ 63) (hb : block < 2 ^ 64)
    (hpos : 0 < value) (hblock : 0 < block) :
    roundUp value block = ((value - 1) / block + 1) * block := by
  have hdiv : (value - 1) / block * block ≤ value - 1 := Nat.div_mul_le_self _ _
  have hquot : (value - 1) / block ≤ value - 1 := Nat.div_le_self _ _
  have hprod : ((value - 1) / block + 1) * block < 2 ^ 64 := by
    rw [Nat.add_mul, Nat.one_mul]
    by_cases hlarge : value ≤ block
    · rw [Nat.div_eq_of_lt (by omega), Nat.zero_mul]
      omega
    · omega
  rw [roundUp, if_neg (by omega), Nat.mod_eq_of_lt (a := (value - 1) / block + 1) (by omega),
    Nat.mod_eq_of_lt hprod]

/-- The least multiple of the block that is not below the value. -/
theorem roundUp_bounds {value block : Nat} (hv : value < 2 ^ 63) (hb : block < 2 ^ 64)
    (hpos : 0 < value) (hblock : 0 < block) :
    value ≤ roundUp value block ∧ roundUp value block < value + block
      ∧ block ∣ roundUp value block ∧ roundUp value block < 2 ^ 64 := by
  have heq := roundUp_eq hv hb hpos hblock
  have hlt : roundUp value block < 2 ^ 64 := by
    rw [roundUp, if_neg (by omega)]
    exact Nat.mod_lt _ (by decide)
  have hmod := Nat.div_add_mod (value - 1) block
  have hrest := Nat.mod_lt (value - 1) hblock
  refine ⟨?_, ?_, ⟨_, heq.trans (Nat.mul_comm _ _)⟩, hlt⟩
  · rw [heq, Nat.add_mul, Nat.one_mul, Nat.mul_comm]
    omega
  · rw [heq, Nat.add_mul, Nat.one_mul, Nat.mul_comm]
    omega

/-! ## `Stage` -/

/-- What a call makes up, and what the service is configured with; `sha256` is the digest
    in hex, `errorText` what `Error()` returns. -/
structure StageCall where
  blobID : String
  storagePath : String
  stagingPath : String
  now : Time
  stagingLease : Duration
  reservationChunk : Nat
  sha256 : List UInt8 → String
  errorText : Err → String

namespace StageCall

/-- The row that `CreateStagingWithLease` inserts. -/
def blob (call : StageCall) : StorageBlob where
  id := call.blobID
  storagePath := call.storagePath
  stagingPath := some call.stagingPath
  status := .staging

/-- The handle of `abortStaging`. -/
def handle (call : StageCall) : StagedBlob where
  id := call.blobID
  storagePath := call.storagePath
  stagingPath := call.stagingPath
  size := 0

/-- The result for a body that was written. -/
def staged (call : StageCall) (body : List UInt8) : StagedBlob :=
  { call.handle with size := body.length, etag := call.sha256 body }

end StageCall

/-- `reserveBeforeWrite`: the new ledger and `reservedBytes`.  A refused `Reserve` leaves
    the ledger as it was, so the second one starts from the same ledger. -/
def reserveBeforeWrite (call : StageCall) (l : Ledger) (reservedBytes totalBytes : Nat) :
    Except Err (Ledger × Nat) :=
  if int64 totalBytes ≤ 0 ∨ totalBytes ≤ reservedBytes then .ok (l, reservedBytes)
  else
    let requiredBytes := roundUp totalBytes call.reservationChunk
    match reserve l call.blobID (uint64Sub requiredBytes reservedBytes) with
    | .ok l' => .ok (l', requiredBytes)
    | .error .storageQuotaExceeded => do
        let l' ← reserve l call.blobID (uint64Sub totalBytes reservedBytes)
        return (l', totalBytes)
    | .error err => .error err

/-- One `file.Write`: its bytes, the ledger and `reservedBytes` at that moment, and how
    many bytes are on disk once it is done. -/
structure FileWrite where
  buffer : List UInt8
  ledger : Ledger
  reservedBytes : Nat
  onDisk : Nat

/-- The ledger, `reservedBytes`, the bytes in the staging file, and the writes that put
    them there, in order. -/
structure StageState where
  ledger : Ledger
  reservedBytes : Nat := 0
  written : List UInt8 := []
  writes : List FileWrite := []

/-- `file.Write`, observed: the record holds the state as the write finds it. -/
def StageState.write (st : StageState) (buffer : List UInt8) : StageState :=
  { st with
    written := st.written ++ buffer
    writes := st.writes ++
      [⟨buffer, st.ledger, st.reservedBytes, (st.written ++ buffer).length⟩] }

/-- The write loop of the store over what the reads return; a read may return nothing.
    An error leaves the loop before the write. -/
def stageFile (call : StageCall) : StageState → List (List UInt8) → StageState × Except Err Unit
  | st, [] => (st, .ok ())
  | st, buffer :: rest =>
      if buffer = [] then stageFile call st rest
      else
        match reserveBeforeWrite call st.ledger st.reservedBytes
          (st.written.length + buffer.length) with
        | .error err => (st, .error err)
        | .ok (l, reservedBytes) =>
            stageFile call
              ({ st with ledger := l, reservedBytes := reservedBytes }.write buffer) rest

/-- How a refused reservation is reported. -/
def stageError (err : Err) : Err :=
  if err = .storageQuotaExceeded then
    .app 507 "storage_limit_exceeded" "storage usage exceeds configured limit"
  else err

/-- `abortStaging`, with deletes that succeed. -/
def abortStaging (call : StageCall) (l : Ledger) : Ledger :=
  abortBatch call.errorText l [(call.handle, none)] call.now

/-- `BlobLifecycleService.Stage` on a store that does not fail, with the state it ends
    in.  The heartbeat only writes the lease column, which nothing here reads. -/
def stage (call : StageCall) (l : Ledger) (reads : List (List UInt8)) :
    StageState × Except Err StagedBlob :=
  match createStagingWithLease l call.blob call.stagingLease call.now with
  | .error err => ({ ledger := l }, .error err)
  | .ok created =>
      match stageFile call { ledger := created } reads with
      | (st, .error err) =>
          ({ st with ledger := abortStaging call st.ledger }, .error (stageError err))
      | (st, .ok ()) =>
          if st.written.length = 0 ∧ st.reservedBytes = 0 then
            match reserve st.ledger call.blobID 1 with
            | .error err =>
                ({ st with ledger := abortStaging call st.ledger }, .error (stageError err))
            | .ok l' => ({ st with ledger := l' }, .ok (call.staged st.written))
          else (st, .ok (call.staged st.written))

/-! ## The ledger with one more staging row -/

/-- `l` is `l₀` with the staging row `row` added and its bytes reserved. -/
structure Holds (l₀ : Ledger) (row : StorageBlob) (l : Ledger) : Prop where
  rows : l.blobs.rows = l₀.blobs.rows ++ [row]
  quota : l.quota = (withQuota l₀ l₀.quota.usedBytes (l₀.quota.reservedBytes + row.size)).quota

section OneRow

variable {l₀ l : Ledger} {row : StorageBlob}

theorem Holds.mem (h : Holds l₀ row l) : row ∈ l.blobs.rows := by
  rw [h.rows]
  exact List.mem_append_right _ (List.mem_singleton_self _)

/-- The statements that name the row find this row only. -/
theorem Holds.eq (h : Holds l₀ row l) {b : StorageBlob} (hb : b ∈ l.blobs.rows)
    (hid : b.id = row.id) : b = row :=
  l.blobs.eq_of_clash hb h.mem (StorageBlob.clash_of_id hid)

theorem Holds.select (h : Holds l₀ row l) {p : StorageBlob → Bool} (hp : p row = true)
    (hone : ∀ b, p b = true → b.id = row.id) : l.blobs.select p = [row] :=
  l.blobs.select_eq_singleton h.mem hp fun b hpb => StorageBlob.clash_of_id (hone b hpb)

theorem Holds.first? (h : Holds l₀ row l) {p : StorageBlob → Bool} (hp : p row = true)
    (hone : ∀ b, p b = true → b.id = row.id) : l.blobs.first? p = some row :=
  l.blobs.first?_of_mem h.mem hp fun b hpb => StorageBlob.clash_of_id (hone b hpb)

/-- The id is new to the rows from before. -/
theorem Holds.fresh (h : Holds l₀ row l) : ∀ b ∈ l₀.blobs.rows, b.id ≠ row.id := by
  intro b hb hid
  have hunique := l.blobs.unique
  rw [h.rows] at hunique
  have hclash := (List.pairwise_append.mp hunique).2.2 b hb row (List.mem_singleton_self _)
  exact Bool.false_ne_true (hclash.symm.trans (StorageBlob.clash_of_id hid))

/-- A statement on the row alone leaves the others. -/
theorem Holds.update (h : Holds l₀ row l) {g : StorageBlob → StorageBlob} {l' : Ledger}
    {used reserved : Nat} (hr : Rewrites (withQuota l used reserved) g l')
    (hother : ∀ b, b.id ≠ row.id → g b = b) :
    l'.blobs.rows = l₀.blobs.rows ++ [g row] := by
  rw [hr.rows]
  show l.blobs.rows.map g = _
  rw [h.rows, List.map_append, List.map_singleton]
  refine congrArg (· ++ [g row]) ?_
  exact (List.map_congr_left fun b hb => hother b (h.fresh b hb)).trans (List.map_id _)

/-- What the quota still has. -/
def free (l : Ledger) : Nat := l.quota.maxBytes - l.quota.usedBytes - l.quota.reservedBytes

/-- The counters are in order: the totals are within the maximum, and that is a `uint64`. -/
structure QuotaOk (l : Ledger) : Prop where
  within : l.quota.usedBytes + l.quota.reservedBytes ≤ l.quota.maxBytes
  range : l.quota.maxBytes ≤ maxUint64

/-- `Reserve` grows the row when the bytes are free. -/
theorem reserve_runs (hq : QuotaOk l₀) (h : Holds l₀ row l) (hstaging : row.status = .staging)
    (bytes : Nat) (hpos : 0 < bytes) (hfit : row.size + bytes ≤ free l₀) :
    ∃ l', reserve l row.id bytes = .ok l' ∧ Holds l₀ { row with size := row.size + bytes } l' := by
  have hwithin := hq.within
  have hrange := hq.range
  rw [free] at hfit
  have hmax : l.quota.maxBytes = l₀.quota.maxBytes := by rw [h.quota]; rfl
  have hused : l.quota.usedBytes = l₀.quota.usedBytes := by rw [h.quota]; rfl
  have hreserved : l.quota.reservedBytes = l₀.quota.reservedBytes + row.size := by rw [h.quota]; rfl
  have hfirst : l.blobs.first? (fun b => decide (b.id = row.id ∧ b.status = .staging)) = some row :=
    h.first? (decide_eq_true ⟨rfl, hstaging⟩) fun b hb => (of_decide_eq_true hb).1
  have hquota : reserveQuota l bytes
      = .ok (withQuota l l.quota.usedBytes (l.quota.reservedBytes + bytes)) := by
    rw [reserveQuota, if_pos ⟨by omega, by omega, by omega⟩, u64Add, if_pos (by omega)]
    rfl
  have hrun : reserve l row.id bytes
      = .ok ((withQuota l l.quota.usedBytes (l.quota.reservedBytes + bytes)).updateBlobs
        (fun b => decide (b.id = row.id ∧ b.status = .staging))
        fun b => { b with size := row.size + bytes }) := by
    rw [reserve, if_neg (by omega), hfirst]
    refine bind_eq_ok.mpr ⟨row, rfl, bind_eq_ok.mpr ⟨_, hquota, ?_⟩⟩
    exact bind_eq_ok.mpr ⟨_, u64Add_eq_ok.mpr ⟨by omega, rfl⟩, rfl⟩
  refine ⟨_, hrun, ?_, ?_⟩
  · refine (h.update (rewrites_updateBlobs _ _ _ _) fun b hb => ?_).trans ?_
    · rw [if_neg]
      exact fun hp => hb (of_decide_eq_true hp).1
    · rw [if_pos (decide_eq_true ⟨rfl, hstaging⟩)]
  · show (withQuota l l.quota.usedBytes (l.quota.reservedBytes + bytes)).quota = _
    rw [withQuota, h.quota, withQuota, withQuota, Nat.add_assoc]

/-- `Reserve` is refused when they are not. -/
theorem reserve_refused (h : Holds l₀ row l) (hstaging : row.status = .staging) (bytes : Nat)
    (hpos : 0 < bytes) (hfull : ¬ row.size + bytes ≤ free l₀) :
    reserve l row.id bytes = .error .storageQuotaExceeded := by
  rw [free] at hfull
  have hmax : l.quota.maxBytes = l₀.quota.maxBytes := by rw [h.quota]; rfl
  have hused : l.quota.usedBytes = l₀.quota.usedBytes := by rw [h.quota]; rfl
  have hreserved : l.quota.reservedBytes = l₀.quota.reservedBytes + row.size := by rw [h.quota]; rfl
  have hfirst : l.blobs.first? (fun b => decide (b.id = row.id ∧ b.status = .staging)) = some row :=
    h.first? (decide_eq_true ⟨rfl, hstaging⟩) fun b hb => (of_decide_eq_true hb).1
  rw [reserve, if_neg (by omega), hfirst, reserveQuota, if_neg]
  · rfl
  · rintro ⟨-, -, hle⟩
    omega

theorem Holds.findBlobsByID (h : Holds l₀ row l) : findBlobsByID l [row.id] 100 = [row] := by
  have hsel : l.blobs.select (fun b => decide (b.id ∈ [row.id])) = [row] :=
    h.select (by simp) fun b hb => by simpa using hb
  show l.blobs.select (fun b => decide (b.id ∈ [row.id])) ++ [] = [row]
  rw [hsel, List.append_nil]

/-- What is free can be reserved without leaving the column. -/
theorem QuotaOk.size_le (hq : QuotaOk l₀) (hsize : row.size ≤ free l₀) :
    l₀.quota.reservedBytes + row.size ≤ maxUint64 := by
  have hwithin := hq.within
  have hrange := hq.range
  rw [free] at hsize
  omega

/-- `ReleaseStagingBatch` takes the row away and gives its bytes back. -/
theorem release_runs (hq : QuotaOk l₀) (h : Holds l₀ row l) (hid : row.id ≠ "")
    (hstaging : row.status = .staging) (hsize : row.size ≤ free l₀) :
    ∃ l', releaseStagingBatch l [row.id] 100 = .ok l' ∧ l'.quota = l₀.quota
      ∧ l'.blobs.rows = l₀.blobs.rows := by
  have hrange := hq.size_le hsize
  have hreserved : l.quota.reservedBytes = l₀.quota.reservedBytes + row.size := by rw [h.quota]; rfl
  have hsel : l.blobs.select (fun b => decide (b.id ∈ [row.id])) = [row] :=
    h.select (by simp) fun b hb => by simpa using hb
  have htotals : releasedTotals 0 [row] = .ok (row.size, [row.id]) := by
    rw [releasedTotals]
    refine bind_eq_ok.mpr ⟨(), ensure_eq_ok.mpr hstaging, bind_eq_ok.mpr ⟨(), ?_, ?_⟩⟩
    · exact ensure_eq_ok.mpr (by omega)
    · rw [Nat.zero_add]
      rfl
  -- a row without a size gives nothing back
  obtain ⟨m, hm, hmblobs, hmquota⟩ : ∃ m, (if 0 < row.size then
        releaseQuota l row.size (.errorf "storage quota batch reservation is inconsistent")
      else .ok l) = .ok m ∧ m.blobs = l.blobs ∧ m.quota = l₀.quota := by
    have hback : withQuota l l.quota.usedBytes (l.quota.reservedBytes - row.size)
        = { l with quota := l₀.quota } := by
      rw [withQuota, h.quota, withQuota]
      simp
    split
    · refine ⟨{ l with quota := l₀.quota }, ?_, rfl, rfl⟩
      rw [releaseQuota, if_pos (by omega), ← hback]
      exact bind_eq_ok.mpr ⟨_, u64Sub_eq_ok.mpr ⟨by omega, rfl⟩, rfl⟩
    · next hzero =>
        refine ⟨l, rfl, rfl, ?_⟩
        obtain hz : row.size = 0 := by omega
        rw [h.quota, withQuota, hz]
        rfl
  -- the delete counts the one row
  have hcount : m.blobs.count (fun b => decide (b.id ∈ [row.id])) = 1 := by
    rw [hmblobs, Table.count, hsel]
    rfl
  have hdelete : (batches 100 [row.id]).foldlM deleteBatch m
      = .ok (m.deleteBlobs fun b => decide (b.id ∈ [row.id])) := by
    show deleteBatch m [row.id] >>= _ = _
    refine bind_eq_ok.mpr ⟨_, ?_, rfl⟩
    rw [deleteBatch]
    exact bind_eq_ok.mpr ⟨(), ensure_eq_ok.mpr hcount, rfl⟩
  refine ⟨m.deleteBlobs fun b => decide (b.id ∈ [row.id]), ?_, hmquota, ?_⟩
  · have hids : distinctIDs [] [row.id] = [row.id] := by
      rw [distinctIDs, if_neg (by simpa using hid)]
      rfl
    rw [releaseStagingBatch, if_neg (List.cons_ne_nil _ _)]
    dsimp only
    rw [hids]
    refine bind_eq_ok.mpr ⟨(row.size, [row.id]), ?_, ?_⟩
    · show releasedTotals 0 (BlobRepository.findBlobsByID l [row.id] 100) = _
      rw [h.findBlobsByID, htotals]
    · dsimp only
      rw [if_neg (List.cons_ne_nil _ _)]
      exact bind_eq_ok.mpr ⟨m, hm, hdelete⟩
  · show (m.blobs.rows.filter fun b => !decide (b.id ∈ [row.id])) = _
    rw [hmblobs, h.rows, List.filter_append, List.filter_eq_self.mpr, List.filter_singleton]
    · simp
    · intro b hb
      simpa using h.fresh b hb

/-- `ActivateStagingBatch` moves the size of the body to the used bytes. -/
theorem activate_runs (hq : QuotaOk l₀) (h : Holds l₀ row l) (hid : row.id ≠ "")
    (hstaging : row.status = .staging) (hsize : row.size ≤ free l₀) {n : Nat} (hn : n ≤ row.size) :
    ∃ l', activateStagingBatch l [⟨row.id, n⟩] blobLedgerWriteBatchSize = .ok l' := by
  have hrange := hq.size_le hsize
  have hwithin := hq.within
  have hmax := hq.range
  have hfree := hsize
  rw [free] at hfree
  have hused : l.quota.usedBytes = l₀.quota.usedBytes := by rw [h.quota]; rfl
  have hreserved : l.quota.reservedBytes = l₀.quota.reservedBytes + row.size := by rw [h.quota]; rfl
  -- the three passes of the call: identities, totals, counters
  have hcheck : checkActivations [] [⟨row.id, n⟩] = .ok () := by
    rw [checkActivations, if_neg hid, if_neg List.not_mem_nil]
    rfl
  have htotals : activationTotals [row] 0 0 [⟨row.id, n⟩] = .ok (row.size, n) := by
    rw [activationTotals]
    refine bind_eq_ok.mpr ⟨row, orElseThrow_eq_ok.mpr ?_, ?_⟩
    · exact List.find?_cons_of_pos (beq_self_eq_true row.id)
    refine bind_eq_ok.mpr ⟨(), ensure_eq_ok.mpr hstaging, bind_eq_ok.mpr ⟨(), ?_, ?_⟩⟩
    · exact ensure_eq_ok.mpr hn
    · have hsum : ¬ (maxUint64 - 0 < row.size ∨ maxUint64 - 0 < n) := by omega
      refine bind_eq_ok.mpr ⟨(), ensure_eq_ok.mpr hsum, ?_⟩
      rw [Nat.zero_add, Nat.zero_add]
      rfl
  have hmove : moveReservedToUsed l row.size n
        (.errorf "storage quota batch reservation is inconsistent")
      = .ok (withQuota l (l.quota.usedBytes + n) (l.quota.reservedBytes - row.size)) := by
    rw [moveReservedToUsed]
    refine bind_eq_ok.mpr ⟨(), ensure_eq_ok.mpr (by omega), ?_⟩
    refine bind_eq_ok.mpr ⟨_, u64Sub_eq_ok.mpr ⟨by omega, rfl⟩, ?_⟩
    exact bind_eq_ok.mpr ⟨_, u64Add_eq_ok.mpr ⟨by omega, rfl⟩, rfl⟩
  have hcount : l.blobs.count (fun b => decide (b.id ∈ [row.id] ∧ b.status = .staging)) = 1 := by
    rw [Table.count, h.select (by simpa using hstaging) fun b hb => by simp_all]
    rfl
  obtain ⟨m, hm⟩ : ∃ m, activateBatch (withQuota l (l.quota.usedBytes + n)
      (l.quota.reservedBytes - row.size)) [⟨row.id, n⟩] = .ok m :=
    ⟨_, bind_eq_ok.mpr ⟨(), ensure_eq_ok.mpr hcount, rfl⟩⟩
  refine ⟨m, ?_⟩
  rw [activateStagingBatch, if_neg (List.cons_ne_nil _ _)]
  refine bind_eq_ok.mpr ⟨(), hcheck, bind_eq_ok.mpr ⟨(), ?_, ?_⟩⟩
  · refine ensure_eq_ok.mpr ?_
    show (BlobRepository.findBlobsByID l [row.id] 100).length = 1
    rw [h.findBlobsByID]
    rfl
  refine bind_eq_ok.mpr ⟨(row.size, n), ?_, bind_eq_ok.mpr ⟨_, hmove, ?_⟩⟩
  · show activationTotals (BlobRepository.findBlobsByID l [row.id] 100) 0 0 _ = _
    rw [h.findBlobsByID, htotals]
  · exact bind_eq_ok.mpr ⟨m, hm, rfl⟩

end OneRow

/-! ## The call at a quiet ledger -/

/-- The row while `reservedBytes` are reserved. -/
def StageCall.row (call : StageCall) (reservedBytes : Nat) : StorageBlob :=
  { call.blob with
    size := reservedBytes
    stagingLeaseExpiresAt := some (call.now + call.stagingLease) }

/-- A ledger whose counters are in order, and a call with new names, a lease and a
    reservation chunk. -/
structure Admissible (call : StageCall) (l : Ledger) : Prop where
  quota : QuotaOk l
  blobID : call.blobID ≠ ""
  fresh : ∀ b ∈ l.blobs.rows, b.clash call.blob = false
  lease : 0 < call.stagingLease
  chunk : 0 < call.reservationChunk
  chunkRange : call.reservationChunk < 2 ^ 64

section Call

variable {call : StageCall} {l₀ l : Ledger}

theorem create_runs (h : Admissible call l₀) :
    ∃ l, createStagingWithLease l₀ call.blob call.stagingLease call.now = .ok l
      ∧ Holds l₀ (call.row 0) l := by
  obtain ⟨m, hcreate⟩ : ∃ m, l₀.createBlob call.blob = .ok m := by
    rw [Ledger.createBlob, Table.insert?, dif_pos h.fresh]
    exact ⟨_, rfl⟩
  have hmem : call.blob ∈ m.blobs.rows := by
    rw [(createBlob_ok hcreate).2.2.2]
    exact List.mem_append_right _ (List.mem_singleton_self _)
  have hcount :
      m.blobs.count (fun b => decide (b.id ∈ [call.blobID] ∧ b.status = .staging)) = 1 := by
    have hsel := m.blobs.select_eq_singleton hmem
      (p := fun b => decide (b.id ∈ [call.blobID] ∧ b.status = .staging))
      (by simp [StageCall.blob]) fun b hb => StorageBlob.clash_of_id (by simp_all [StageCall.blob])
    rw [Table.count, hsel]
    rfl
  have hids : leaseIDs [] [call.blobID] = .ok [call.blobID] := by
    rw [leaseIDs, if_neg h.blobID, if_neg List.not_mem_nil]
    rfl
  -- the lease is set on the one row that was created
  have hbatches : renewLeaseBatches (call.now + call.stagingLease) m [[call.blobID]]
      = (renewLeaseBatch m [call.blobID] (call.now + call.stagingLease), .ok ()) := by
    rw [renewLeaseBatches]
    exact if_pos hcount
  have hlease : renewStagingLease m [call.blobID] call.stagingLease 1 call.now
      = (renewLeaseBatch m [call.blobID] (call.now + call.stagingLease), .ok ()) := by
    rw [renewStagingLease, if_neg (List.cons_ne_nil _ _), if_neg (not_le_of_gt h.lease), hids]
    exact hbatches
  have hrun : createStagingWithLease l₀ call.blob call.stagingLease call.now
      = .ok (renewLeaseBatch m [call.blobID] (call.now + call.stagingLease)) := by
    refine bind_eq_ok.mpr ⟨m, hcreate, ?_⟩
    show renewStagingLeaseTx m [call.blobID] call.stagingLease 1 call.now = _
    rw [renewStagingLeaseTx, hlease]
  refine ⟨_, hrun, ?_, ?_⟩
  · rw [(createStagingWithLease_ok hrun).rows, List.map_append, List.map_singleton]
    refine congrArg₂ (· ++ ·) ?_ ?_
    · -- the ids of the old rows are not the new one
      refine (List.map_congr_left fun b hb => ?_).trans (List.map_id _)
      refine if_neg ?_
      rintro ⟨hid, -⟩
      have hclash := StorageBlob.clash_of_id (List.mem_singleton.mp hid)
      exact Bool.false_ne_true ((h.fresh b hb).symm.trans hclash)
    · exact congrArg (fun b => [b]) (if_pos ⟨List.mem_singleton_self _, rfl⟩)
  · exact (createStagingWithLease_ok hrun).quota

/-! ## The loop -/

/-- A positive size is one for the code too. -/
theorem int64_pos {n : Nat} (hn : n < 2 ^ 63) (hpos : 0 < n) : ¬ int64 n ≤ 0 := by
  rw [int64, if_pos (by omega)]
  omega

/-- A write that fits is covered: by whole chunks if they fit, else by what is missing. -/
theorem reserveBeforeWrite_runs (h : Admissible call l₀) {reservedBytes totalBytes : Nat}
    (hl : Holds l₀ (call.row reservedBytes) l) (hwithin : reservedBytes ≤ free l₀)
    (htotal : totalBytes < 2 ^ 63) (hfit : totalBytes ≤ free l₀) :
    ∃ l' reservedBytes',
      reserveBeforeWrite call l reservedBytes totalBytes = .ok (l', reservedBytes')
      ∧ Holds l₀ (call.row reservedBytes') l' ∧ totalBytes ≤ reservedBytes'
      ∧ reservedBytes' ≤ free l₀ := by
  rw [reserveBeforeWrite]
  -- nothing to reserve; a rounded reservation; or an exact one
  by_cases hcovered : int64 totalBytes ≤ 0 ∨ totalBytes ≤ reservedBytes
  · rw [if_pos hcovered]
    refine ⟨l, reservedBytes, rfl, hl, ?_, hwithin⟩
    rcases Nat.eq_zero_or_pos totalBytes with hzero | hpos
    · rw [hzero]
      exact Nat.zero_le _
    · exact hcovered.resolve_left (int64_pos htotal hpos)
  rw [if_neg hcovered]
  rw [not_or, Nat.not_le] at hcovered
  obtain ⟨hlow, -, -, hlt⟩ := roundUp_bounds htotal h.chunkRange (by omega) h.chunk
  dsimp only
  rw [uint64Sub_eq hlt (by omega), uint64Sub_eq (by omega) (by omega)]
  by_cases hchunk : roundUp totalBytes call.reservationChunk ≤ free l₀
  · obtain ⟨l', hrun, hl'⟩ := reserve_runs h.quota hl rfl
      (roundUp totalBytes call.reservationChunk - reservedBytes) (by omega)
      (by show reservedBytes + _ ≤ _; omega)
    have hsize : reservedBytes + (roundUp totalBytes call.reservationChunk - reservedBytes)
        = roundUp totalBytes call.reservationChunk := by omega
    refine ⟨l', _, ?_, ?_, hlow, hchunk⟩
    · rw [show call.blobID = (call.row reservedBytes).id from rfl, hrun]
    · rw [← hsize]
      exact hl'
  · -- the rounded reservation is refused, the exact one is not
    have hrefused := reserve_refused hl rfl
      (roundUp totalBytes call.reservationChunk - reservedBytes) (by omega)
      (by show ¬ reservedBytes + _ ≤ _; omega)
    obtain ⟨l', hrun, hl'⟩ := reserve_runs h.quota hl rfl
      (totalBytes - reservedBytes) (by omega) (by show reservedBytes + _ ≤ _; omega)
    have hsize : reservedBytes + (totalBytes - reservedBytes) = totalBytes := by omega
    refine ⟨l', totalBytes, ?_, ?_, Nat.le_refl _, hfit⟩
    · rw [show call.blobID = (call.row reservedBytes).id from rfl, hrefused]
      exact bind_eq_ok.mpr ⟨l', hrun, rfl⟩
    · rw [← hsize]
      exact hl'

/-- A write that does not fit is refused, whatever the chunk. -/
theorem reserveBeforeWrite_refused (h : Admissible call l₀) {reservedBytes totalBytes : Nat}
    (hl : Holds l₀ (call.row reservedBytes) l) (hwithin : reservedBytes ≤ free l₀)
    (htotal : totalBytes < 2 ^ 63) (hfull : free l₀ < totalBytes) :
    reserveBeforeWrite call l reservedBytes totalBytes = .error .storageQuotaExceeded := by
  have hpos : ¬ int64 totalBytes ≤ 0 := int64_pos htotal (by omega)
  obtain ⟨hlow, -, -, hlt⟩ := roundUp_bounds htotal h.chunkRange (by omega) h.chunk
  rw [reserveBeforeWrite, if_neg (not_or.mpr ⟨hpos, by omega⟩)]
  dsimp only
  rw [uint64Sub_eq hlt (by omega), uint64Sub_eq (by omega) (by omega)]
  have hchunk := reserve_refused hl rfl
    (roundUp totalBytes call.reservationChunk - reservedBytes) (by omega)
    (by show ¬ reservedBytes + _ ≤ _; omega)
  have hexact := reserve_refused hl rfl
    (totalBytes - reservedBytes) (by omega) (by show ¬ reservedBytes + _ ≤ _; omega)
  rw [show call.blobID = (call.row reservedBytes).id from rfl, hchunk, hexact]
  rfl

/-- At the write the row has the tracked size, which is at least what is then on disk. -/
def Covered (call : StageCall) (w : FileWrite) : Prop :=
  (∃ b ∈ w.ledger.blobs.rows, b.id = call.blobID ∧ b.size = w.reservedBytes)
    ∧ w.onDisk ≤ w.reservedBytes

/-- The loop invariant: the row has the reserved size, which covers what is on disk, and
    it covered every write so far. -/
structure Reserving (call : StageCall) (l₀ : Ledger) (st : StageState) : Prop where
  holds : Holds l₀ (call.row st.reservedBytes) st.ledger
  covers : st.written.length ≤ st.reservedBytes
  within : st.reservedBytes ≤ free l₀
  covered : ∀ w ∈ st.writes, Covered call w

/-- The invariant of the loop before the first read. -/
theorem reserving_start (hl : Holds l₀ (call.row 0) l) : Reserving call l₀ { ledger := l } :=
  ⟨hl, Nat.le_refl _, Nat.zero_le _, List.forall_mem_nil _⟩

/-- A write after its reservation keeps the invariant. -/
theorem reserving_write {st : StageState} (hst : Reserving call l₀ st) {buffer : List UInt8}
    {reservedBytes : Nat} (hl : Holds l₀ (call.row reservedBytes) l)
    (hcovers : st.written.length + buffer.length ≤ reservedBytes)
    (hwithin : reservedBytes ≤ free l₀) :
    Reserving call l₀
      ({ st with ledger := l, reservedBytes := reservedBytes }.write buffer) := by
  have hdisk : (st.written ++ buffer).length ≤ reservedBytes := by
    rw [List.length_append]
    exact hcovers
  refine ⟨hl, hdisk, hwithin, fun w hw => ?_⟩
  rcases List.mem_append.mp hw with hold | hnew
  · exact hst.covered w hold
  · obtain rfl := List.mem_singleton.mp hnew
    exact ⟨⟨_, hl.mem, rfl, rfl⟩, hdisk⟩

/-- A body that fits is written to its end, by induction on the reads. -/
theorem stageFile_runs (h : Admissible call l₀) : ∀ (reads : List (List UInt8)) (st : StageState),
    Reserving call l₀ st → st.written.length + reads.flatten.length < 2 ^ 63 →
      st.written.length + reads.flatten.length ≤ free l₀ →
        ∃ st', stageFile call st reads = (st', .ok ()) ∧ Reserving call l₀ st'
          ∧ st'.written = st.written ++ reads.flatten
          ∧ st'.writes.map (·.buffer) = st.writes.map (·.buffer) ++ reads.filter (· ≠ []) := by
  intro reads
  induction reads with
  | nil =>
      intro st hst _ _
      exact ⟨st, rfl, hst, (List.append_nil _).symm, (List.append_nil _).symm⟩
  | cons buffer rest ih =>
      intro st hst hn hfit
      rw [List.flatten_cons, List.length_append] at hn hfit
      rw [stageFile]
      -- a read without bytes writes nothing
      by_cases hempty : buffer = []
      · rw [hempty, List.length_nil, Nat.zero_add] at hn hfit
        rw [if_pos hempty, hempty]
        exact ih st hst hn hfit
      · obtain ⟨l, reservedBytes, hrun, hl, hcovers, hwithin⟩ := reserveBeforeWrite_runs h hst.holds
          hst.within (show st.written.length + buffer.length < 2 ^ 63 by omega) (by omega)
        have hlen : (st.written ++ buffer).length = st.written.length + buffer.length :=
          List.length_append
        rw [if_neg hempty, hrun]
        -- the write, and then the rest from the state it leaves
        obtain ⟨st', hrest, hst', hwritten, hwrites⟩ := ih _
          (reserving_write hst hl hcovers hwithin)
          (show (st.written ++ buffer).length + _ < _ by omega)
          (show (st.written ++ buffer).length + _ ≤ _ by omega)
        refine ⟨st', hrest, hst', ?_, ?_⟩
        · rw [hwritten, List.flatten_cons]
          exact List.append_assoc _ _ _
        · have hfilter : (buffer :: rest).filter (· ≠ []) = buffer :: rest.filter (· ≠ []) :=
            List.filter_cons_of_pos (by simpa using hempty)
          rw [hwrites, hfilter]
          show List.map _ (st.writes ++ [_]) ++ _ = _
          rw [List.map_append, List.append_assoc]
          rfl

/-- A body that does not fit is refused, by induction on the reads. -/
theorem stageFile_refused (h : Admissible call l₀) :
    ∀ (reads : List (List UInt8)) (st : StageState), Reserving call l₀ st →
      st.written.length + reads.flatten.length < 2 ^ 63 →
      free l₀ < st.written.length + reads.flatten.length →
        ∃ st', stageFile call st reads = (st', .error .storageQuotaExceeded)
          ∧ Reserving call l₀ st' := by
  intro reads
  induction reads with
  | nil =>
      intro st hst _ hfull
      -- the body has ended, and what was written fits
      have hcovers := hst.covers
      have hwithin := hst.within
      rw [List.flatten_nil, List.length_nil] at hfull
      omega
  | cons buffer rest ih =>
      intro st hst hn hfull
      rw [List.flatten_cons, List.length_append] at hn hfull
      rw [stageFile]
      by_cases hempty : buffer = []
      · rw [hempty, List.length_nil, Nat.zero_add] at hn hfull
        rw [if_pos hempty]
        exact ih st hst hn hfull
      rw [if_neg hempty]
      by_cases hfit : st.written.length + buffer.length ≤ free l₀
      · obtain ⟨l, reservedBytes, hrun, hl, hcovers, hwithin⟩ := reserveBeforeWrite_runs h hst.holds
          hst.within (show st.written.length + buffer.length < 2 ^ 63 by omega) hfit
        have hlen : (st.written ++ buffer).length = st.written.length + buffer.length :=
          List.length_append
        rw [hrun]
        refine ih _ (reserving_write hst hl hcovers hwithin) ?_ ?_
        · show (st.written ++ buffer).length + _ < _
          omega
        · show _ < (st.written ++ buffer).length + _
          omega
      -- this is the first write that does not fit
      · rw [reserveBeforeWrite_refused h hst.holds hst.within (by omega) (by omega)]
        exact ⟨st, rfl, hst⟩

/-- Reads that return nothing reserve nothing. -/
theorem stageFile_empty : ∀ (reads : List (List UInt8)) (st : StageState), reads.flatten = [] →
    stageFile call st reads = (st, .ok ()) := by
  intro reads
  induction reads with
  | nil => exact fun _ _ => rfl
  | cons buffer rest ih =>
      intro st hempty
      rw [List.flatten_cons, List.append_eq_nil_iff] at hempty
      rw [stageFile, if_pos hempty.1]
      exact ih st hempty.2

/-! ## The whole call -/

/-- An aborted call takes its row along. -/
theorem abortStaging_runs (h : Admissible call l₀) {reservedBytes : Nat}
    (hl : Holds l₀ (call.row reservedBytes) l) (hwithin : reservedBytes ≤ free l₀) :
    (abortStaging call l).quota = l₀.quota ∧ (abortStaging call l).blobs.rows = l₀.blobs.rows := by
  obtain ⟨l', hrun, hquota, hrows⟩ := release_runs h.quota hl h.blobID rfl hwithin
  have hready : readyToRelease [(call.handle, none)] = [call.handle] := by
    rw [readyToRelease, List.filter_cons_of_pos]
    · rfl
    · exact Bool.and_eq_true_iff.mpr ⟨bne_iff_ne.mpr h.blobID, rfl⟩
  have hfailed : failedDeletes [(call.handle, none)] = ∅ := by
    rw [failedDeletes, List.filter_cons_of_neg]
    · rfl
    · exact fun hp => Bool.false_ne_true (Bool.and_eq_true_iff.mp hp).2
  have hrelease : releaseReady call.errorText l [(call.handle, none)] = (l', ∅) := by
    have hreleased : releaseStagingBatch l ([call.handle].map (·.id)) blobLedgerWriteBatchSize
        = .ok l' := hrun
    rw [releaseReady, hready, hfailed, if_neg (List.cons_ne_nil _ _), hreleased]
  have habort : abortStaging call l = l' := by
    rw [abortStaging, abortBatch, hrelease]
    rfl
  rw [habort]
  exact ⟨hquota, hrows⟩

/-- A body that fits is staged in one write for each read, and its row covers it. -/
theorem stage_runs (h : Admissible call l₀) {reads : List (List UInt8)}
    (hn : reads.flatten.length < 2 ^ 63) (hfit : max reads.flatten.length 1 ≤ free l₀) :
    ∃ st reservedBytes, stage call l₀ reads = (st, .ok (call.staged reads.flatten))
      ∧ Holds l₀ (call.row reservedBytes) st.ledger ∧ reads.flatten.length ≤ reservedBytes
      ∧ reservedBytes ≤ free l₀ ∧ (reads.flatten = [] → reservedBytes = 1)
      ∧ st.writes.map (·.buffer) = reads.filter (· ≠ []) ∧ ∀ w ∈ st.writes, Covered call w := by
  obtain ⟨created, hcreate, hl⟩ := create_runs h
  obtain ⟨st, hrun, hst, hwritten, hwrites⟩ := stageFile_runs h reads { ledger := created }
    (reserving_start hl) (by simpa using hn) (by rw [List.length_nil]; omega)
  rw [List.nil_append] at hwritten
  rw [List.map_nil, List.nil_append] at hwrites
  rw [stage, hcreate]
  dsimp only
  rw [hrun]
  dsimp only
  by_cases hempty : reads.flatten = []
  · -- nothing was written, so nothing was reserved: the row gets its one byte here
    rw [stageFile_empty reads _ hempty] at hrun
    cases hrun
    obtain ⟨l', hone, hl'⟩ := reserve_runs h.quota hl rfl 1 Nat.one_pos
      (show 0 + 1 ≤ free l₀ by omega)
    refine ⟨{ ledger := l' }, 1, ?_, hl', ?_, by omega, fun _ => rfl, hwrites,
      List.forall_mem_nil _⟩
    · show (match reserve created (call.row 0).id 1 with | .error err => _ | .ok l' => _) = _
      rw [hone, hempty]
    · rw [hempty]
      exact Nat.zero_le _
  · have hpos : ¬ (st.written.length = 0 ∧ st.reservedBytes = 0) := by
      rintro ⟨hzero, -⟩
      exact hempty (hwritten ▸ List.length_eq_zero_iff.mp hzero)
    refine ⟨st, st.reservedBytes, ?_, hst.holds, hwritten ▸ hst.covers, hst.within,
      fun h => absurd h hempty, hwrites, hst.covered⟩
    rw [← hwritten]
    exact if_neg hpos

/-- A body that does not fit is refused, and leaves nothing; what was written until then
    was covered. -/
theorem stage_refused (h : Admissible call l₀) {reads : List (List UInt8)}
    (hn : reads.flatten.length < 2 ^ 63) (hfull : free l₀ < max reads.flatten.length 1) :
    ∃ st, stage call l₀ reads = (st, .error (stageError .storageQuotaExceeded))
      ∧ st.ledger.quota = l₀.quota ∧ st.ledger.blobs.rows = l₀.blobs.rows
      ∧ ∀ w ∈ st.writes, Covered call w := by
  obtain ⟨created, hcreate, hl⟩ := create_runs h
  rw [stage, hcreate]
  dsimp only
  by_cases hempty : reads.flatten = []
  · rw [hempty, List.length_nil] at hfull
    have hrefused := reserve_refused hl rfl 1 Nat.one_pos (show ¬ 0 + 1 ≤ free l₀ by omega)
    obtain ⟨hquota, hrows⟩ := abortStaging_runs h hl (Nat.zero_le _)
    rw [stageFile_empty reads _ hempty]
    refine ⟨{ ledger := abortStaging call created }, ?_, hquota, hrows, List.forall_mem_nil _⟩
    show (match reserve created (call.row 0).id 1 with | .error err => _ | .ok l' => _) = _
    rw [hrefused]
  · have hpos := List.length_pos_iff.mpr hempty
    obtain ⟨st, hrun, hst⟩ := stageFile_refused h reads { ledger := created }
      (reserving_start hl) (by simpa using hn) (by rw [List.length_nil]; omega)
    obtain ⟨hquota, hrows⟩ := abortStaging_runs h hst.holds hst.within
    rw [hrun]
    exact ⟨_, rfl, hquota, hrows, hst.covered⟩

/-- A publication pays the body and gives the reservation back. -/
theorem publish_pays {reservedBytes : Nat} (hl : Holds l₀ (call.row reservedBytes) l)
    {body : List UInt8} {k : Collation} {db db' : Database k} {f : Callback k} {now : Time}
    (hdb : db.ledger = l)
    (hpublish : publishTransaction db [call.staged body] f now = .ok db') :
    db'.ledger.quota.usedBytes = l₀.quota.usedBytes + body.length
      ∧ db'.ledger.quota.reservedBytes = l₀.quota.reservedBytes := by
  obtain ⟨found, m, releasedPaths, hpub⟩ := publishTransaction_ok hpublish
  have hact := hpub.activation
  rw [hdb] at hact
  obtain ⟨b, rfl⟩ : ∃ b, found = [b] := by
    have hlen := congrArg List.length hact.ids
    rw [List.length_map] at hlen
    exact List.length_eq_one_iff.mp hlen
  have hid : b.id = call.blobID := List.head_eq_of_cons_eq hact.ids
  have hrow := hl.eq (hact.staging b (List.mem_singleton_self _)).1 hid
  obtain ⟨p, jobs, hp, he, -⟩ := hpub.released.moves
  have hquota : db'.ledger.quota = m.quota := he.quota.trans hp.quota
  have hm := hact.rewrites.quota
  rw [hrow] at hm
  rw [hquota, hm]
  constructor
  · show l.quota.usedBytes + body.length = _
    rw [hl.quota]
    rfl
  · show l.quota.reservedBytes - reservedBytes = _
    rw [hl.quota]
    exact Nat.add_sub_cancel _ _

/-- What a successful call leaves behind. -/
structure StagedExactly (call : StageCall) (l₀ l : Ledger) (body : List UInt8)
    (staged : StagedBlob) : Prop where
  size : staged.size = body.length
  covered : ∃ b ∈ l.blobs.rows, b.id = staged.id ∧ body.length ≤ b.size
    ∧ (body = [] → b.size = 1)
  activates : ∃ l',
    activateStagingBatch l (activationsOf [staged]) blobLedgerWriteBatchSize = .ok l'
  published : ∀ {k : Collation} (db db' : Database k) (f : Callback k) (now : Time),
    db.ledger = l → publishTransaction db [staged] f now = .ok db' →
      db'.ledger.quota.usedBytes = l₀.quota.usedBytes + body.length
        ∧ db'.ledger.quota.reservedBytes = l₀.quota.reservedBytes

/-- **Streaming `Stage` decides like a plain quota test.**  A body split into any reads is
    staged exactly when it, or one byte for an empty one, fits into what is free; at every
    write the row has the tracked size and covers what is then on disk; a staged body was
    written read by read; publishing adds its size to the used bytes and returns the
    reservation; a refused body leaves both counters as they were; and the rounding does
    not wrap. -/
theorem streaming_stage_exact (h : Admissible call l₀) {reads : List (List UInt8)}
    (hn : reads.flatten.length < 2 ^ 63) :
    ((∃ staged, (stage call l₀ reads).2 = .ok staged)
      ↔ max reads.flatten.length 1
        ≤ l₀.quota.maxBytes - l₀.quota.usedBytes - l₀.quota.reservedBytes)
    ∧ (∀ w ∈ (stage call l₀ reads).1.writes,
      (∃ b ∈ w.ledger.blobs.rows, b.id = call.blobID ∧ b.size = w.reservedBytes)
        ∧ w.onDisk ≤ w.reservedBytes)
    ∧ (∀ staged, (stage call l₀ reads).2 = .ok staged →
      StagedExactly call l₀ (stage call l₀ reads).1.ledger reads.flatten staged
        ∧ (stage call l₀ reads).1.writes.map (·.buffer) = reads.filter (· ≠ []))
    ∧ (∀ err, (stage call l₀ reads).2 = .error err →
      (stage call l₀ reads).1.ledger.quota = l₀.quota
        ∧ (stage call l₀ reads).1.ledger.blobs.rows = l₀.blobs.rows)
    ∧ ∀ value block, value < 2 ^ 63 → block < 2 ^ 63 → 0 < value → 0 < block →
      roundUp value block = ((value - 1) / block + 1) * block := by
  refine ⟨?_, ?_, ?_, ?_, ?_⟩
  · constructor
    · rintro ⟨staged, hstaged⟩
      by_contra hfull
      obtain ⟨st, hrun, -⟩ := stage_refused h hn (Nat.lt_of_not_le hfull)
      rw [hrun] at hstaged
      exact nomatch hstaged
    · intro hfit
      obtain ⟨st, reservedBytes, hrun, -⟩ := stage_runs h hn hfit
      exact ⟨_, by rw [hrun]⟩
  -- every write that was made is covered, whether or not the call succeeds
  · by_cases hfit : max reads.flatten.length 1 ≤ free l₀
    · obtain ⟨st, reservedBytes, hrun, -, -, -, -, -, hcovered⟩ := stage_runs h hn hfit
      rw [hrun]
      exact hcovered
    · obtain ⟨st, hrun, -, -, hcovered⟩ := stage_refused h hn (Nat.lt_of_not_le hfit)
      rw [hrun]
      exact hcovered
  · intro staged hstaged
    by_cases hfit : max reads.flatten.length 1 ≤ free l₀
    · obtain ⟨st, reservedBytes, hrun, hl, hcovers, hwithin, hempty, hwrites, -⟩ :=
        stage_runs h hn hfit
      rw [hrun] at hstaged ⊢
      cases hstaged
      refine ⟨⟨rfl, ⟨_, hl.mem, rfl, hcovers, hempty⟩, ?_, fun db db' f now hdb hpub => ?_⟩,
        hwrites⟩
      · exact activate_runs h.quota hl h.blobID rfl hwithin hcovers
      · exact publish_pays hl hdb hpub
    · obtain ⟨st, hrun, -⟩ := stage_refused h hn (Nat.lt_of_not_le hfit)
      rw [hrun] at hstaged
      exact nomatch hstaged
  · intro err herr
    by_cases hfit : max reads.flatten.length 1 ≤ free l₀
    · obtain ⟨st, reservedBytes, hrun, -⟩ := stage_runs h hn hfit
      rw [hrun] at herr
      exact nomatch herr
    · obtain ⟨st, hrun, hquota, hrows, -⟩ := stage_refused h hn (Nat.lt_of_not_le hfit)
      rw [hrun]
      exact ⟨hquota, hrows⟩
  · exact fun value block hv hb => roundUp_eq hv (by omega)

end Call

/-! Four bytes in three reads, reserved in chunks of three, where four bytes are free: the
    second chunk does not fit, what is missing of it does. -/

/-- A call whose chunk is three bytes. -/
def smallCall : StageCall where
  blobID := "blob-1"
  storagePath := "objects/1.bin"
  stagingPath := "staging/1.tmp"
  now := 0
  stagingLease := 60
  reservationChunk := 3
  sha256 := fun _ => ""
  errorText := fun _ => ""

/-- A quota of four bytes. -/
def fourBytesFree : Ledger :=
  { Ledger.migrated with quota := { Ledger.migrated.quota with maxBytes := 4 } }

theorem smallCall_admissible : Admissible smallCall fourBytesFree where
  quota := ⟨by decide, by decide⟩
  blobID := by decide
  fresh := nofun
  lease := by decide
  chunk := by decide
  chunkRange := by decide

/-- Four bytes are staged: the first three under a chunk, the last under what is missing. -/
theorem streaming_stage_exact_small :
    (∃ staged, (stage smallCall fourBytesFree [[1, 2, 3], [], [4]]).2 = .ok staged)
      ∧ (stage smallCall fourBytesFree [[1, 2, 3], [], [4]]).1.writes.map
          (fun w => (w.reservedBytes, w.onDisk)) = [(3, 3), (4, 4)] :=
  ⟨(streaming_stage_exact smallCall_admissible (by decide)).1.mpr (by decide), by decide⟩

end StreamingStage
