import LightOss.LedgerRows
import LightOss.StepSystem
import Mathlib.Algebra.Order.Ring.Rat

/-! # Rate limit store — one table, a counter beside it, calls from anywhere

    The MySQL store of the rate limiter: the statements of its transactions on the
    bucket table and the capacity row, and the calls of any number of instances as
    phases between transactions.  Tokens are exact; the database clock counts
    microseconds.

    A transaction takes effect, is rolled back, or takes effect while the reply is lost
    (`Outcome`); the call that made it goes on with what it learned (`State.next`).  The
    log of a state holds the decisions that took effect. -/

namespace RateLimitStore

open KeyedTable Fallible LedgerRows

/-- A `DATETIME(6)`, in microseconds. -/
abbrev DateTime := Int

/-! ## Tables -/

section Tables

variable (κ : Type)

/-- `rate_limit_buckets`, under the hashes `κ` of the keys. -/
structure Bucket where
  keyHash : κ
  tokens : ℚ
  lastRefillAt : DateTime
  expiresAt : DateTime
  lastAllowed : Bool

/-- `rate_limit_capacity`. -/
structure Capacity where
  entryCount : Nat := 0
  expiredEvictions : Nat := 0
  capacityRejections : Nat := 0
  deriving DecidableEq

variable [DecidableEq κ]

/-- `PRIMARY KEY (key_hash)`. -/
def Bucket.clash (a b : Bucket κ) : Bool := decide (a.keyHash = b.keyHash)

instance : UniqueKey (Bucket.clash κ) where
  refl a := by simp [Bucket.clash]
  comm a b := by simp [Bucket.clash, eq_comm]

/-- The two tables. -/
structure Store where
  buckets : Table (Bucket.clash κ) := Table.empty
  capacity : Capacity := {}

end Tables

/-- The limits of a caller. -/
structure Policy where
  rps : ℚ
  burst : Int
  ttl : Duration

/-- `ttl.Microseconds()`. -/
def microseconds (ttl : Duration) : Int := ttl.tdiv 1000

variable {κ : Type} [DecidableEq κ]

/-- The row of a key. -/
def keyIs (keyHash : κ) (b : Bucket κ) : Bool := decide (b.keyHash = keyHash)

/-! ## Statements -/

/-- `LEAST(burst, tokens + GREATEST(TIMESTAMPDIFF(…), 0) * rps / 1000000)`. -/
def refilled (policy : Policy) (now : DateTime) (b : Bucket κ) : ℚ :=
  min (policy.burst : ℚ)
    (b.tokens + (max (now - b.lastRefillAt) 0 : Int) * policy.rps / 1000000)

/-- The assignments of the update; all read the old row. -/
def assignBucket (policy : Policy) (now : DateTime) (b : Bucket κ) : Bucket κ where
  keyHash := b.keyHash
  lastAllowed := decide (b.expiresAt ≤ now) || decide (1 ≤ refilled policy now b)
  tokens :=
    if b.expiresAt ≤ now then policy.burst - 1
    else refilled policy now b - if 1 ≤ refilled policy now b then 1 else 0
  lastRefillAt := now
  expiresAt := now + microseconds policy.ttl

/-- The guarded update of a bucket; the columns on the right are those from before. -/
def updateRateLimitBucket (s : Store κ) (keyHash : κ) (policy : Policy) (now : DateTime) :
    Store κ :=
  { s with
    buckets :=
      s.buckets.updateWhere (keyIs keyHash) (assignBucket policy now) fun _ _ => ⟨rfl, rfl⟩ }

/-- The update and the read of its decision. -/
def decideExisting (s : Store κ) (keyHash : κ) (policy : Policy) (now : DateTime)
    (message : String) :
    Except Err (Store κ × Bool) := do
  let s := updateRateLimitBucket s keyHash policy now
  let b ← orElseThrow (s.buckets.first? (keyIs keyHash)) (.errorf message)
  return (s, b.lastAllowed)

/-- `updateExisting`: the decision, or `none` when the key has no bucket. -/
def updateExisting (s : Store κ) (keyHash : κ) (policy : Policy) (now : DateTime) :
    Except Err (Store κ × Option Bool) :=
  match s.buckets.first? (keyIs keyHash) with
  | none => .ok (s, none)
  | some _ => do
      let (s, allowed) ← decideExisting s keyHash policy now "read rate limit decision"
      return (s, some allowed)

/-- `lockRateLimitCapacity`: the counter, scanned into an `int64`. -/
def lockRateLimitCapacity (s : Store κ) : Except Err Int := do
  ensure (s.capacity.entryCount < 2 ^ 63) (.errorf "lock rate limit capacity")
  return s.capacity.entryCount

/-- How many buckets one statement deletes. -/
def mysqlRateLimitCleanupBatchSize : Nat := 256

/-- The rows of `DELETE … WHERE expires_at <= now ORDER BY expires_at LIMIT 256`. -/
def expiredBatch (s : Store κ) (now : DateTime) : List (Bucket κ) :=
  ((s.buckets.select fun b => decide (b.expiresAt ≤ now)).mergeSort
    fun a b => decide (a.expiresAt ≤ b.expiresAt)).take mysqlRateLimitCleanupBatchSize

/-- `cleanupExpiredRateLimitBuckets`. -/
def cleanupExpiredRateLimitBuckets (s : Store κ) (now : DateTime) : Except Err (Store κ × Nat) :=
  let gone := expiredBatch s now
  let deleted := gone.length
  if deleted = 0 then .ok (s, 0)
  else do
    let left ← (u64Sub "entry_count" s.capacity.entryCount deleted).mapError fun _ =>
      .errorf "decrement rate limit entry count"
    let evictions ← (u64Add "expired_evictions" s.capacity.expiredEvictions deleted).mapError
      fun _ => .errorf "decrement rate limit entry count"
    return ({
      buckets := s.buckets.deleteWhere fun b => decide (b.keyHash ∈ gone.map (·.keyHash))
      capacity := { s.capacity with entryCount := max left 0, expiredEvictions := evictions } },
      deleted)

/-- The insert of a first request. -/
def insertBucket (s : Store κ) (keyHash : κ) (policy : Policy) (now : DateTime) :
    Except Err (Store κ) := do
  let buckets ← orElseThrow (s.buckets.insert?
    { keyHash := keyHash
      tokens := ((policy.burst - 1 : Int) : ℚ)
      lastRefillAt := now
      expiresAt := now + microseconds policy.ttl
      lastAllowed := true }) (.errorf "insert rate limit bucket")
  let count ← (u64Add "entry_count" s.capacity.entryCount 1).mapError fun _ =>
    .errorf "increment rate limit entry count"
  return { buckets := buckets, capacity := { s.capacity with entryCount := count } }

/-- `insertBounded`; its cleanup and its decision are different statements, each at
    its own time. -/
def insertBounded (maxEntries : Int) (s : Store κ) (keyHash : κ) (policy : Policy)
    (cleanupAt now : DateTime) : Except Err (Store κ × Bool) := do
  let entryCount ← lockRateLimitCapacity s
  match s.buckets.first? (keyIs keyHash) with
  | some _ => decideExisting s keyHash policy now "read concurrent rate limit decision"
  | none => do
      let (s, deleted) ← (if maxEntries ≤ entryCount then cleanupExpiredRateLimitBuckets s cleanupAt
        else .ok (s, 0))
      if maxEntries ≤ entryCount - deleted then do
        let rejections ← (u64Add "capacity_rejections" s.capacity.capacityRejections 1).mapError
          fun _ => .errorf "record rate limit capacity rejection"
        return ({ s with capacity := { s.capacity with capacityRejections := rejections } }, false)
      else do
        let s ← insertBucket s keyHash policy now
        return (s, true)

/-- `CleanupExpired`. -/
def cleanupExpired (s : Store κ) (now : DateTime) : Except Err (Store κ × Nat) := do
  let _ ← lockRateLimitCapacity s
  cleanupExpiredRateLimitBuckets s now

/-! ## Transactions -/

/-- How a transaction that its statements let pass ends. -/
inductive Outcome where
  | committed
  /-- Some statement or the commit failed; everything is rolled back. -/
  | rolledBack (err : Err)
  /-- The commit took effect but reported an error. -/
  | lost (err : Err)

/-- What is in the database afterwards, and what was decided there. -/
def Outcome.effect {α : Type} (outcome : Outcome) (s : Store κ) (x : Except Err (Store κ × α)) :
    Store κ × Option α :=
  match x, outcome with
  | .ok (s', a), .committed => (s', some a)
  | .ok (s', a), .lost _ => (s', some a)
  | _, _ => (s, none)

/-- What the caller learns. -/
def Outcome.reply {α : Type} (outcome : Outcome) (x : Except Err (Store κ × α)) : Except Err α :=
  match x, outcome with
  | .error err, _ => .error err
  | .ok (_, a), .committed => .ok a
  | .ok _, .rolledBack err => .error err
  | .ok _, .lost err => .error err

/-! ## Calls -/

/-- Where a call of `Allow` is; `returned` carries its two results. -/
inductive Phase (κ : Type) where
  | idle
  | updating (keyHash : κ) (policy : Policy)
  | inserting (keyHash : κ) (policy : Policy)
  | cleaning (allowed : Bool)
  | returned (allowed : Bool) (err : Option Err)

/-- The check at the head of `Allow`. -/
def beginAllow (maxEntries : Int) (keyHash : κ) (policy : Policy) : Phase κ :=
  if policy.rps ≤ 0 ∨ policy.burst ≤ 0 ∨ policy.ttl ≤ 0 ∨ maxEntries ≤ 0 then
    .returned false (some (.errorf "invalid rate limit policy"))
  else .updating keyHash policy

/-- After `updateExisting`. -/
def afterUpdate (keyHash : κ) (policy : Policy) : Except Err (Option Bool) → Phase κ
  | .error err => .returned false (some err)
  | .ok (some allowed) => .cleaning allowed
  | .ok none => .inserting keyHash policy

/-- After `insertBounded`. -/
def afterInsert : Except Err Bool → Phase κ
  | .error err => .returned false (some err)
  | .ok allowed => .cleaning allowed

/-- After `cleanupExpired`. -/
def afterCleanup (allowed : Bool) : Except Err Nat → Phase κ
  | .error err => .returned false (some err)
  | .ok _ => .returned allowed none

/-- A decision that took effect in the database. -/
structure Decision (κ : Type) where
  call : Nat
  keyHash : κ
  policy : Policy
  decidedAt : DateTime
  allowed : Bool

/-- The store, the time of the last statement, the calls, and the decisions so far. -/
structure State (κ : Type) [DecidableEq κ] where
  store : Store κ := {}
  clock : DateTime
  calls : Nat → Phase κ := fun _ => .idle
  log : List (Decision κ) := []

/-- What happens next. -/
inductive Label where
  | start (call : Nat) (key : String) (policy : Policy)
  | update (call : Nat) (now : DateTime) (outcome : Outcome)
  | insert (call : Nat) (cleanupAt now : DateTime) (outcome : Outcome)
  /-- The call's instance finds its next cleanup not due. -/
  | skipCleanup (call : Nat)
  | cleanup (call : Nat) (now : DateTime) (outcome : Outcome)
  /-- `CleanupExpired` on its own. -/
  | background (now : DateTime) (outcome : Outcome)

/-- One transaction, or a step of a call between two; `none` when it is not enabled. -/
def State.next (sum256 : String → κ) (maxEntries : Int) (s : State κ) : Label → Option (State κ)
  | .start call key policy =>
      match s.calls call with
      | .idle => some { s with
          calls := Function.update s.calls call (beginAllow maxEntries (sum256 key) policy) }
      | _ => none
  | .update call now outcome =>
      match s.calls call with
      | .updating keyHash policy =>
          if s.clock ≤ now then
            let x := updateExisting s.store keyHash policy now
            some {
              store := (outcome.effect s.store x).1
              clock := now
              calls := Function.update s.calls call (afterUpdate keyHash policy (outcome.reply x))
              log := s.log ++ ((outcome.effect s.store x).2.join.map
                (Decision.mk call keyHash policy now)).toList }
          else none
      | _ => none
  | .insert call cleanupAt now outcome =>
      match s.calls call with
      | .inserting keyHash policy =>
          if s.clock ≤ cleanupAt ∧ cleanupAt ≤ now then
            let x := insertBounded maxEntries s.store keyHash policy cleanupAt now
            some {
              store := (outcome.effect s.store x).1
              clock := now
              calls := Function.update s.calls call (afterInsert (outcome.reply x))
              log := s.log ++ ((outcome.effect s.store x).2.map
                (Decision.mk call keyHash policy now)).toList }
          else none
      | _ => none
  | .skipCleanup call =>
      match s.calls call with
      | .cleaning allowed =>
          some { s with calls := Function.update s.calls call (.returned allowed none) }
      | _ => none
  | .cleanup call now outcome =>
      match s.calls call with
      | .cleaning allowed =>
          if s.clock ≤ now then
            let x := cleanupExpired s.store now
            some { s with
              store := (outcome.effect s.store x).1
              clock := now
              calls := Function.update s.calls call (afterCleanup allowed (outcome.reply x)) }
          else none
      | _ => none
  | .background now outcome =>
      if s.clock ≤ now then
        some { s with
          store := (outcome.effect s.store (cleanupExpired s.store now)).1
          clock := now }
      else none

/-- The migrated tables, and no call yet. -/
def limiter (sum256 : String → κ) (maxEntries : Int) : StepSystem.System (State κ) Label where
  start s := ∃ clock, s = { clock := clock }
  step s label s' := s.next sum256 maxEntries label = some s'

end RateLimitStore
