import LightOss.RateLimitStore

/-! # Rate limit capacity — the counter is the number of buckets

    What each transaction may do to the store, said once: it updates a bucket
    (`Updated`), evicts expired ones (`Evicted`) or inserts under the bound (`Bounded`).
    `Moved` says what a step does with the reply it may have lost (`moved_of_step`), and
    the invariant over all interleavings of calls and cleanups follows from that alone
    (`capacityOk_of_reachable`). -/

namespace RateLimitCapacity

open KeyedTable Fallible LedgerRows RateLimitStore StepSystem

variable {κ : Type} [DecidableEq κ] {s s' m : Store κ} {keyHash : κ} {policy : Policy}
variable {now cleanupAt : DateTime} {maxEntries : Int} {allowed : Bool}

/-! ## What each transaction may do -/

theorem keyIs_iff {b : Bucket κ} : keyIs keyHash b = true ↔ b.keyHash = keyHash :=
  decide_eq_true_iff

/-- The bucket of a key is the only one. -/
theorem eq_of_keyHash {a b : Bucket κ} (ha : a ∈ s.buckets.rows) (hb : b ∈ s.buckets.rows)
    (h : a.keyHash = b.keyHash) : a = b :=
  s.buckets.eq_of_clash ha hb (decide_eq_true h)

/-- The bucket of the key was rewritten for a request at `now`. -/
structure Updated (s s' : Store κ) (keyHash : κ) (policy : Policy) (now : DateTime)
    (allowed : Bool) : Prop where
  bucket : ∃ b ∈ s.buckets.rows, b.keyHash = keyHash
    ∧ allowed = (assignBucket policy now b).lastAllowed
  rows : s'.buckets.rows = s.buckets.rows.map fun b =>
    if keyIs keyHash b then assignBucket policy now b else b
  capacity : s'.capacity = s.capacity

/-- Buckets left, each of them expired, and the counter went down with them. -/
structure Evicted (s s' : Store κ) (now : DateTime) : Prop where
  sub : ∀ b ∈ s'.buckets.rows, b ∈ s.buckets.rows
  expired : ∀ b ∈ s.buckets.rows, b ∉ s'.buckets.rows → b.expiresAt ≤ now
  counted : ∃ n, s'.buckets.rows.length + n = s.buckets.rows.length
    ∧ s'.capacity.entryCount + n = s.capacity.entryCount
  fresh : (∀ b ∈ s.buckets.rows, now < b.expiresAt) → s'.buckets = s.buckets

theorem Evicted.refl (s : Store κ) (now : DateTime) : Evicted s s now :=
  ⟨fun _ hb => hb, fun _ hb hout => absurd hb hout, ⟨0, rfl, rfl⟩, fun _ => rfl⟩

/-- A bucket that is there decides, and is updated by its own decision. -/
theorem decideExisting_ok {message : String} {b : Bucket κ} (hb : b ∈ s.buckets.rows)
    (hkey : b.keyHash = keyHash)
    (h : decideExisting s keyHash policy now message = .ok (s', allowed)) :
    Updated s s' keyHash policy now allowed := by
  rw [decideExisting] at h
  obtain ⟨a, hread, h⟩ := bind_eq_ok.mp h
  cases pure_eq_ok.mp h
  obtain ⟨ha, hakey⟩ := Table.first?_eq_some (orElseThrow_eq_ok.mp hread)
  refine ⟨⟨b, hb, hkey, ?_⟩, rfl, rfl⟩
  -- the row read back is the rewritten one
  obtain ⟨a', ha', rfl⟩ := List.mem_map.mp ha
  split at hakey
  · next hk =>
      rw [if_pos hk, eq_of_keyHash ha' hb ((keyIs_iff.mp hk).trans hkey.symm)]
  · next hk => exact absurd hakey hk

/-- The first transaction: no bucket, or a decision. -/
theorem updateExisting_ok {decided : Option Bool}
    (h : updateExisting s keyHash policy now = .ok (s', decided)) :
    (s' = s ∧ decided = none ∧ ∀ b ∈ s.buckets.rows, b.keyHash ≠ keyHash)
      ∨ ∃ allowed, decided = some allowed ∧ Updated s s' keyHash policy now allowed := by
  rw [updateExisting] at h
  split at h
  · next hnone =>
      cases h
      refine Or.inl ⟨rfl, rfl, fun b hb hkey => ?_⟩
      exact absurd (keyIs_iff.mpr hkey) (Bool.eq_false_iff.mp (Table.first?_eq_none.mp hnone b hb))
  · next b hsome =>
      obtain ⟨hb, hkey⟩ := Table.first?_eq_some hsome
      obtain ⟨⟨m, allowed⟩, hm, h⟩ := bind_eq_ok.mp h
      cases pure_eq_ok.mp h
      exact Or.inr ⟨allowed, rfl, decideExisting_ok hb (keyIs_iff.mp hkey) hm⟩

/-- The rows a cleanup deletes are expired rows of the table, under distinct keys. -/
theorem expiredBatch_rows (s : Store κ) (now : DateTime) :
    (∀ b ∈ expiredBatch s now, b ∈ s.buckets.rows ∧ b.expiresAt ≤ now)
      ∧ ((expiredBatch s now).map (·.keyHash)).Nodup := by
  have hmem : ∀ b ∈ expiredBatch s now, b ∈ s.buckets.rows ∧ b.expiresAt ≤ now := by
    intro b hb
    obtain ⟨hb, hexpired⟩ := Table.mem_select.mp (List.mem_mergeSort.mp (List.mem_of_mem_take hb))
    exact ⟨hb, of_decide_eq_true hexpired⟩
  refine ⟨hmem, List.Nodup.map_on (fun a ha b hb h => ?_) ?_⟩
  · exact eq_of_keyHash (hmem a ha).1 (hmem b hb).1 h
  · refine ((List.take_sublist _ _).nodup ?_)
    exact (List.mergeSort_perm _ _).nodup_iff.mpr (s.buckets.rows_nodup.filter _)

/-- A cleanup deletes exactly the rows it found. -/
theorem expiredBatch_perm (s : Store κ) (now : DateTime) :
    (s.buckets.select fun b => decide (b.keyHash ∈ (expiredBatch s now).map (·.keyHash))).Perm
      (expiredBatch s now) := by
  obtain ⟨hmem, hnd⟩ := expiredBatch_rows s now
  refine s.buckets.select_perm_found (k := (·.keyHash)) (fun b hb => ⟨(hmem b hb).1, ?_⟩) rfl hnd
    (fun b hb => of_decide_eq_true hb) fun a b hab => decide_eq_true hab
  exact decide_eq_true (List.mem_map_of_mem hb)

/-- The batch is never larger than the table. -/
theorem expiredBatch_length (s : Store κ) (now : DateTime) :
    (expiredBatch s now).length ≤ s.buckets.rows.length := by
  rw [← (expiredBatch_perm s now).length_eq]
  exact List.length_filter_le _ _

/-- A cleanup deletes expired buckets and counts them. -/
theorem cleanup_ok {deleted : Nat} (h : cleanupExpiredRateLimitBuckets s now = .ok (s', deleted)) :
    Evicted s s' now ∧ s'.capacity.entryCount + deleted = s.capacity.entryCount := by
  rw [cleanupExpiredRateLimitBuckets] at h
  dsimp only at h
  split at h
  · cases h
    exact ⟨.refl s now, rfl⟩
  · next hsome =>
    obtain ⟨left, hleft, h⟩ := bind_eq_ok.mp h
    obtain ⟨evictions, -, h⟩ := bind_eq_ok.mp h
    cases pure_eq_ok.mp h
    obtain ⟨hle, rfl⟩ := u64Sub_eq_ok.mp (mapError_eq_ok.mp hleft)
    obtain ⟨hmem, -⟩ := expiredBatch_rows s now
    -- the counter goes down by the rows that were deleted and not below zero
    have hcount : max (s.capacity.entryCount - (expiredBatch s now).length) 0
        + (expiredBatch s now).length = s.capacity.entryCount := by
      omega
    refine ⟨⟨fun b hb => (List.mem_filter.mp hb).1, fun b hb hout => ?_, ⟨_, ?_, hcount⟩, ?_⟩,
      hcount⟩
    -- a row that left has the key of a row of the batch, which is expired
    · have hgone : b.keyHash ∈ (expiredBatch s now).map (·.keyHash) := by
        by_contra hstays
        exact hout (List.mem_filter.mpr ⟨hb, by simpa using hstays⟩)
      obtain ⟨a, ha, hkey⟩ := List.mem_map.mp hgone
      rw [← eq_of_keyHash (hmem a ha).1 hb hkey]
      exact (hmem a ha).2
    · have hsplit := List.length_eq_length_filter_add (l := s.buckets.rows)
        fun b => decide (b.keyHash ∈ (expiredBatch s now).map (·.keyHash))
      have hperm := (expiredBatch_perm s now).length_eq
      rw [Table.select] at hperm
      rw [Table.rows_deleteWhere, hsplit, hperm]
      exact Nat.add_comm _ _
    · intro hfresh
      obtain ⟨b, hb⟩ := List.exists_mem_of_length_pos (Nat.pos_of_ne_zero hsome)
      exact absurd (hmem b hb).2 (not_le.mpr (hfresh b (hmem b hb).1))

/-- The row of a first request. -/
def firstBucket (keyHash : κ) (policy : Policy) (now : DateTime) : Bucket κ where
  keyHash := keyHash
  tokens := ((policy.burst - 1 : Int) : ℚ)
  lastRefillAt := now
  expiresAt := now + microseconds policy.ttl
  lastAllowed := true

/-- What a bounded insert did. -/
inductive Bounded (maxEntries : Int) (s : Store κ) (keyHash : κ) (policy : Policy)
    (cleanupAt now : DateTime) : Store κ → Bool → Prop where
  /-- A concurrent call had inserted the key. -/
  | updated {s' : Store κ} {allowed : Bool} : Updated s s' keyHash policy now allowed →
      Bounded maxEntries s keyHash policy cleanupAt now s' allowed
  | rejected {s' : Store κ} : (∀ b ∈ s.buckets.rows, b.keyHash ≠ keyHash) →
      Evicted s s' cleanupAt → maxEntries ≤ s.capacity.entryCount →
      Bounded maxEntries s keyHash policy cleanupAt now s' false
  | inserted {m s' : Store κ} : (∀ b ∈ s.buckets.rows, b.keyHash ≠ keyHash) →
      Evicted s m cleanupAt → (m.capacity.entryCount : Int) < maxEntries →
      s'.buckets.rows = m.buckets.rows ++ [firstBucket keyHash policy now] →
      s'.capacity.entryCount = m.capacity.entryCount + 1 →
      Bounded maxEntries s keyHash policy cleanupAt now s' true

/-- A new bucket is counted. -/
theorem insertBucket_ok (h : insertBucket s keyHash policy now = .ok s') :
    s'.buckets.rows = s.buckets.rows ++ [firstBucket keyHash policy now]
      ∧ s'.capacity.entryCount = s.capacity.entryCount + 1 := by
  rw [insertBucket] at h
  obtain ⟨buckets, hins, h⟩ := bind_eq_ok.mp h
  obtain ⟨count, hcount, h⟩ := bind_eq_ok.mp h
  cases pure_eq_ok.mp h
  exact ⟨(Table.insert?_eq_some.mp (orElseThrow_eq_ok.mp hins)).2,
    (u64Add_eq_ok.mp (mapError_eq_ok.mp hcount)).2⟩

/-- The second transaction: an old bucket after all, a new one, or no room. -/
theorem insertBounded_ok (h : insertBounded maxEntries s keyHash policy cleanupAt now
    = .ok (s', allowed)) : Bounded maxEntries s keyHash policy cleanupAt now s' allowed := by
  rw [insertBounded, lockRateLimitCapacity] at h
  obtain ⟨entryCount, hlock, h⟩ := bind_eq_ok.mp h
  obtain ⟨_, -, hlock⟩ := bind_eq_ok.mp hlock
  cases pure_eq_ok.mp hlock
  split at h
  · next b hsome =>
      obtain ⟨hb, hkey⟩ := Table.first?_eq_some hsome
      exact .updated (decideExisting_ok hb (keyIs_iff.mp hkey) h)
  · next hnone =>
      -- no bucket after all: cleanup first, and then the bound decides
      have hnew : ∀ b ∈ s.buckets.rows, b.keyHash ≠ keyHash := fun b hb hkey =>
        absurd (keyIs_iff.mpr hkey) (Bool.eq_false_iff.mp (Table.first?_eq_none.mp hnone b hb))
      obtain ⟨⟨m, deleted⟩, hm, h⟩ := bind_eq_ok.mp h
      have hevicted : Evicted s m cleanupAt
          ∧ m.capacity.entryCount + deleted = s.capacity.entryCount := by
        split at hm
        · exact cleanup_ok hm
        · cases hm
          exact ⟨.refl s cleanupAt, rfl⟩
      dsimp only at h
      split at h
      · next hfull =>
          obtain ⟨rejections, -, h⟩ := bind_eq_ok.mp h
          cases pure_eq_ok.mp h
          have he := hevicted.1
          exact .rejected hnew ⟨he.sub, he.expired, he.counted, he.fresh⟩ (by omega)
      · next hroom =>
          obtain ⟨m', hm', h⟩ := bind_eq_ok.mp h
          cases pure_eq_ok.mp h
          obtain ⟨hrows, hcount⟩ := insertBucket_ok hm'
          exact .inserted hnew hevicted.1 (by omega) hrows hcount

/-- The cleanup as a transaction of its own. -/
theorem cleanupExpired_ok {deleted : Nat} (h : cleanupExpired s now = .ok (s', deleted)) :
    Evicted s s' now := by
  rw [cleanupExpired] at h
  obtain ⟨_, -, h⟩ := bind_eq_ok.mp h
  exact (cleanup_ok h).1

/-! ## What each step may do -/

/-- A policy that passes the check of `Allow`. -/
structure Policy.Valid (policy : Policy) : Prop where
  rps : 0 < policy.rps
  burst : 0 < policy.burst

/-- How a call goes on without a decision. -/
inductive Follows : Phase κ → Phase κ → Prop where
  | begun {keyHash : κ} {policy : Policy} : Policy.Valid policy →
      Follows .idle (.updating keyHash policy)
  | missing {keyHash : κ} {policy : Policy} :
      Follows (.updating keyHash policy) (.inserting keyHash policy)
  | finished {allowed : Bool} : Follows (.cleaning allowed) (.returned allowed none)
  | failed {phase : Phase κ} {err : Err} : Follows phase (.returned false (some err))

/-- The call waits for the transaction that decides it. -/
def Pending (phase : Phase κ) (keyHash : κ) (policy : Policy) : Prop :=
  phase = .updating keyHash policy ∨ phase = .inserting keyHash policy

/-- What one step does. -/
inductive Moved (maxEntries : Int) (s : State κ) (label : Label) (s' : State κ) : Prop where
  | quiet : (s'.calls = s.calls ∨ ∃ call phase, Follows (s.calls call) phase
        ∧ s'.calls = Function.update s.calls call phase) →
      Evicted s.store s'.store s'.clock → s.clock ≤ s'.clock → s'.log = s.log →
      Moved maxEntries s label s'
  | decided {call : Nat} {keyHash : κ} {policy : Policy} {cleanupAt : DateTime} {allowed : Bool}
      {phase : Phase κ} : Pending (s.calls call) keyHash policy →
      (phase = .cleaning allowed ∨ ∃ err, phase = .returned false (some err)) →
      s'.calls = Function.update s.calls call phase →
      Bounded maxEntries s.store keyHash policy cleanupAt s'.clock s'.store allowed →
      (Updated s.store s'.store keyHash policy s'.clock allowed
        ∨ (s.calls call = .inserting keyHash policy
          ∧ ∃ outcome, label = .insert call cleanupAt s'.clock outcome)) →
      s.clock ≤ cleanupAt → cleanupAt ≤ s'.clock →
      s'.log = s.log ++ [⟨call, keyHash, policy, s'.clock, allowed⟩] → Moved maxEntries s label s'

/-- A transaction took effect, or it did not and its caller gets an error. -/
theorem effect_cases {α : Type} (outcome : Outcome) (s : Store κ) (x : Except Err (Store κ × α)) :
    (∃ m a, x = .ok (m, a) ∧ outcome.effect s x = (m, some a)
      ∧ (outcome.reply x = .ok a ∨ ∃ err, outcome.reply x = .error err))
    ∨ (outcome.effect s x = (s, none) ∧ ∃ err, outcome.reply x = .error err) := by
  cases x with
  | error err => exact Or.inr ⟨rfl, err, rfl⟩
  | ok result =>
      obtain ⟨m, a⟩ := result
      cases outcome with
      | committed => exact Or.inl ⟨m, a, rfl, rfl, Or.inl rfl⟩
      | rolledBack err => exact Or.inr ⟨rfl, err, rfl⟩
      | lost err => exact Or.inl ⟨m, a, rfl, rfl, Or.inr ⟨err, rfl⟩⟩

variable {sum256 : String → κ} {st st' : State κ} {label : Label}

/-- A cleanup evicts or does nothing, whatever becomes of its transaction. -/
theorem evicted_effect (outcome : Outcome) (s : Store κ) (now : DateTime) :
    Evicted s (outcome.effect s (cleanupExpired s now)).1 now := by
  rcases effect_cases outcome s (cleanupExpired s now) with ⟨m, a, hx, heffect, -⟩ | ⟨heffect, -⟩
  · rw [heffect]
    exact cleanupExpired_ok hx
  · rw [heffect]
    exact .refl s now

/-- What a step of the first transaction may do, in each of its outcomes. -/
theorem moved_update {call : Nat} {outcome : Outcome}
    (h : st.next sum256 maxEntries (.update call now outcome) = some st') :
    Moved maxEntries st (.update call now outcome) st' := by
  rw [State.next] at h
  split at h
  · next keyHash policy hphase =>
      split at h
      · next hclock =>
          cases h
          rcases effect_cases outcome st.store (updateExisting st.store keyHash policy now) with
            ⟨m, decided, hx, heffect, hreply⟩ | ⟨heffect, err, hreply⟩
          · rcases updateExisting_ok hx with ⟨rfl, rfl, -⟩ | ⟨allowed, rfl, hupdated⟩
            · -- no bucket: the call goes on to the insert
              have hfollows : Follows (st.calls call) (afterUpdate keyHash policy (outcome.reply
                  (updateExisting st.store keyHash policy now))) := by
                rcases hreply with hreply | ⟨err, hreply⟩
                · rw [hreply, hphase]
                  exact .missing
                · rw [hreply]
                  exact .failed
              refine .quiet (Or.inr ⟨call, _, hfollows, rfl⟩) ?_ hclock ?_
              · rw [heffect]
                exact .refl _ now
              · rw [heffect]
                exact List.append_nil _
            -- a decision: the caller learns it, or gets an error in its place
            · have hdone : afterUpdate keyHash policy (outcome.reply
                    (updateExisting st.store keyHash policy now)) = .cleaning allowed
                  ∨ ∃ err, afterUpdate keyHash policy (outcome.reply
                    (updateExisting st.store keyHash policy now)) = .returned false (some err) := by
                rcases hreply with hreply | ⟨err, hreply⟩
                · exact Or.inl (by rw [hreply]; rfl)
                · exact Or.inr ⟨err, by rw [hreply]; rfl⟩
              have hstore : Updated st.store
                  (outcome.effect st.store (updateExisting st.store keyHash policy now)).1
                  keyHash policy now allowed := by
                rw [heffect]
                exact hupdated
              refine .decided (Or.inl hphase) hdone rfl (.updated hstore) (Or.inl hstore) hclock
                (le_refl _) ?_
              rw [heffect]
              rfl
          -- rolled back: the store is as it was and the call has failed
          · refine .quiet (Or.inr ⟨call, _, ?_, rfl⟩) ?_ hclock ?_
            · rw [hreply]
              exact .failed
            · rw [heffect]
              exact .refl _ now
            · rw [heffect]
              exact List.append_nil _
      · exact nomatch h
  · exact nomatch h

theorem moved_insert {call : Nat} {outcome : Outcome}
    (h : st.next sum256 maxEntries (.insert call cleanupAt now outcome) = some st') :
    Moved maxEntries st (.insert call cleanupAt now outcome) st' := by
  rw [State.next] at h
  split at h
  · next keyHash policy hphase =>
      split at h
      · next hclock =>
          cases h
          rcases effect_cases outcome st.store
            (insertBounded maxEntries st.store keyHash policy cleanupAt now) with
            ⟨m, allowed, hx, heffect, hreply⟩ | ⟨heffect, err, hreply⟩
          -- a decision: the caller learns it, or gets an error in its place
          · have hdone : afterInsert (outcome.reply
                  (insertBounded maxEntries st.store keyHash policy cleanupAt now))
                    = (.cleaning allowed : Phase κ)
                ∨ ∃ err, afterInsert (outcome.reply
                  (insertBounded maxEntries st.store keyHash policy cleanupAt now))
                    = (.returned false (some err) : Phase κ) := by
              rcases hreply with hreply | ⟨err, hreply⟩
              · exact Or.inl (by rw [hreply]; rfl)
              · exact Or.inr ⟨err, by rw [hreply]; rfl⟩
            refine .decided (Or.inr hphase) hdone rfl ?_ (Or.inr ⟨hphase, outcome, rfl⟩) hclock.1
              hclock.2 ?_
            · rw [heffect]
              exact insertBounded_ok hx
            · rw [heffect]
              rfl
          · refine .quiet (Or.inr ⟨call, _, ?_, rfl⟩) ?_ (hclock.1.trans hclock.2) ?_
            · rw [hreply]
              exact .failed
            · rw [heffect]
              exact .refl _ now
            · rw [heffect]
              exact List.append_nil _
      · exact nomatch h
  · exact nomatch h

omit [DecidableEq κ] in
/-- The phases a call goes through without touching the store. -/
theorem follows_begin (maxEntries : Int) (keyHash : κ) (policy : Policy) :
    Follows .idle (beginAllow maxEntries keyHash policy) := by
  rw [beginAllow]
  split
  · exact .failed
  · next hvalid =>
      rw [not_or, not_or, not_or] at hvalid
      exact .begun ⟨not_le.mp hvalid.1, not_le.mp hvalid.2.1⟩

omit [DecidableEq κ] in
/-- After the cleanup the call returns what it had decided, or the error. -/
theorem follows_cleanup (allowed : Bool) (reply : Except Err Nat) :
    Follows (κ := κ) (.cleaning allowed) (afterCleanup allowed reply) := by
  cases reply with
  | error err => exact .failed
  | ok deleted => exact .finished

/-- **What a step may do.** -/
theorem moved_of_step (h : (limiter sum256 maxEntries).step st label st') :
    Moved maxEntries st label st' := by
  replace h : st.next sum256 maxEntries label = some st' := h
  cases label with
  | update call now outcome => exact moved_update h
  | insert call cleanupAt now outcome => exact moved_insert h
  | start call key policy =>
      rw [State.next] at h
      split at h
      · next hphase =>
          cases h
          refine .quiet (Or.inr ⟨call, _, ?_, rfl⟩) (.refl _ _) (le_refl _) rfl
          rw [hphase]
          exact follows_begin maxEntries (sum256 key) policy
      · exact nomatch h
  | skipCleanup call =>
      rw [State.next] at h
      split at h
      · next allowed hphase =>
          cases h
          refine .quiet (Or.inr ⟨call, _, ?_, rfl⟩) (.refl _ _) (le_refl _) rfl
          rw [hphase]
          exact .finished
      · exact nomatch h
  -- a cleanup may lose its reply, too, and evicts expired rows or nothing
  | cleanup call now outcome =>
      rw [State.next] at h
      split at h
      · next allowed hphase =>
          split at h
          · next hclock =>
              cases h
              refine .quiet (Or.inr ⟨call, _, ?_, rfl⟩) (evicted_effect _ _ _) hclock rfl
              rw [hphase]
              exact follows_cleanup allowed _
          · exact nomatch h
      · exact nomatch h
  | background now outcome =>
      rw [State.next] at h
      split at h
      · next hclock =>
          cases h
          exact .quiet (Or.inl rfl) (evicted_effect _ _ _) hclock rfl
      · exact nomatch h

/-! ## Capacity -/

/-- The counter counts the buckets and stays within the limit. -/
structure CapacityOk (maxEntries : Int) (s : Store κ) : Prop where
  count : s.capacity.entryCount = s.buckets.rows.length
  bound : (s.capacity.entryCount : Int) ≤ maxEntries

theorem CapacityOk.evicted (h : CapacityOk maxEntries s) (he : Evicted s s' now) :
    CapacityOk maxEntries s' := by
  obtain ⟨n, hrows, hcount⟩ := he.counted
  have hold := h.count
  have hbound := h.bound
  exact ⟨by omega, by omega⟩

/-- Inserting under the bound keeps the counter right. -/
theorem CapacityOk.bounded (h : CapacityOk maxEntries s)
    (hb : Bounded maxEntries s keyHash policy cleanupAt now s' allowed) :
    CapacityOk maxEntries s' := by
  cases hb with
  | updated hu =>
      refine ⟨?_, hu.capacity ▸ h.bound⟩
      rw [hu.capacity, hu.rows, List.length_map]
      exact h.count
  | rejected hnew he hfull => exact h.evicted he
  | inserted hnew he hroom hrows hcount =>
      have hm := h.evicted he
      refine ⟨?_, by omega⟩
      rw [hcount, hrows, List.length_append, hm.count]
      rfl

/-- No call reports a request as allowed together with an error. -/
def Honest (phase : Phase κ) : Prop :=
  ∀ allowed err, phase = .returned allowed (some err) → allowed = false

omit [DecidableEq κ] in
/-- A call that goes on says what was decided. -/
theorem honest_of_follows {phase phase' : Phase κ} (h : Follows phase phase') : Honest phase' := by
  intro allowed err heq
  cases h with
  | failed =>
      cases heq
      rfl
  | _ => exact nomatch heq

omit [DecidableEq κ] in
theorem honest_update {calls : Nat → Phase κ} (h : ∀ i, Honest (calls i)) {call : Nat}
    {phase : Phase κ} (hphase : Honest phase) : ∀ i,
        Honest (Function.update calls call phase i) := by
  intro i
  rw [Function.update_apply]
  split
  · exact hphase
  · exact h i

/-- **The invariant**, in every interleaving. -/
theorem capacityOk_of_reachable (hmax : 0 < maxEntries)
    (h : Reachable (limiter sum256 maxEntries) st) :
    CapacityOk maxEntries st.store ∧ ∀ i, Honest (st.calls i) := by
  refine Reachable.invariant
    (I := fun st => CapacityOk maxEntries st.store ∧ ∀ i, Honest (st.calls i)) ?_ ?_ h
  · rintro st ⟨clock, rfl⟩
    exact ⟨⟨rfl, le_of_lt hmax⟩, fun i allowed err heq => nomatch heq⟩
  · rintro st label st' - ⟨hcap, hhonest⟩ hstep
    cases moved_of_step hstep with
    | quiet hcalls he hclock hlog =>
        refine ⟨hcap.evicted he, ?_⟩
        rcases hcalls with hcalls | ⟨call, phase, hfollows, hcalls⟩
        · rw [hcalls]
          exact hhonest
        · rw [hcalls]
          exact honest_update hhonest (honest_of_follows hfollows)
    | decided hpending hphase hcalls hb =>
        refine ⟨hcap.bounded hb, ?_⟩
        rw [hcalls]
        refine honest_update hhonest ?_
        rcases hphase with rfl | ⟨err, rfl⟩
        · exact fun _ _ heq => nomatch heq
        · intro allowed err' heq
          cases heq
          rfl

/-- A full table without expired rows takes no new key and keeps its buckets. -/
theorem full_rejects (hcap : CapacityOk maxEntries s) (hfull : maxEntries ≤ s.buckets.rows.length)
    (hfresh : ∀ b ∈ s.buckets.rows, cleanupAt < b.expiresAt)
    (hnew : ∀ b ∈ s.buckets.rows, b.keyHash ≠ keyHash) (outcome : Outcome) :
    (outcome.effect s (insertBounded maxEntries s keyHash policy cleanupAt now)).1.buckets
      = s.buckets
      ∧ outcome.reply (insertBounded maxEntries s keyHash policy cleanupAt now) ≠ .ok true := by
  rcases effect_cases outcome s (insertBounded maxEntries s keyHash policy cleanupAt now) with
    ⟨m, allowed, hx, heffect, hreply⟩ | ⟨heffect, err, hreply⟩
  · have hbounded : m.buckets = s.buckets ∧ allowed = false := by
      cases insertBounded_ok hx with
      | updated hu =>
          obtain ⟨b, hb, hkey, -⟩ := hu.bucket
          exact absurd hkey (hnew b hb)
      | rejected _ he _ => exact ⟨he.fresh hfresh, rfl⟩
      | inserted _ he hroom _ _ =>
          -- nothing was evicted, so there is no room
          have hcount := (hcap.evicted he).count
          rw [he.fresh hfresh] at hcount
          omega
    rw [heffect]
    refine ⟨hbounded.1, ?_⟩
    rcases hreply with hreply | ⟨err, hreply⟩
    · rw [hreply, hbounded.2]
      exact nofun
    · rw [hreply]
      exact nofun
  · rw [heffect, hreply]
    exact ⟨rfl, nofun⟩

/-- **Capacity.**  In every reachable state the counter is the number of buckets and
    within the limit; what any cleanup would subtract is no more than the counter; no
    call returns an error together with an allowed request; and a new key at capacity,
    with nothing to evict, is not allowed and leaves every bucket as it is. -/
theorem rate_limit_capacity (hmax : 0 < maxEntries)
    (h : Reachable (limiter sum256 maxEntries) st) :
    (st.store.capacity.entryCount = st.store.buckets.rows.length
      ∧ (st.store.capacity.entryCount : Int) ≤ maxEntries)
    ∧ (∀ now, 0 ≤ (st.store.capacity.entryCount : Int) - (expiredBatch st.store now).length)
    ∧ (∀ call allowed err, st.calls call = .returned allowed (some err) → allowed = false)
    ∧ ∀ keyHash policy cleanupAt now (outcome : Outcome),
      (st.store.buckets.rows.length : Int) = maxEntries →
      (∀ b ∈ st.store.buckets.rows, cleanupAt < b.expiresAt) →
      (∀ b ∈ st.store.buckets.rows, b.keyHash ≠ keyHash) →
        (outcome.effect st.store
            (insertBounded maxEntries st.store keyHash policy cleanupAt now)).1.buckets
          = st.store.buckets
        ∧ outcome.reply (insertBounded maxEntries st.store keyHash policy cleanupAt now)
          ≠ .ok true := by
  obtain ⟨hcap, hhonest⟩ := capacityOk_of_reachable hmax h
  refine ⟨⟨hcap.count, hcap.bound⟩, fun now => ?_, hhonest, ?_⟩
  · have hbatch := expiredBatch_length st.store now
    have hcount := hcap.count
    omega
  · intro keyHash policy cleanupAt now outcome hfull hfresh hnew
    exact full_rejects hcap (le_of_eq hfull.symm) hfresh hnew outcome

/-- One token, and one more each second. -/
def onePerSecond : Policy := { rps := 1, burst := 1, ttl := 60000000000 }

/-- The store after the first request of one key, in a table for one key. -/
def afterFirst : State String where
  store := {
    buckets := ⟨[firstBucket "ip:a" onePerSecond 5], List.pairwise_singleton _ _⟩
    capacity := { entryCount := 1 } }
  clock := 5
  calls := Function.update (Function.update (Function.update (fun _ => .idle) 0
    (.updating "ip:a" onePerSecond)) 0 (.inserting "ip:a" onePerSecond)) 0 (.cleaning true)
  log := [⟨0, "ip:a", onePerSecond, 5, true⟩]

theorem reachable_afterFirst : Reachable (limiter id 1) afterFirst := by
  have hstart : Reachable (limiter (id : String → String) 1) { clock := 5 } := .start ⟨5, rfl⟩
  refine .step (.step (.step hstart (a := .start 0 "ip:a" onePerSecond) rfl)
    (a := .update 0 5 .committed) rfl) (a := .insert 0 5 5 .committed) rfl

/-- At capacity the second key is not allowed. -/
theorem rate_limit_capacity_full :
    Outcome.committed.reply (insertBounded 1 afterFirst.store "ip:b" onePerSecond 6 6) ≠ .ok true :=
  ((rate_limit_capacity (by decide) reachable_afterFirst).2.2.2 "ip:b" onePerSecond 6 6 .committed
    rfl (by decide) (by decide)).2

end RateLimitCapacity
