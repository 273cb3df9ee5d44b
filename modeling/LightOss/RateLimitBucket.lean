import LightOss.RateLimitCapacity
import LightOss.TokenBucket
import Mathlib.Data.List.Chain

/-! # Rate limit buckets — the shared table decides like one token bucket

    The decisions on one key, in the order they took effect in the database, are
    those of a token bucket that starts full, whatever instances make them and
    whatever happens to other keys in between.

    One update of a row is one request to the reference bucket (`assignBucket_eq`), and
    the row of a first request is a first request to a full one (`firstBucket_eq`).
    `Tracks` carries this along a run: the verdicts so far are the reference's, and the
    row of the key, while it is there, has its level.  A step for another key may evict
    the row only when it is expired, and an expired bucket is full again
    (`Tracks.frame`, `Tracks.step`). -/

namespace RateLimitBucket

open KeyedTable Fallible LedgerRows RateLimitStore RateLimitCapacity StepSystem TokenBucket

variable {κ : Type} [DecidableEq κ] {sum256 : String → κ} {maxEntries : Int}
variable {st st' : State κ} {label : Label} {now : DateTime}

/-! ## Runs below capacity -/

/-- No insert of a new key finds the table at capacity. -/
def HasRoom (maxEntries : Int) (s : State κ) (label : Label) : Prop :=
  ∀ call cleanupAt now outcome keyHash policy, label = .insert call cleanupAt now outcome →
    s.calls call = .inserting keyHash policy →
      (∃ b ∈ s.store.buckets.rows, b.keyHash = keyHash)
        ∨ (s.store.capacity.entryCount : Int) < maxEntries

/-- The runs in which no call is denied for want of room. -/
def belowCapacity (sum256 : String → κ) (maxEntries : Int) : System (State κ) Label where
  start := (limiter sum256 maxEntries).start
  step s label s' := (limiter sum256 maxEntries).step s label s' ∧ HasRoom maxEntries s label

/-! ## A row as the level of a bucket -/

/-- The reference bucket: it refills `rps` tokens in a million microseconds. -/
def referencePolicy (rps : ℚ) (burst : Int) : TokenBucket.Policy ℚ where
  capacity := burst
  rate := rps / 1000000

/-- What a bucket row says, as a level. -/
def level (b : Bucket κ) : Level ℚ := ⟨b.tokens, b.lastRefillAt⟩

section Rows

variable (policy : RateLimitStore.Policy) {b : Bucket κ}

omit [DecidableEq κ] in
/-- The expression of the statement is the refill of the bucket. -/
theorem refilled_eq (h : b.lastRefillAt ≤ now) :
    refilled policy now b
      = available (referencePolicy policy.rps policy.burst) (level b) now := by
  rw [refilled, available, max_eq_left (sub_nonneg.mpr h)]
  have hflow : ((now - b.lastRefillAt : Int) : ℚ) * policy.rps / 1000000
      = policy.rps / 1000000 * ((now : ℚ) - b.lastRefillAt) := by
    push_cast
    ring
  rw [hflow]
  rfl

omit [DecidableEq κ] in
/-- The update of a row that has not expired is a request to the bucket. -/
theorem assignBucket_eq (h : b.lastRefillAt ≤ now) (hlive : now < b.expiresAt) :
    (assignBucket policy now b).lastAllowed
        = admits (referencePolicy policy.rps policy.burst) (level b) now
      ∧ level (assignBucket policy now b)
        = take (referencePolicy policy.rps policy.burst) (level b) now := by
  have hnot : ¬ b.expiresAt ≤ now := not_le.mpr hlive
  rw [take, admits, ← refilled_eq policy h]
  refine ⟨?_, ?_⟩
  · rw [assignBucket]
    simp [hnot]
  · rw [level, assignBucket]
    simp [hnot]

omit [DecidableEq κ] in
/-- The row of a first request is the first request to a full bucket. -/
theorem firstBucket_eq (keyHash : κ) (now : DateTime) (hburst : 0 < policy.burst)
    (hrps : 0 < policy.rps) :
    admits (referencePolicy policy.rps policy.burst)
        (full (referencePolicy policy.rps policy.burst) now) now = true
      ∧ level (firstBucket keyHash policy now)
        = take (referencePolicy policy.rps policy.burst)
          (full (referencePolicy policy.rps policy.burst) now) now := by
  have hrate : 0 ≤ (referencePolicy policy.rps policy.burst).rate := by
    rw [referencePolicy]
    positivity
  have hfull := available_full (t := (now : ℚ)) hrate (le_refl (now : ℚ))
  have hone : (1 : ℚ) ≤ policy.burst := by exact_mod_cast hburst
  have hadmits : admits (referencePolicy policy.rps policy.burst)
      (full (referencePolicy policy.rps policy.burst) now) now = true := by
    rw [admits, hfull]
    exact decide_eq_true hone
  refine ⟨hadmits, ?_⟩
  rw [take, hadmits, hfull, if_pos rfl, level, firstBucket]
  simp [referencePolicy]

end Rows

/-! ## What the log says of the calls -/

/-- A call is in the log when it has decided, with the verdict it reports. -/
def CallLogged (log : List (Decision κ)) (call : Nat) : Phase κ → Prop
  | .idle => ∀ d ∈ log, d.call ≠ call
  | .updating _ policy => Policy.Valid policy ∧ ∀ d ∈ log, d.call ≠ call
  | .inserting _ policy => Policy.Valid policy ∧ ∀ d ∈ log, d.call ≠ call
  | .cleaning allowed => ∃ d ∈ log, d.call = call ∧ d.allowed = allowed
  | .returned allowed none => ∃ d ∈ log, d.call = call ∧ d.allowed = allowed
  | .returned _ (some _) => True

/-- The log is in order of time, of policies that were checked, and a call is in it at
    most once. -/
structure Logged (s : State κ) : Prop where
  sorted : s.log.Pairwise fun d e => d.decidedAt ≤ e.decidedAt
  past : ∀ d ∈ s.log, d.decidedAt ≤ s.clock
  refills : ∀ b ∈ s.store.buckets.rows, b.lastRefillAt ≤ s.clock
  valid : ∀ d ∈ s.log, Policy.Valid d.policy
  distinct : (s.log.map (·.call)).Nodup
  calls : ∀ call, CallLogged s.log call (s.calls call)

omit [DecidableEq κ] in
/-- A call that goes on has the decision it had. -/
theorem callLogged_follows {log : List (Decision κ)} {call : Nat} {phase phase' : Phase κ}
    (h : CallLogged log call phase) (hfollows : Follows phase phase') :
    CallLogged log call phase' := by
  cases hfollows with
  | begun hvalid => exact ⟨hvalid, h⟩
  | missing => exact h
  | finished => exact h
  | failed => trivial

omit [DecidableEq κ] in
/-- Another call's decision does not concern this one. -/
theorem callLogged_append {log : List (Decision κ)} {call : Nat} {phase : Phase κ}
    (h : CallLogged log call phase) {d : Decision κ} (hd : d.call ≠ call) :
    CallLogged (log ++ [d]) call phase := by
  have hfresh : (∀ e ∈ log, e.call ≠ call) → ∀ e ∈ log ++ [d], e.call ≠ call := by
    intro hlog e he
    rcases List.mem_append.mp he with he | he
    · exact hlog e he
    · rw [List.mem_singleton.mp he]
      exact hd
  cases phase with
  | idle => exact hfresh h
  | updating keyHash policy => exact ⟨h.1, hfresh h.2⟩
  | inserting keyHash policy => exact ⟨h.1, hfresh h.2⟩
  | cleaning allowed =>
      obtain ⟨e, he, heq⟩ := h
      exact ⟨e, List.mem_append_left _ he, heq⟩
  | returned allowed err =>
      cases err with
      | none =>
          obtain ⟨e, he, heq⟩ := h
          exact ⟨e, List.mem_append_left _ he, heq⟩
      | some err => trivial

omit [DecidableEq κ] in
/-- A call that has not decided yet is not in the log. -/
theorem callLogged_pending {log : List (Decision κ)} {call : Nat} {phase : Phase κ} {keyHash : κ}
    {policy : RateLimitStore.Policy} (h : CallLogged log call phase)
    (hpending : Pending phase keyHash policy) :
    Policy.Valid policy ∧ ∀ d ∈ log, d.call ≠ call := by
  rcases hpending with rfl | rfl
  · exact h
  · exact h

/-- No bucket is refilled ahead of the clock. -/
theorem refills_of_bounded {s s' : Store κ} {keyHash : κ} {policy : RateLimitStore.Policy}
    {cleanupAt : DateTime} {allowed : Bool}
    (h : Bounded maxEntries s keyHash policy cleanupAt now s' allowed)
    (hold : ∀ b ∈ s.buckets.rows, b.lastRefillAt ≤ now) :
    ∀ b ∈ s'.buckets.rows, b.lastRefillAt ≤ now := by
  intro b hb
  cases h with
  | updated hu =>
      obtain ⟨a, ha, rfl⟩ := List.mem_map.mp (hu.rows ▸ hb)
      split
      · exact le_refl now
      · exact hold a ha
  | rejected _ he _ => exact hold b (he.sub b hb)
  | inserted _ he _ hrows _ =>
      rcases List.mem_append.mp (hrows ▸ hb) with hb | hb
      · exact hold b (he.sub b hb)
      · rw [List.mem_singleton.mp hb]
        exact le_refl now

/-- The log grows by what takes effect. -/
theorem Logged.step (h : Logged st) (hmoved : Moved maxEntries st label st') : Logged st' := by
  cases hmoved with
  | quiet hcalls he hclock hlog =>
      refine ⟨hlog ▸ h.sorted, fun d hd => (h.past d (hlog ▸ hd)).trans hclock,
        fun b hb => (h.refills b (he.sub b hb)).trans hclock, hlog ▸ h.valid, hlog ▸ h.distinct,
        fun i => ?_⟩
      rw [hlog]
      rcases hcalls with hcalls | ⟨call, phase, hfollows, hcalls⟩
      · rw [hcalls]
        exact h.calls i
      · rw [hcalls, Function.update_apply]
        split
        · next heq => exact callLogged_follows (h.calls i) (heq ▸ hfollows)
        · exact h.calls i
  -- one decision more, by a call that had none
  | @decided call keyHash policy cleanupAt allowed phase hpending hphase hcalls hb _ h1 h2 hlog =>
      have hclock := h1.trans h2
      obtain ⟨hvalid, hfresh⟩ := callLogged_pending (h.calls call) hpending
      have hmem : ∀ d ∈ st'.log, d ∈ st.log ∨ d = ⟨call, keyHash, policy, st'.clock, allowed⟩ := by
        intro d hd
        rcases List.mem_append.mp (hlog ▸ hd) with hd | hd
        · exact Or.inl hd
        · exact Or.inr (List.mem_singleton.mp hd)
      refine ⟨?_, fun d hd => ?_, ?_, fun d hd => ?_, ?_, fun i => ?_⟩
      · rw [hlog]
        refine List.pairwise_append.mpr ⟨h.sorted, List.pairwise_singleton _ _, fun d hd e he => ?_⟩
        rw [List.mem_singleton.mp he]
        exact (h.past d hd).trans hclock
      · rcases hmem d hd with hd | rfl
        · exact (h.past d hd).trans hclock
        · exact le_refl _
      · exact refills_of_bounded hb fun b hb => (h.refills b hb).trans hclock
      · rcases hmem d hd with hd | rfl
        · exact h.valid d hd
        · exact hvalid
      · rw [hlog, List.map_append]
        refine List.nodup_append.mpr ⟨h.distinct, List.nodup_singleton _, fun a ha b hb => ?_⟩
        obtain ⟨d, hd, rfl⟩ := List.mem_map.mp ha
        rw [List.mem_singleton.mp hb]
        exact hfresh d hd
      · rw [hcalls, hlog, Function.update_apply]
        split
        · next heq =>
            -- the call that decided reports this verdict or an error
            rcases hphase with rfl | ⟨err, rfl⟩
            · exact ⟨_, List.mem_append_right _ List.mem_cons_self, heq.symm, rfl⟩
            · trivial
        · next hne => exact callLogged_append (h.calls i) fun heq => hne heq.symm

/-- **The run lemma**: the log tells what happened. -/
theorem logged_of_reachable (h : Reachable (belowCapacity sum256 maxEntries) st) : Logged st := by
  refine Reachable.invariant (I := Logged) ?_ ?_ h
  · rintro st ⟨clock, rfl⟩
    exact ⟨.nil, nofun, nofun, nofun, .nil, fun _ => nofun⟩
  · rintro st label st' - hlogged ⟨hstep, -⟩
    exact hlogged.step (moved_of_step hstep)

/-! ## One key -/

/-- The decisions on a key, in order. -/
def decisionsOf (keyHash : κ) (log : List (Decision κ)) : List (Decision κ) :=
  log.filter fun d => decide (d.keyHash = keyHash)

/-- When the decisions were made. -/
def decisionTimes (ds : List (Decision κ)) : List ℚ := ds.map fun d => (d.decidedAt : ℚ)

/-- The verdicts of a bucket that is full at the first request. -/
def referenceDecisions (p : TokenBucket.Policy ℚ) : List ℚ → List Bool
  | [] => []
  | t :: rest => decisions p (full p t) (t :: rest)

/-- The level of the reference bucket after the decisions. -/
def referenceLevel (p : TokenBucket.Policy ℚ) : List ℚ → Level ℚ
  | [] => full p 0
  | t :: rest => after p (full p t) (t :: rest)

/-- The next decision of the reference bucket. -/
theorem referenceDecisions_append {p : TokenBucket.Policy ℚ} {times : List ℚ} (hne : times ≠ [])
    (t : ℚ) : referenceDecisions p (times ++ [t])
      = referenceDecisions p times ++ [admits p (referenceLevel p times) t] := by
  cases times with
  | nil => exact absurd rfl hne
  | cons u rest => exact decisions_append (u :: rest)

theorem referenceLevel_append {p : TokenBucket.Policy ℚ} {times : List ℚ}
    (hne : times ≠ []) (t : ℚ) :
    referenceLevel p (times ++ [t]) = take p (referenceLevel p times) t := by
  cases times with
  | nil => exact absurd rfl hne
  | cons u rest => exact after_append _ (u :: rest)

/-- One rate and burst, and each decision comes before the one before it has expired. -/
structure Steady (rps : ℚ) (burst : Int) (ds : List (Decision κ)) : Prop where
  same : ∀ d ∈ ds, d.policy.rps = rps ∧ d.policy.burst = burst
  gaps : ds.IsChain fun d e => e.decidedAt - d.decidedAt < microseconds d.policy.ttl

/-- The table holds what the reference bucket says, or nothing that counts any more. -/
structure Tracks (keyHash : κ) (rps : ℚ) (burst : Int) (s : State κ) : Prop where
  verdicts : (decisionsOf keyHash s.log).map (·.allowed)
    = referenceDecisions (referencePolicy rps burst) (decisionTimes (decisionsOf keyHash s.log))
  fresh : decisionsOf keyHash s.log = [] → ∀ b ∈ s.store.buckets.rows, b.keyHash ≠ keyHash
  row : ∀ d ∈ (decisionsOf keyHash s.log).getLast?, ∀ b ∈ s.store.buckets.rows,
    b.keyHash = keyHash →
      level b = referenceLevel (referencePolicy rps burst)
        (decisionTimes (decisionsOf keyHash s.log))
      ∧ b.expiresAt = d.decidedAt + microseconds d.policy.ttl
  live : ∀ d ∈ (decisionsOf keyHash s.log).getLast?,
    (∃ b ∈ s.store.buckets.rows, b.keyHash = keyHash)
      ∨ d.decidedAt + microseconds d.policy.ttl ≤ s.clock

section OneKey

variable {keyHash : κ} {rps : ℚ} {burst : Int}

omit [DecidableEq κ] in
/-- A policy that never changed had not changed before. -/
theorem Steady.left {ds : List (Decision κ)} {d : Decision κ} (h : Steady rps burst (ds ++ [d])) :
    Steady rps burst ds :=
  ⟨fun e he => h.same e (List.mem_append_left _ he), h.gaps.left_of_append⟩

omit [DecidableEq κ] in
/-- The decision before the last one has not expired. -/
theorem Steady.gap {ds : List (Decision κ)} {d e : Decision κ} (h : Steady rps burst (ds ++ [e]))
    (hd : d ∈ ds.getLast?) : e.decidedAt < d.decidedAt + microseconds d.policy.ttl := by
  have hgap := (List.isChain_append.mp h.gaps).2.2 d hd e rfl
  exact sub_lt_iff_lt_add'.mp hgap

/-- What a step that is not about the key does to its row. -/
structure KeyFrame (keyHash : κ) (s s' : Store κ) (now : DateTime) : Prop where
  kept : ∀ b ∈ s'.buckets.rows, b.keyHash = keyHash → b ∈ s.buckets.rows
  gone : ∀ b ∈ s.buckets.rows, b.keyHash = keyHash → b ∉ s'.buckets.rows → b.expiresAt ≤ now

/-- Evicting leaves a live bucket of the key. -/
theorem keyFrame_of_evicted {s s' : Store κ} (h : Evicted s s' now) : KeyFrame keyHash s s' now :=
  ⟨fun b hb _ => h.sub b hb, fun b hb _ hout => h.expired b hb hout⟩

theorem keyFrame_of_bounded {s s' : Store κ} {other : κ} {policy : RateLimitStore.Policy}
    {cleanupAt : DateTime} {allowed : Bool} (hne : other ≠ keyHash) (hclock : cleanupAt ≤ now)
    (h : Bounded maxEntries s other policy cleanupAt now s' allowed) :
    KeyFrame keyHash s s' now := by
  cases h with
  | updated hu =>
      have hkeep : ∀ b : Bucket κ, b.keyHash = keyHash →
          (if keyIs other b then assignBucket policy now b else b) = b := by
        intro b hb
        refine if_neg fun hkey => hne ?_
        rw [← keyIs_iff.mp hkey, hb]
      refine ⟨fun b hb hkey => ?_, fun b hb hkey hout => absurd ?_ hout⟩
      · obtain ⟨a, ha, rfl⟩ := List.mem_map.mp (hu.rows ▸ hb)
        have hakey : a.keyHash = keyHash := by
          split at hkey
          · exact hkey
          · exact hkey
        rw [hkeep a hakey]
        exact ha
      · rw [hu.rows]
        exact List.mem_map.mpr ⟨b, hb, hkeep b hkey⟩
  | rejected _ he _ =>
      exact ⟨fun b hb _ => he.sub b hb, fun b hb _ hout => (he.expired b hb hout).trans hclock⟩
  | inserted _ he _ hrows _ =>
      refine ⟨fun b hb hkey => ?_,
        fun b hb _ hout => (he.expired b hb fun hin => hout ?_).trans hclock⟩
      · rcases List.mem_append.mp (hrows ▸ hb) with hb | hb
        · exact he.sub b hb
        · rw [List.mem_singleton.mp hb] at hkey
          exact absurd hkey hne
      · rw [hrows]
        exact List.mem_append_left _ hin

/-- A step that is not about the key. -/
theorem Tracks.frame (h : Tracks keyHash rps burst st)
    (hds : decisionsOf keyHash st'.log = decisionsOf keyHash st.log)
    (hframe : KeyFrame keyHash st.store st'.store st'.clock) (hclock : st.clock ≤ st'.clock) :
    Tracks keyHash rps burst st' := by
  refine ⟨hds ▸ h.verdicts, fun hnil b hb hkey => ?_, fun d hd b hb hkey => ?_, fun d hd => ?_⟩
  · exact h.fresh (hds ▸ hnil) b (hframe.kept b hb hkey) hkey
  · rw [hds] at hd ⊢
    exact h.row d hd b (hframe.kept b hb hkey) hkey
  · rw [hds] at hd
    rcases h.live d hd with ⟨b, hb, hkey⟩ | hexpired
    · by_cases hin : b ∈ st'.store.buckets.rows
      · exact Or.inl ⟨b, hin, hkey⟩
      · have hgone := hframe.gone b hb hkey hin
        rw [(h.row d hd b hb hkey).2] at hgone
        exact Or.inr hgone
    · exact Or.inr (hexpired.trans hclock)

omit [DecidableEq κ] in
theorem decisionTimes_append (ds : List (Decision κ)) (d : Decision κ) :
    decisionTimes (ds ++ [d]) = decisionTimes ds ++ [(d.decidedAt : ℚ)] := by
  rw [decisionTimes, List.map_append]
  rfl

/-- The bucket after a decision on the key, when its row is the reference's next level. -/
theorem tracks_of_decision {d : Decision κ}
    (hds : decisionsOf keyHash st'.log = decisionsOf keyHash st.log ++ [d])
    (hverdicts : ((decisionsOf keyHash st.log ++ [d]).map (·.allowed))
      = referenceDecisions (referencePolicy rps burst)
        (decisionTimes (decisionsOf keyHash st.log ++ [d])))
    (hrow : ∀ b ∈ st'.store.buckets.rows, b.keyHash = keyHash →
      level b = referenceLevel (referencePolicy rps burst)
        (decisionTimes (decisionsOf keyHash st.log ++ [d]))
      ∧ b.expiresAt = d.decidedAt + microseconds d.policy.ttl)
    (hthere : ∃ b ∈ st'.store.buckets.rows, b.keyHash = keyHash) :
    Tracks keyHash rps burst st' := by
  have hlast : ∀ e ∈ (decisionsOf keyHash st'.log).getLast?, e = d := by
    intro e he
    rw [hds, List.getLast?_append] at he
    simpa using he.symm
  refine ⟨hds ▸ hverdicts, fun hnil => ?_, fun e he b hb hkey => ?_, fun e he => Or.inl hthere⟩
  · rw [hds] at hnil
    exact absurd hnil (List.append_ne_nil_of_right_ne_nil _ (List.cons_ne_nil _ _))
  · rw [hlast e he, hds]
    exact hrow b hb hkey

/-- A request that finds the row. -/
theorem Tracks.updated {call : Nat} {policy : RateLimitStore.Policy} {allowed : Bool}
    (h : Tracks keyHash rps burst st) (hlogged : Logged st) (hclock : st.clock ≤ st'.clock)
    (hds : decisionsOf keyHash st'.log
      = decisionsOf keyHash st.log ++ [⟨call, keyHash, policy, st'.clock, allowed⟩])
    (hsteady : Steady rps burst
      (decisionsOf keyHash st.log ++ [⟨call, keyHash, policy, st'.clock, allowed⟩]))
    (hu : Updated st.store st'.store keyHash policy st'.clock allowed) :
    Tracks keyHash rps burst st' := by
  obtain ⟨b, hb, hkey, hallowed⟩ := hu.bucket
  have hne : decisionsOf keyHash st.log ≠ [] := fun hnil => h.fresh hnil b hb hkey
  have htimes : decisionTimes (decisionsOf keyHash st.log) ≠ [] := fun hnil =>
    hne (List.map_eq_nil_iff.mp hnil)
  obtain ⟨d, hd⟩ := Option.isSome_iff_exists.mp (List.getLast?_isSome.mpr hne)
  obtain ⟨hlevel, hexpires⟩ := h.row d hd b hb hkey
  -- the requests come close enough together, so the row has not expired
  have hlive : st'.clock < b.expiresAt := by
    rw [hexpires]
    exact hsteady.gap hd
  have hsame := hsteady.same _ (List.mem_append_right _ List.mem_cons_self)
  -- the update of the row is the next request to the reference bucket
  have hrequest := assignBucket_eq policy ((hlogged.refills b hb).trans hclock) hlive
  rw [hsame.1, hsame.2, hlevel] at hrequest
  refine tracks_of_decision hds ?_ (fun b' hb' hkey' => ?_) ?_
  · rw [List.map_append, h.verdicts, decisionTimes_append, referenceDecisions_append htimes,
      ← hrequest.1, ← hallowed]
    rfl
  · obtain ⟨a, ha, rfl⟩ := List.mem_map.mp (hu.rows ▸ hb')
    have hakey : a.keyHash = keyHash := by
      split at hkey'
      · exact hkey'
      · exact hkey'
    rw [if_pos (keyIs_iff.mpr hakey), eq_of_keyHash ha hb (hakey.trans hkey.symm),
      decisionTimes_append, referenceLevel_append htimes]
    exact ⟨hrequest.2, rfl⟩
  · refine ⟨assignBucket policy st'.clock b, ?_, hkey⟩
    rw [hu.rows]
    exact List.mem_map.mpr ⟨b, hb, if_pos (keyIs_iff.mpr hkey)⟩

/-- The first request. -/
theorem Tracks.inserted {call : Nat} {policy : RateLimitStore.Policy} {m : Store κ}
    (h : Tracks keyHash rps burst st) (hclock : st.clock ≤ st'.clock) (hvalid : Policy.Valid policy)
    (hds : decisionsOf keyHash st'.log
      = decisionsOf keyHash st.log ++ [⟨call, keyHash, policy, st'.clock, true⟩])
    (hsteady : Steady rps burst
      (decisionsOf keyHash st.log ++ [⟨call, keyHash, policy, st'.clock, true⟩]))
    (hnew : ∀ b ∈ st.store.buckets.rows, b.keyHash ≠ keyHash)
    (hsub : ∀ b ∈ m.buckets.rows, b ∈ st.store.buckets.rows)
    (hrows : st'.store.buckets.rows = m.buckets.rows ++ [firstBucket keyHash policy st'.clock]) :
    Tracks keyHash rps burst st' := by
  have hnil : decisionsOf keyHash st.log = [] := by
    by_contra hne
    -- an earlier decision left a row that has not expired
    obtain ⟨d, hd⟩ := Option.isSome_iff_exists.mp (List.getLast?_isSome.mpr hne)
    rcases h.live d hd with ⟨b, hb, hkey⟩ | hexpired
    · exact hnew b hb hkey
    · exact absurd (hexpired.trans hclock) (not_le.mpr (hsteady.gap hd))
  have hsame := hsteady.same _ (List.mem_append_right _ List.mem_cons_self)
  have hfirst := firstBucket_eq policy keyHash st'.clock hvalid.burst hvalid.rps
  rw [hsame.1, hsame.2] at hfirst
  refine tracks_of_decision hds ?_ (fun b hb hkey => ?_) ?_
  · rw [hnil]
    exact congrArg (· :: []) hfirst.1.symm
  · rcases List.mem_append.mp (hrows ▸ hb) with hb | hb
    · exact absurd hkey (hnew b (hsub b hb))
    · rw [List.mem_singleton.mp hb, hnil]
      exact ⟨hfirst.2, rfl⟩
  · exact ⟨_, hrows ▸ List.mem_append_right _ List.mem_cons_self, rfl⟩

/-- One more decision in the log, for this key or another. -/
theorem decisionsOf_append (log : List (Decision κ)) {d : Decision κ} :
    decisionsOf keyHash (log ++ [d])
      = decisionsOf keyHash log ++ if d.keyHash = keyHash then [d] else [] := by
  rw [decisionsOf, decisionsOf, List.filter_append]
  by_cases h : d.keyHash = keyHash
  · rw [if_pos h]
    simp [h]
  · rw [if_neg h]
    simp [h]

/-- With room for new keys none is rejected. -/
theorem not_rejected {call : Nat} {policy : RateLimitStore.Policy} {cleanupAt : DateTime}
    {allowed : Bool} (hroom : HasRoom maxEntries st label)
    (hkind : Updated st.store st'.store keyHash policy now allowed
      ∨ (st.calls call = .inserting keyHash policy
        ∧ ∃ outcome, label = .insert call cleanupAt now outcome))
    (hnew : ∀ b ∈ st.store.buckets.rows, b.keyHash ≠ keyHash)
    (hfull : maxEntries ≤ st.store.capacity.entryCount) : False := by
  rcases hkind with hu | ⟨hinserting, outcome, hlabel⟩
  · obtain ⟨b, hb, hkey, -⟩ := hu.bucket
    exact hnew b hb hkey
  · rcases hroom call cleanupAt now outcome keyHash policy hlabel hinserting with
      ⟨b, hb, hkey⟩ | hless
    · exact hnew b hb hkey
    · exact absurd hfull (not_le.mpr hless)

/-- **One step**: the row of the key has the level of the reference bucket, or is gone when
    that one is full. -/
theorem Tracks.step (hlogged : Logged st)
    (h : Steady rps burst (decisionsOf keyHash st.log) → Tracks keyHash rps burst st)
    (hmoved : Moved maxEntries st label st') (hroom : HasRoom maxEntries st label)
    (hsteady : Steady rps burst (decisionsOf keyHash st'.log)) : Tracks keyHash rps burst st' := by
  cases hmoved with
  | quiet hcalls he hclock hlog =>
      exact (h (hlog ▸ hsteady)).frame (by rw [hlog]) (keyFrame_of_evicted he) hclock
  | @decided call other policy cleanupAt allowed phase hpending hphase hcalls hb hkind h1 h2 hlog =>
      rw [hlog, decisionsOf_append] at hsteady
      by_cases hkey : other = keyHash
      · subst hkey
        rw [if_pos rfl] at hsteady
        have hds : decisionsOf other st'.log
            = decisionsOf other st.log ++ [⟨call, other, policy, st'.clock, allowed⟩] := by
          rw [hlog, decisionsOf_append, if_pos rfl]
        have hold := h hsteady.left
        have hclock := h1.trans h2
        cases hb with
        | updated hu => exact hold.updated hlogged hclock hds hsteady hu
        | inserted hnew he _ hrows _ =>
            have hvalid := (callLogged_pending (hlogged.calls call) hpending).1
            exact hold.inserted hclock hvalid hds hsteady hnew he.sub hrows
        | rejected hnew _ hfull => exact (not_rejected hroom hkind hnew hfull).elim
      · rw [if_neg hkey, List.append_nil] at hsteady
        refine (h hsteady).frame ?_ (keyFrame_of_bounded hkey h2 hb) (h1.trans h2)
        rw [hlog, decisionsOf_append, if_neg hkey, List.append_nil]

/-- **The run lemma**: the table follows the log in every reachable state. -/
theorem tracks_of_reachable (h : Reachable (belowCapacity sum256 maxEntries) st)
    (hsteady : Steady rps burst (decisionsOf keyHash st.log)) : Tracks keyHash rps burst st := by
  revert hsteady
  refine Reachable.invariant
    (I := fun st => Steady rps burst (decisionsOf keyHash st.log) → Tracks keyHash rps burst st)
    ?_ ?_ h
  · rintro st ⟨clock, rfl⟩ -
    exact ⟨rfl, fun _ => nofun, nofun, nofun⟩
  · rintro st label st' hreach hold ⟨hstep, hroom⟩ hsteady
    exact Tracks.step (logged_of_reachable hreach) hold (moved_of_step hstep) hroom hsteady

/-! ## The limiter is a token bucket -/

/-- The allowed decisions between two times. -/
def allowedIn (a b : DateTime) (ds : List (Decision κ)) : Nat :=
  (ds.filter fun d => d.allowed && decide (a ≤ d.decidedAt ∧ d.decidedAt ≤ b)).length

omit [DecidableEq κ] in
/-- What passed in a window, counted in the log and by the reference bucket. -/
theorem allowedIn_eq {p : TokenBucket.Policy ℚ} {s : Level ℚ} (a b : DateTime)
    (ds : List (Decision κ)) (h : ds.map (·.allowed) = decisions p s (decisionTimes ds)) :
    allowedIn a b ds = inWindow p a b s (decisionTimes ds) := by
  rw [inWindow, decisionTimes,
    ← admitted_of_decisions (fun d => (d.decidedAt : ℚ)) (·.allowed) ds h,
    List.filter_map, List.length_map, List.filter_filter, allowedIn]
  congr 2
  funext d
  rw [Bool.and_comm]
  congr 1
  simp

/-- A denied request takes nothing: whatever comes later finds the same tokens. -/
theorem denied_takes_nothing (hlogged : Logged st) (hmoved : Moved maxEntries st label st')
    (hroom : HasRoom maxEntries st label) {d : Decision κ} (hlog : st'.log = st.log ++ [d])
    (hdenied : d.allowed = false) :
    ∃ b ∈ st.store.buckets.rows, ∃ b' ∈ st'.store.buckets.rows,
      b.keyHash = d.keyHash ∧ b'.keyHash = d.keyHash
      ∧ ∀ t, d.decidedAt ≤ t → refilled d.policy t b' = refilled d.policy t b := by
  cases hmoved with
  | quiet hcalls he hclock hsame =>
      rw [hsame] at hlog
      exact absurd (congrArg List.length hlog) (by simp)
  | @decided call other policy cleanupAt allowed phase hpending hphase hcalls hb hkind
      h1 h2 hlog' =>
      have hd : d = ⟨call, other, policy, st'.clock, allowed⟩ :=
        List.append_cancel_left (hlog.symm.trans hlog') |> List.cons.inj |>.1
      subst hd
      replace hdenied : allowed = false := hdenied
      cases hb with
      -- a first request is allowed, and no request is turned away for want of room
      | inserted => exact nomatch hdenied
      | rejected hnew _ hfull => exact (not_rejected hroom hkind hnew hfull).elim
      | updated hu =>
          obtain ⟨b, hb, hkey, hallowed⟩ := hu.bucket
          have hvalid := (callLogged_pending (hlogged.calls call) hpending).1
          have hrate : 0 ≤ (referencePolicy policy.rps policy.burst).rate :=
            div_nonneg hvalid.rps.le (by norm_num)
          have hpast := (hlogged.refills b hb).trans (h1.trans h2)
          -- an expired bucket starts full and would have allowed it
          have hlive : st'.clock < b.expiresAt := by
            by_contra hexpired
            rw [hdenied, assignBucket] at hallowed
            simp [not_lt.mp hexpired] at hallowed
          obtain ⟨hadmits, hlevel⟩ := assignBucket_eq policy hpast hlive
          refine ⟨b, hb, assignBucket policy st'.clock b, ?_, hkey, hkey, fun t ht => ?_⟩
          · rw [hu.rows]
            exact List.mem_map.mpr ⟨b, hb, if_pos (keyIs_iff.mpr hkey)⟩
          · have hafter : (assignBucket policy st'.clock b).lastRefillAt ≤ t := ht
            rw [refilled_eq policy hafter, refilled_eq policy (hpast.trans ht), hlevel]
            refine available_take_of_denied hrate ?_ (by exact_mod_cast ht)
            rw [← hadmits, ← hallowed, hdenied]

/-- The times of the decisions are in order, and none is before the first. -/
theorem decisionTimes_sorted (hlogged : Logged st) (keyHash : κ) :
    (decisionTimes (decisionsOf keyHash st.log)).Pairwise (· ≤ ·)
      ∧ ∀ t rest, decisionTimes (decisionsOf keyHash st.log) = t :: rest →
        ∀ u ∈ decisionTimes (decisionsOf keyHash st.log), t ≤ u := by
  have hsorted : (decisionTimes (decisionsOf keyHash st.log)).Pairwise (· ≤ ·) := by
    rw [decisionTimes, List.pairwise_map]
    exact (hlogged.sorted.filter _).imp fun hle => by exact_mod_cast hle
  refine ⟨hsorted, fun t rest htimes u hu => ?_⟩
  rw [htimes] at hsorted hu
  rcases List.mem_cons.mp hu with rfl | hu
  · exact le_refl _
  · exact (List.pairwise_cons.mp hsorted).1 u hu

/-- **The shared limiter is a token bucket.**  For a key whose decisions share a rate
    and a burst and come before the previous one expires: the verdicts are those of
    the reference bucket; no window passes more than the burst and what the rate
    refills; the row's tokens stay between zero and the burst; a denial takes
    nothing; and a call that is through reports its own decision. -/
theorem rate_limit_token_bucket (hrps : 0 < rps) (hburst : 0 < burst)
    (h : Reachable (belowCapacity sum256 maxEntries) st)
    (hsteady : Steady rps burst (decisionsOf keyHash st.log)) :
    (decisionsOf keyHash st.log).map (·.allowed)
        = referenceDecisions (referencePolicy rps burst)
          (decisionTimes (decisionsOf keyHash st.log))
    ∧ (∀ a b : DateTime, a ≤ b → (allowedIn a b (decisionsOf keyHash st.log) : ℚ)
        ≤ burst + rps * (((b - a : Int) : ℚ) / 1000000))
    ∧ (∀ b ∈ st.store.buckets.rows, b.keyHash = keyHash → 0 ≤ b.tokens ∧ b.tokens ≤ burst)
    ∧ (∀ label st' d, (belowCapacity sum256 maxEntries).step st label st' →
        st'.log = st.log ++ [d] → d.keyHash = keyHash → d.allowed = false →
          ∃ b ∈ st.store.buckets.rows, ∃ b' ∈ st'.store.buckets.rows,
            b.keyHash = keyHash ∧ b'.keyHash = keyHash
            ∧ ∀ t, d.decidedAt ≤ t → refilled d.policy t b' = refilled d.policy t b)
    ∧ (st.log.map (·.call)).Nodup
    ∧ ∀ call allowed, st.calls call = .returned allowed none →
        ∃ d ∈ st.log, d.call = call ∧ d.allowed = allowed := by
  have hlogged := logged_of_reachable h
  have htracks : Tracks keyHash rps burst st := tracks_of_reachable h hsteady
  obtain ⟨hsorted, hfirst⟩ := decisionTimes_sorted hlogged keyHash
  have hrate : 0 ≤ (referencePolicy rps burst).rate := div_nonneg hrps.le (by norm_num)
  have hcapacity : (0 : ℚ) ≤ (referencePolicy rps burst).capacity := by
    show (0 : ℚ) ≤ (burst : ℚ)
    exact_mod_cast hburst.le
  refine ⟨htracks.verdicts, fun a b hab => ?_, fun b hb hkey => ?_, ?_, hlogged.distinct, ?_⟩
  · have hwindow : (referencePolicy rps burst).capacity
        + (referencePolicy rps burst).rate * ((b : ℚ) - a)
          = burst + rps * (((b - a : Int) : ℚ) / 1000000) := by
      rw [referencePolicy]
      push_cast
      ring
    rw [← hwindow]
    -- the verdicts are the reference's, so its window bound applies
    have hverdicts := htracks.verdicts
    cases htimes : decisionTimes (decisionsOf keyHash st.log) with
    | nil =>
        have hnil := List.map_eq_nil_iff.mp htimes
        rw [hnil, allowedIn, List.filter_nil, List.length_nil, Nat.cast_zero]
        have hflow := mul_nonneg hrate (sub_nonneg.mpr (by exact_mod_cast hab : (a : ℚ) ≤ b))
        exact add_nonneg hcapacity hflow
    | cons t rest =>
        rw [htimes, referenceDecisions, ← htimes] at hverdicts
        rw [allowedIn_eq a b _ hverdicts]
        exact inWindow_le hrate hcapacity (by exact_mod_cast hab) _ hsorted (hfirst t rest htimes)
          hcapacity
  · have hne : decisionsOf keyHash st.log ≠ [] := fun hnil => htracks.fresh hnil b hb hkey
    obtain ⟨d, hd⟩ := Option.isSome_iff_exists.mp (List.getLast?_isSome.mpr hne)
    have htokens : b.tokens = (level b).tokens := rfl
    -- the row has the level of the reference, which stays within its range
    rw [htokens, (htracks.row d hd b hb hkey).1]
    cases htimes : decisionTimes (decisionsOf keyHash st.log) with
    | nil => exact absurd (List.map_eq_nil_iff.mp htimes) hne
    | cons t rest =>
        rw [referenceLevel, ← htimes]
        exact after_tokens hrate hcapacity _ hsorted (hfirst t rest htimes) hcapacity (le_refl _)
  · rintro label st' d ⟨hstep, hroom⟩ hlog rfl hdenied
    exact denied_takes_nothing hlogged (moved_of_step hstep) hroom hlog hdenied
  · intro call allowed hreturned
    have hcall := hlogged.calls call
    rwa [hreturned] at hcall

end OneKey

/-- The second request of the key, a microsecond after the first. -/
def afterSecond : State String where
  store := updateRateLimitBucket afterFirst.store "ip:a" onePerSecond 6
  clock := 6
  calls := Function.update (Function.update afterFirst.calls 1 (.updating "ip:a" onePerSecond)) 1
    (.cleaning (assignBucket onePerSecond 6 (firstBucket "ip:a" onePerSecond 5)).lastAllowed)
  log := afterFirst.log ++ [⟨1, "ip:a", onePerSecond, 6,
    (assignBucket onePerSecond 6 (firstBucket "ip:a" onePerSecond 5)).lastAllowed⟩]

theorem reachable_afterSecond : Reachable (belowCapacity id 1) afterSecond := by
  have hquiet : ∀ (l : Label) {s t : State String}, Reachable (belowCapacity id 1) s →
      (∀ call cleanupAt now outcome, l ≠ .insert call cleanupAt now outcome) →
        s.next id 1 l = some t → Reachable (belowCapacity id 1) t := by
    intro l s t hs hl hnext
    exact .step hs ⟨hnext, fun call cleanupAt now outcome _ _ heq =>
      absurd heq (hl call cleanupAt now outcome)⟩
  have hstart : Reachable (belowCapacity (id : String → String) 1) { clock := 5 } := .start ⟨5, rfl⟩
  have hbegun := hquiet (.start 0 "ip:a" onePerSecond) hstart (fun _ _ _ _ => nofun) rfl
  have hmissing := hquiet (.update 0 5 .committed) hbegun (fun _ _ _ _ => nofun) rfl
  have hfirst : Reachable (belowCapacity id 1) afterFirst :=
    .step hmissing (a := .insert 0 5 5 .committed)
      ⟨rfl, fun _ _ _ _ _ _ _ _ => Or.inr (by decide)⟩
  have hsecond := hquiet (.start 1 "ip:a" onePerSecond) hfirst (fun _ _ _ _ => nofun) rfl
  exact hquiet (.update 1 6 .committed) hsecond (fun _ _ _ _ => nofun) rfl

/-- Two requests a microsecond apart, with a burst of one. -/
theorem rate_limit_token_bucket_second :
    (decisionsOf "ip:a" afterSecond.log).map (·.allowed)
      = referenceDecisions (referencePolicy 1 1)
          (decisionTimes (decisionsOf "ip:a" afterSecond.log)) := by
  refine (rate_limit_token_bucket (by norm_num) (by norm_num) reachable_afterSecond ⟨?_, ?_⟩).1
  · intro d hd
    rcases List.mem_cons.mp (List.mem_of_mem_filter hd) with rfl | hd
    · exact ⟨rfl, rfl⟩
    · rw [List.mem_singleton.mp hd]
      exact ⟨rfl, rfl⟩
  · exact .cons_cons (by decide) (.singleton _)

end RateLimitBucket
