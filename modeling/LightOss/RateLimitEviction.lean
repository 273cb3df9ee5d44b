import LightOss.RateLimitTable

/-! # Rate limit eviction — the table is a bounded cache by last use

    Whatever is asked for in whatever order, the table simulates a recency list: it
    forgets a key only when it has been idle for the `ttl`, or when it is the least
    recently seen one and the table is full.

    `step_simulates` relates one call to an access of the list, and `sound_of_reachable`
    carries it over runs; what the list is known to do is then read off the table
    (`expires_exactly`, `answered`, `same_limiter`).  What a limiter has left is a fold
    over the requests made of it (`run_consumed`), for nothing else changes one. -/

namespace RateLimitEviction

open RecencyList StepSystem LedgerRows RateLimitTable

variable {ρ L : Type}

/-! ## Runs of one process's limiter -/

/-- The calls of the limiter. -/
inductive Label where
  | getLimiter (key : String) (now : Time) (limiter : Nat)
  | stats (now : Time) (result : RateLimiterStats)
  | allow (limiter : Nat) (now : Time) (allowed : Bool)
  | reject

/-- The key that is asked for. -/
def Label.key? : Label → Option String
  | .getLimiter key _ _ => some key
  | _ => none

/-- The table, the limiters made so far, and the clock. -/
structure State (ρ L : Type) where
  table : RateLimiter ρ
  heap : List L
  clock : Time

/-- One process's limiter: `getLimiter` and `Stats` under the lock, at times that never
    go back; in between any limiter may be asked for a token and requests rejected. -/
def limiterSystem (newLimiter : ρ → Int → L) (allowAt : L → Time → Bool × L) (rps : ρ)
    (burst : Int) (ttl : Span) (maxEntries : Int) : System (State ρ L) Label where
  start s := s.table = newRateLimiter rps burst ttl maxEntries s.clock ∧ s.heap = []
  step s label t :=
    match label with
    | .getLimiter key now limiter => s.clock ≤ now ∧ t.clock = now ∧
        getLimiter newLimiter s.table key now s.heap = some (limiter, t.table, t.heap)
    | .stats now result => s.clock ≤ now ∧ t.clock = now ∧
        stats s.table now = some (result, t.table) ∧ t.heap = s.heap
    | .allow limiter now allowed => ∃ l, s.heap[limiter]? = some l ∧
        allowed = (allowAt l now).1 ∧ t = { s with heap := s.heap.set limiter (allowAt l now).2 }
    | .reject => t = { s with table := { s.table with rejected := s.table.rejected + 1 } }

/-- What a table is as a cache. -/
def cacheOf (s : State ρ L) : Cache String Nat Time :=
  ⟨rows s.table.limiters s.table.lastSeenOrder, s.clock⟩

/-- The links hold, and the settings are those the limiter was made with. -/
structure Sound (ttl : Span) (maxEntries : Int) (s : State ρ L) : Prop where
  linked : Linked s.table.limiters s.table.lastSeenOrder
  ttl_eq : s.table.ttl = ttl
  maxEntries_eq : s.table.maxEntries = maxEntries

/-! ## Simulation -/

section Simulation

variable {newLimiter : ρ → Int → L} {allowAt : L → Time → Bool × L} {rps : ρ} {burst : Int}
variable {ttl : Span} {maxEntries : Int} {s t : State ρ L} {label : Label}

/-- Asking the cache after the sweep that may be due. -/
theorem swept_run (h : Sound ttl maxEntries s) {now : Time} (hnow : s.clock ≤ now) :
    ∃ events, Run (cache (κ := String) (β := Nat) (live ttl) maxEntries) (cacheOf s) events
        ⟨swept s.table now, now⟩
      ∧ events.filterMap Event.key? = [] := by
  rw [swept, h.ttl_eq]
  split
  · exact ⟨[.wait now], .cons (t := ⟨_, now⟩) ⟨hnow, rfl, rfl⟩ (.nil _), rfl⟩
  · exact ⟨[.sweep now], .cons (t := ⟨_, now⟩) ⟨hnow, rfl, rfl⟩ (.nil _), rfl⟩

/-- `getLimiter` keeps the links and is an access after the sweep. -/
theorem getLimiter_step (hmax : 0 < maxEntries) (h : Sound ttl maxEntries s) {key : String}
    {now : Time} {limiter : Nat}
    (hs : (limiterSystem newLimiter allowAt rps burst ttl maxEntries).step s
      (.getLimiter key now limiter) t) :
    Sound ttl maxEntries t
      ∧ access (live ttl now) maxEntries key s.heap.length now (swept s.table now)
        = (limiter, (cacheOf t).rows)
      ∧ (t.heap = s.heap ∧ (∃ row ∈ (cacheOf s).rows, row.value = limiter)
        ∨ t.heap = s.heap ++ [newLimiter s.table.rps s.table.burst] ∧ limiter = s.heap.length) := by
  obtain ⟨hnow, hclock, hrun⟩ := hs
  obtain ⟨limiter', limiters, order, evicted, capacityEvicted, next, heap', hspec, hlinked,
    haccess, hheap, -⟩ :=
      getLimiter_spec newLimiter now s.heap key h.linked (h.maxEntries_eq.symm ▸ hmax)
  obtain ⟨rfl, htable, rfl⟩ : limiter = limiter' ∧ t.table = _ ∧ t.heap = heap' := by
    have heq := Option.some.inj (hrun.symm.trans hspec)
    exact ⟨congrArg Prod.fst heq, congrArg (·.2.1) heq, congrArg (·.2.2) heq⟩
  rw [h.ttl_eq, h.maxEntries_eq] at haccess
  refine ⟨⟨?_, ?_, ?_⟩, ?_, hheap⟩
  · rw [htable]
    exact hlinked
  · rw [htable]
    exact h.ttl_eq
  · rw [htable]
    exact h.maxEntries_eq
  · rw [cacheOf, htable]
    exact haccess

/-- A lookup is an access of the recency list. -/
theorem getLimiter_access (hmax : 0 < maxEntries) (h : Sound ttl maxEntries s) {key : String}
    {now : Time} {limiter : Nat}
    (hs : (limiterSystem newLimiter allowAt rps burst ttl maxEntries).step s
      (.getLimiter key now limiter) t) :
    (cache (live ttl) maxEntries).step ⟨swept s.table now, now⟩ (.access key now limiter)
    (cacheOf t) :=
  ⟨le_rfl, hs.2.1, s.heap.length, (getLimiter_step hmax h hs).2.1⟩

/-- `Stats` keeps the links and is the sweep. -/
theorem stats_step (h : Sound ttl maxEntries s) {now : Time} {result : RateLimiterStats}
    (hs : (limiterSystem newLimiter allowAt rps burst ttl maxEntries).step s
      (.stats now result) t) :
    Sound ttl maxEntries t ∧ cacheOf t = ⟨swept s.table now, now⟩ := by
  obtain ⟨-, hclock, hrun, -⟩ := hs
  obtain ⟨result', limiters, order, evicted, next, hspec, hlinked, hrows⟩ := stats_spec h.linked now
  have htable : t.table = _ := congrArg Prod.snd (Option.some.inj (hrun.symm.trans hspec))
  refine ⟨⟨?_, ?_, ?_⟩, ?_⟩
  · rw [htable]
    exact hlinked
  · rw [htable]
    exact h.ttl_eq
  · rw [htable]
    exact h.maxEntries_eq
  · rw [cacheOf, htable, hclock, ← hrows]

/-- **Simulation**: a step of the table is what the cache does on the same key. -/
theorem step_simulates (hmax : 0 < maxEntries) (h : Sound ttl maxEntries s)
    (hs : (limiterSystem newLimiter allowAt rps burst ttl maxEntries).step s label t) :
    Sound ttl maxEntries t ∧ ∃ events,
      Run (cache (live ttl) maxEntries) (cacheOf s) events (cacheOf t)
      ∧ events.filterMap Event.key? = label.key?.toList := by
  cases label with
  | getLimiter key now limiter =>
      obtain ⟨events, hsweep, hkeys⟩ := swept_run h hs.1
      refine ⟨(getLimiter_step hmax h hs).1, events ++ [.access key now limiter],
        hsweep.append (.cons (getLimiter_access hmax h hs) (.nil _)), ?_⟩
      rw [List.filterMap_append, hkeys]
      rfl
  | stats now result =>
      obtain ⟨hsound, hcache⟩ := stats_step h hs
      rw [hcache]
      exact ⟨hsound, swept_run h hs.1⟩
  | allow limiter now allowed =>
      obtain ⟨l, -, -, rfl⟩ := hs
      exact ⟨⟨h.linked, h.ttl_eq, h.maxEntries_eq⟩, [], .nil _, rfl⟩
  | reject =>
      obtain rfl := hs
      exact ⟨⟨h.linked, h.ttl_eq, h.maxEntries_eq⟩, [], .nil _, rfl⟩

/-- **The simulation**: table and recency list stay the same in every run. -/
theorem sound_of_reachable (hmax : 0 < maxEntries)
    (h : Reachable (limiterSystem newLimiter allowAt rps burst ttl maxEntries) s) :
    Sound ttl maxEntries s ∧ Reachable (cache (live ttl) maxEntries) (cacheOf s) := by
  induction h with
  | start h0 =>
      obtain ⟨htable, -⟩ := h0
      refine ⟨⟨?_, ?_, ?_⟩, .start ?_⟩
      · rw [htable]
        exact .new
      · rw [htable]
        rfl
      · rw [htable]
        rfl
      · show rows _ _ = []
        rw [htable]
        rfl
  | step _ hs ih =>
      obtain ⟨hsound, hcache⟩ := ih
      obtain ⟨hsound', events, hrun, -⟩ := step_simulates hmax hsound hs
      exact ⟨hsound', hrun.reachable hcache⟩

/-- A run of the table is a run of the cache that asks for the same keys. -/
theorem run_simulates (hmax : 0 < maxEntries) {labels : List Label}
    (hrun : Run (limiterSystem newLimiter allowAt rps burst ttl maxEntries) s labels t) :
    Sound ttl maxEntries s →
      ∃ events, Run (cache (live ttl) maxEntries) (cacheOf s) events (cacheOf t)
        ∧ events.filterMap Event.key? = labels.filterMap Label.key? := by
  induction hrun with
  | nil s => exact fun _ => ⟨[], .nil _, rfl⟩
  | @cons s₁ s₂ s₃ label labels hs _ ih =>
      intro hsound
      obtain ⟨hsound₂, events, hevents, hkeys⟩ := step_simulates hmax hsound hs
      obtain ⟨events', hevents', hkeys'⟩ := ih hsound₂
      refine ⟨events ++ events', hevents.append hevents', ?_⟩
      rw [List.filterMap_append, hkeys, hkeys', ← List.singleton_append, List.filterMap_append]
      cases label <;> rfl

/-! ## The tokens of a limiter -/

/-- What the requests of a run leave of one limiter. -/
def consumed (allowAt : L → Time → Bool × L) (limiter : Nat) : L → List Label → L
  | l, [] => l
  | l, .allow p now _ :: labels =>
      consumed allowAt limiter (if p = limiter then (allowAt l now).2 else l) labels
  | l, _ :: labels => consumed allowAt limiter l labels

/-- Every limiter the table knows exists. -/
def Allocated (s : State ρ L) : Prop := ∀ row ∈ (cacheOf s).rows, row.value < s.heap.length

/-- A limiter that is handed out exists. -/
theorem Allocated.limiter_lt (hmax : 0 < maxEntries) (h : Sound ttl maxEntries s)
    (ha : Allocated s) {key : String} {now : Time} {limiter : Nat}
    (hs : (limiterSystem newLimiter allowAt rps burst ttl maxEntries).step s
      (.getLimiter key now limiter) t) :
    limiter < t.heap.length ∧ s.heap.length ≤ t.heap.length := by
  rcases (getLimiter_step hmax h hs).2.2 with ⟨hheap, row, hrow, rfl⟩ | ⟨hheap, rfl⟩
  · rw [hheap]
    exact ⟨ha row hrow, le_rfl⟩
  · rw [hheap, List.length_append, List.length_singleton]
    omega

/-- The table points to limiters that exist. -/
theorem Allocated.step (hmax : 0 < maxEntries) (h : Sound ttl maxEntries s) (ha : Allocated s)
    (hs : (limiterSystem newLimiter allowAt rps burst ttl maxEntries).step s label t) :
    Allocated t := by
  cases label with
  | getLimiter key now limiter =>
      obtain ⟨-, haccess, -⟩ := getLimiter_step hmax h hs
      have hnew := ha.limiter_lt hmax h hs
      intro row hrow
      have hrows : (access (live ttl now) maxEntries key s.heap.length now (swept s.table now)).2
          = (cacheOf t).rows := congrArg Prod.snd haccess
      rcases mem_access (hrows.symm ▸ hrow) with hrow | hvalue
      · exact (ha row (swept_sublist.subset hrow)).trans_le hnew.2
      · rw [hvalue, haccess]
        exact hnew.1
  | stats now result =>
      intro row hrow
      rw [(stats_step h hs).2] at hrow
      rw [hs.2.2.2]
      exact ha row (swept_sublist.subset hrow)
  | allow limiter now allowed =>
      obtain ⟨l, -, -, rfl⟩ := hs
      intro row hrow
      rw [List.length_set]
      exact ha row hrow
  | reject =>
      obtain rfl := hs
      exact ha

/-- **The run lemma**: every reachable state is allocated. -/
theorem allocated_of_reachable (hmax : 0 < maxEntries)
    (h : Reachable (limiterSystem newLimiter allowAt rps burst ttl maxEntries) s) :
        Allocated s := by
  refine h.invariant (I := Allocated) (fun s h0 => ?_) fun s label t hr ha hs =>
    ha.step hmax (sound_of_reachable hmax hr).1 hs
  intro row hrow
  rw [cacheOf, h0.1] at hrow
  exact nomatch hrow

/-- A step changes a limiter that exists only by asking it for a token. -/
theorem step_consumed {p : Nat} {l : L} (hmax : 0 < maxEntries) (h : Sound ttl maxEntries s)
    (hs : (limiterSystem newLimiter allowAt rps burst ttl maxEntries).step s label t)
    (hl : s.heap[p]? = some l) : t.heap[p]? = some (consumed allowAt p l [label]) := by
  have hlt : p < s.heap.length := (List.getElem?_eq_some_iff.mp hl).1
  cases label with
  | getLimiter key now limiter =>
      rcases (getLimiter_step hmax h hs).2.2 with ⟨hheap, -⟩ | ⟨hheap, -⟩
      · rw [hheap]
        exact hl
      · rw [hheap, List.getElem?_append_left hlt]
        exact hl
  | stats now result => exact hs.2.2.2.symm ▸ hl
  | reject =>
      obtain rfl := hs
      exact hl
  | allow limiter now allowed =>
      obtain ⟨l', hl', -, rfl⟩ := hs
      by_cases heq : limiter = p
      · subst heq
        obtain rfl := Option.some.inj (hl'.symm.trans hl)
        simp [consumed, hlt]
      · simp [consumed, heq, hl]

/-- A limiter changes by what is asked of it, and by nothing else. -/
theorem run_consumed {p : Nat} (hmax : 0 < maxEntries) {labels : List Label}
    (hrun : Run (limiterSystem newLimiter allowAt rps burst ttl maxEntries) s labels t) :
    Sound ttl maxEntries s → ∀ l : L, s.heap[p]? = some l →
      t.heap[p]? = some (consumed allowAt p l labels) := by
  induction hrun with
  | nil s => exact fun _ l hl => hl
  | @cons s₁ s₂ s₃ label labels hs _ ih =>
      intro hsound l hl
      have hstep := step_consumed hmax hsound hs hl
      have hrest := ih (step_simulates hmax hsound hs).1 _ hstep
      rw [hrest]
      cases label <;> rfl

/-! ## What the table holds -/

/-- The limiter of a key and when the key was seen last. -/
def record (r : RateLimiter ρ) (key : String) : Option (Nat × Time) :=
  (r.limiters.lookup key).map fun entry => (entry.limiter, entry.lastSeen)

/-- Map and list hold the same keys once each, by last use and within the bound. -/
structure Consistent (r : RateLimiter ρ) : Prop where
  same_keys : (r.lastSeenOrder.elements.map Element.value).Perm r.limiters.keys
  once : (r.lastSeenOrder.elements.map Element.value).Nodup
  by_lastSeen : r.lastSeenOrder.elements.Pairwise fun a b =>
    ∀ p t p' t', record r a.value = some (p, t) → record r b.value = some (p', t') → t ≤ t'
  within : (r.lastSeenOrder.elements.length : Int) ≤ r.maxEntries

/-- `evictExpired` leaves the keys seen less than the `ttl` ago, and takes the others. -/
def ExpiresExactly (r : RateLimiter ρ) (now : Time) : Prop :=
  ∃ r', evictExpired r now = some r' ∧ Consistent r' ∧ ∀ key p t,
    record r' key = some (p, t) ↔ record r key = some (p, t) ∧ now - t < r.ttl.nanos

/-- What a call for a key does to the other keys: those it loses are idle for the `ttl`,
    but for the least recently seen one when the table is full. -/
structure Answered (key : String) (now : Time) (limiter : Nat) (r r' : RateLimiter ρ) : Prop where
  placed : record r' key = some (limiter, now)
  others : ∀ k ≠ key, ∀ x, record r' k = some x → record r k = some x
  capacity :
    (r'.capacityEvicted = r.capacityEvicted
      ∧ ∀ k ≠ key, ∀ p t, record r k = some (p, t) → now - t < r.ttl.nanos →
        record r' k = some (p, t))
    ∨ (r'.capacityEvicted = r.capacityEvicted + 1 ∧ (r'.limiters.keys.length : Int) = r.maxEntries
      ∧ ∃ victim p₀ t₀, victim ≠ key ∧ record r victim = some (p₀, t₀)
        ∧ record r' victim = none
        ∧ (∀ k p t, k ≠ key → record r' k = some (p, t) → t₀ ≤ t)
        ∧ ∀ k p t, k ≠ key → k ≠ victim → record r k = some (p, t) → now - t < r.ttl.nanos →
          record r' k = some (p, t))

/-- An entry of the map is a row of the list. -/
theorem record_eq_some {r : RateLimiter ρ} (h : Linked r.limiters r.lastSeenOrder) {key : String}
    {p : Nat} {t : Time} :
    record r key = some (p, t) ↔ ⟨key, p, t⟩ ∈ rows r.limiters r.lastSeenOrder := by
  rw [h.mem_rows, record, Option.map_eq_some_iff]
  refine exists_congr fun entry => and_congr_right fun _ => ?_
  rw [Prod.mk.injEq, eq_comm, @eq_comm _ entry.lastSeen]

/-- What the recency list says, of the table. -/
theorem consistent_of_ordered {r : RateLimiter ρ} (h : Linked r.limiters r.lastSeenOrder)
    {clock : Time} (hordered : Ordered clock (rows r.limiters r.lastSeenOrder))
    (hlength : ((rows r.limiters r.lastSeenOrder).length : Int) ≤ r.maxEntries) : Consistent r where
  same_keys := h.keys_perm
  once := h.values_nodup
  by_lastSeen := by
    refine (List.pairwise_map.mp hordered.sorted).imp ?_
    intro a b hle p t p' t' ha hb
    obtain ⟨ea, hea, hae⟩ := Option.map_eq_some_iff.mp ha
    obtain ⟨eb, heb, hbe⟩ := Option.map_eq_some_iff.mp hb
    rw [rowOf_eq hea, rowOf_eq heb] at hle
    cases hae
    cases hbe
    exact hle
  within := by
    rw [rows, List.length_map] at hlength
    exact hlength

end Simulation

section Answers

variable {r : RateLimiter ρ} {clock now : Time}

/-- A sweep drops the rows that have expired, and no others. -/
theorem expires_exactly (h : Linked r.limiters r.lastSeenOrder)
    (hordered : Ordered clock (rows r.limiters r.lastSeenOrder))
    (hlength : ((rows r.limiters r.lastSeenOrder).length : Int) ≤ r.maxEntries)
    (hnow : clock ≤ now) : ExpiresExactly r now := by
  obtain ⟨limiters, order, evicted, hrun, hlinked, hrows⟩ := evictExpired_spec h now
  refine ⟨_, hrun, ?_, fun key p t => ?_⟩
  · refine consistent_of_ordered hlinked (hrows.symm ▸ hordered.sublist purge_sublist) ?_
    · rw [hrows]
      exact (Int.ofNat_le.mpr purge_sublist.length_le).trans hlength
  · rw [purge_eq_filter ((liveness r.ttl).renewed now) hordered.sorted] at hrows
    rw [record_eq_some hlinked, record_eq_some h, hrows, List.mem_filter]
    refine and_congr_right fun hmem => ?_
    exact live_iff ((hordered.past _ hmem).trans hnow)

/-- The cleanup leaves every live row. -/
theorem mem_swept (hordered : Ordered clock (rows r.limiters r.lastSeenOrder)) (hnow : clock ≤ now)
    {row : Row String Nat Time} (hrow : row ∈ rows r.limiters r.lastSeenOrder)
    (hlive : now - row.seen < r.ttl.nanos) : row ∈ swept r now := by
  rw [swept]
  split
  · exact hrow
  · rw [purge_eq_filter ((liveness r.ttl).renewed now) hordered.sorted]
    exact List.mem_filter.mpr ⟨hrow, (live_iff ((hordered.past _ hrow).trans hnow)).mpr hlive⟩

variable {newLimiter : ρ → Int → L} {heap : List L} {key : String}

/-- Behind the rows that remain stands the key that was asked for. -/
theorem record_placed (r' : RateLimiter ρ) (h : Linked r'.limiters r'.lastSeenOrder)
    {kept : List (Row String Nat Time)} {limiter : Nat}
    (hrows : rows r'.limiters r'.lastSeenOrder = kept ++ [⟨key, limiter, now⟩]) :
    record r' key = some (limiter, now)
      ∧ ∀ k ≠ key, ∀ p t, record r' k = some (p, t) ↔ ⟨k, p, t⟩ ∈ kept := by
  refine ⟨?_, fun k hk p t => ?_⟩
  · rw [record_eq_some h, hrows]
    exact List.mem_append_right _ List.mem_cons_self
  · rw [record_eq_some h, hrows, List.mem_append, List.mem_singleton]
    refine or_iff_left fun heq => hk ?_
    exact congrArg Row.key heq

/-- A lookup hands out the limiter of its key. -/
theorem answered (h : Linked r.limiters r.lastSeenOrder)
    (hordered : Ordered clock (rows r.limiters r.lastSeenOrder))
    (hlength : ((rows r.limiters r.lastSeenOrder).length : Int) ≤ r.maxEntries)
    (hmax : 0 < r.maxEntries) (hnow : clock ≤ now) (key : String) :
    ∃ limiter r' heap', getLimiter newLimiter r key now heap = some (limiter, r', heap')
      ∧ Answered key now limiter r r' := by
  obtain ⟨limiter, limiters, order, evicted, capacityEvicted, next, heap', hrun, hlinked, haccess,
    -, hcapacity⟩ := getLimiter_spec newLimiter now heap key h hmax
  have hsub : (forget key (swept r now)).Sublist (rows r.limiters r.lastSeenOrder) :=
    forget_sublist.trans swept_sublist
  have hback : ∀ {k p t}, (⟨k, p, t⟩ : Row String Nat Time) ∈ forget key (swept r now) →
      record r k = some (p, t) := fun hmem => (record_eq_some h).mpr (hsub.subset hmem)
  have hlive : ∀ {k p t}, k ≠ key → record r k = some (p, t) → now - t < r.ttl.nanos →
      (⟨k, p, t⟩ : Row String Nat Time) ∈ forget key (swept r now) := by
    intro k p t hk hrecord hlive
    exact mem_forget.mpr ⟨mem_swept hordered hnow ((record_eq_some h).mp hrecord) hlive, hk⟩
  have hkeeps : capacityEvicted = r.capacityEvicted →
      rows limiters order = forget key (swept r now) ++ [⟨key, limiter, now⟩] →
      Answered key now limiter r { r with
        limiters := limiters, lastSeenOrder := order, expiredEvicted := evicted,
        capacityEvicted := capacityEvicted, nextCleanup := next } := by
    intro hcap hrows
    obtain ⟨hplaced, hothers⟩ := record_placed { r with
      limiters := limiters, lastSeenOrder := order, expiredEvicted := evicted,
      capacityEvicted := capacityEvicted, nextCleanup := next } hlinked hrows
    refine ⟨hplaced, fun k hk x hx => hback ((hothers k hk _ _).mp hx), Or.inl ⟨hcap, ?_⟩⟩
    exact fun k hk p t hrecord hidle => (hothers k hk p t).mpr (hlive hk hrecord hidle)
  refine ⟨limiter, _, heap', hrun, ?_⟩
  rw [access] at haccess
  -- the key is known and live, or a limiter is made for it
  cases hhit : hit (live r.ttl now) key (swept r now) with
  | some row =>
      rw [hhit] at haccess hcapacity
      obtain ⟨rfl, hrows⟩ := Prod.mk.inj haccess
      exact hkeeps hcapacity hrows.symm
  | none =>
      rw [hhit] at haccess hcapacity
      obtain ⟨rfl, hrows⟩ := Prod.mk.inj haccess
      rw [makeRoom] at hrows
      -- a new key pushes out the first one in the list when the table is full
      split at hrows
      · next hfull =>
          rw [full, decide_eq_true hfull] at hcapacity
          cases hleft : forget key (swept r now) with
          | nil =>
              rw [hleft, List.length_nil] at hfull
              omega
          | cons victim rest =>
              rw [hleft, List.tail_cons] at hrows
              obtain ⟨hplaced, hothers⟩ := record_placed { r with
                limiters := limiters, lastSeenOrder := order, expiredEvicted := evicted,
                capacityEvicted := capacityEvicted, nextCleanup := next } hlinked hrows.symm
              have hleast := hordered.sublist (hleft ▸ hsub)
              have hvictim : victim ∈ forget key (swept r now) := by
                rw [hleft]
                exact List.mem_cons_self
              have hrest : ∀ {row}, row ∈ rest → row ∈ forget key (swept r now) := by
                intro row hrow
                rw [hleft]
                exact List.mem_cons_of_mem _ hrow
              have hne := (mem_forget.mp hvictim).2
              refine ⟨hplaced, fun k hk x hx => hback (hrest ((hothers k hk _ _).mp hx)),
                Or.inr ⟨hcapacity, ?_, victim.key, victim.value, victim.seen, hne, hback hvictim,
                  ?_, fun k p t hk hx => ?_, fun k p t hk hv hrecord hidle => ?_⟩⟩
              · have hlen := hsub.length_le
                rw [hleft, List.length_cons] at hlen hfull
                rw [hlinked.keys_length, ← hrows, List.length_append, List.length_singleton]
                omega
              · refine Option.eq_none_iff_forall_ne_some.mpr fun x hx => ?_
                have hmem := (hothers victim.key hne x.1 x.2).mp hx
                refine (List.nodup_cons.mp hleast.keys_nodup).1 ?_
                exact List.mem_map.mpr ⟨_, hmem, rfl⟩
              · exact hleast.head_le (List.mem_cons_of_mem _ ((hothers k hk p t).mp hx))
              · refine (hothers k hk p t).mpr ?_
                have hmem := hlive hk hrecord hidle
                rw [hleft] at hmem
                exact (List.mem_cons.mp hmem).resolve_left fun heq => hv (congrArg Row.key heq)
      · next hroom =>
          rw [full, decide_eq_false hroom] at hcapacity
          exact hkeeps hcapacity hrows.symm

theorem stats_answers (h : Linked r.limiters r.lastSeenOrder) (now : Time) :
    ∃ result r', stats r now = some (result, r') := by
  obtain ⟨result, limiters, order, evicted, next, hrun, -, -⟩ := stats_spec h now
  exact ⟨result, _, hrun⟩

end Answers

/-! ## The bounded table -/

section Main

variable {newLimiter : ρ → Int → L} {allowAt : L → Time → Bool × L} {rps : ρ} {burst : Int}
variable {ttl : Span} {maxEntries : Int}

/-- A key seen again in time, with few other keys in between, still has its limiter. -/
theorem same_limiter (hmax : 0 < maxEntries) {s s₁ s₂ t : State ρ L} {key : String}
    {t₁ t₂ : Time} {p p' : Nat} {labels : List Label}
    (hr : Reachable (limiterSystem newLimiter allowAt rps burst ttl maxEntries) s)
    (hfirst : (limiterSystem newLimiter allowAt rps burst ttl maxEntries).step s
      (.getLimiter key t₁ p) s₁)
    (hrun : Run (limiterSystem newLimiter allowAt rps burst ttl maxEntries) s₁ labels s₂)
    (hagain : (limiterSystem newLimiter allowAt rps burst ttl maxEntries).step s₂
      (.getLimiter key t₂ p') t)
    (hother : key ∉ labels.filterMap Label.key?)
    (hfew : ((labels.filterMap Label.key?).toFinset.card : Int) < maxEntries)
    (htime : t₂ - t₁ < ttl.nanos) : p' = p := by
  have hsound := (sound_of_reachable hmax hr).1
  have hr₁ := hr.step hfirst
  obtain ⟨hsound₁, hcache₁⟩ := sound_of_reachable hmax hr₁
  have hsound₂ := (sound_of_reachable hmax (hrun.reachable hr₁)).1
  obtain ⟨events, hevents, hkeys⟩ := run_simulates hmax hrun hsound₁
  obtain ⟨sweeps, hsweep, hnone⟩ := swept_run hsound₂ hagain.1
  have hall := hevents.append hsweep
  have hall_keys : (events ++ sweeps).filterMap Event.key? = labels.filterMap Label.key? := by
    rw [List.filterMap_append, hkeys, hnone, List.append_nil]
  have hclock : t₁ ≤ t₂ := by
    have hle := run_clock hall
    rw [cacheOf, hfirst.2.1] at hle
    exact hle
  have hlive : live ttl t₂ t₁ = true := (live_iff hclock).mpr htime
  have hbounded := bounded hmax hcache₁
  have hkept := Kept.run (liveness ttl) hmax hall hlive le_rfl
    (fun e he hk => hother (hall_keys ▸ List.mem_filterMap.mpr ⟨e, he, hk⟩)) hbounded ∅
    (by rw [Finset.empty_union, hall_keys]; exact hfew)
    (kept_of_access (getLimiter_access hmax hsound hfirst))
  exact hkept.answer (bounded hmax (hall.reachable hcache₁)) hlive
    (getLimiter_access hmax hsound₂ hagain)

/-- **The limiter table is a bounded cache by last use.**  In every reachable state map and
    list agree, cleanups take exactly the idle keys and every call is answered; and a key
    that comes back in time keeps its limiter with what its requests left of it. -/
theorem bounded_lru (hmax : 0 < maxEntries) :
    (∀ s : State ρ L, Reachable (limiterSystem newLimiter allowAt rps burst ttl maxEntries) s →
      Consistent s.table
      ∧ ∀ now, s.clock ≤ now → ExpiresExactly s.table now
        ∧ (∃ result r', stats s.table now = some (result, r'))
        ∧ ∀ key, ∃ limiter r' heap',
          getLimiter newLimiter s.table key now s.heap = some (limiter, r', heap')
          ∧ Answered key now limiter s.table r')
    ∧ ∀ (s s₁ s₂ t : State ρ L) (key : String) (t₁ t₂ : Time) (p p' : Nat) (labels : List Label),
      Reachable (limiterSystem newLimiter allowAt rps burst ttl maxEntries) s →
      (limiterSystem newLimiter allowAt rps burst ttl maxEntries).step s
        (.getLimiter key t₁ p) s₁ →
      Run (limiterSystem newLimiter allowAt rps burst ttl maxEntries) s₁ labels s₂ →
      (limiterSystem newLimiter allowAt rps burst ttl maxEntries).step s₂
        (.getLimiter key t₂ p') t →
      key ∉ labels.filterMap Label.key? →
      ((labels.filterMap Label.key?).toFinset.card : Int) < maxEntries →
      t₂ - t₁ < ttl.nanos →
        p' = p ∧ ∃ l, s₁.heap[p]? = some l ∧ t.heap[p]? = some (consumed allowAt p l labels) := by
  refine ⟨fun s hr => ?_, fun s s₁ s₂ t key t₁ t₂ p p' labels hr hfirst hrun hagain hother hfew
    htime => ⟨same_limiter hmax hr hfirst hrun hagain hother hfew htime, ?_⟩⟩
  · obtain ⟨hsound, hcache⟩ := sound_of_reachable hmax hr
    obtain ⟨hordered, hlength⟩ := bounded hmax hcache
    have hlength' : ((rows s.table.limiters s.table.lastSeenOrder).length : Int)
        ≤ s.table.maxEntries := hsound.maxEntries_eq.symm ▸ hlength
    have hmax' : 0 < s.table.maxEntries := hsound.maxEntries_eq.symm ▸ hmax
    refine ⟨consistent_of_ordered hsound.linked hordered hlength', fun now hnow => ?_⟩
    refine ⟨expires_exactly hsound.linked hordered hlength' hnow,
      stats_answers hsound.linked now, ?_⟩
    exact answered hsound.linked hordered hlength' hmax' hnow
  · have hr₁ := hr.step hfirst
    have hsound := (sound_of_reachable hmax hr).1
    have hsound₁ := (sound_of_reachable hmax hr₁).1
    have hsound₂ := (sound_of_reachable hmax (hrun.reachable hr₁)).1
    have hlt := ((allocated_of_reachable hmax hr).limiter_lt hmax hsound hfirst).1
    refine ⟨s₁.heap[p], List.getElem?_eq_getElem hlt, ?_⟩
    have hmiddle := run_consumed hmax hrun hsound₁ _ (List.getElem?_eq_getElem hlt)
    exact step_consumed hmax hsound₂ hagain hmiddle

end Main

/-! ## Two clients in a table of two -/

/-- A limiter without refill: what is left of its burst. -/
def spend (tokens : Int) (_ : Time) : Bool × Int :=
  if 0 < tokens then (true, tokens - 1) else (false, tokens)

/-- A second in nanoseconds. -/
def second : Span := ⟨1000000000, by decide⟩

/-- A table of two places. -/
abbrev twoPlaces : System (State Unit Int) Label :=
  limiterSystem (fun _ burst => burst) spend () 3 second 2

/-- The state after `getLimiter`. -/
def asked (s : State Unit Int) (key : String) (now : Time) : State Unit Int :=
  match getLimiter (fun _ burst => burst) s.table key now s.heap with
  | some (_, table, heap) => ⟨table, heap, now⟩
  | none => s

/-- The empty table. -/
def atStart : State Unit Int := ⟨newRateLimiter () 3 second 2 0, [], 0⟩

/-- The first key takes a place. -/
def firstAsked : State Unit Int := asked atStart "ip:a" 0

def firstSpent : State Unit Int := { firstAsked with heap := [2] }

/-- The second key takes the other place. -/
def otherAsked : State Unit Int := asked firstSpent "ip:b" 1

/-- The first one is found again, as the later of the two. -/
def againAsked : State Unit Int := asked otherAsked "ip:a" 2

/-- The first client is back after a nanosecond or two: it has the limiter it spent from. -/
theorem bounded_lru_two :
    Consistent otherAsked.table ∧ ∃ l, firstAsked.heap[0]? = some l
      ∧ againAsked.heap[0]?
        = some (consumed spend 0 l [.allow 0 0 true, .getLimiter "ip:b" 1 1]) := by
  have hfirst : twoPlaces.step atStart (.getLimiter "ip:a" 0 0) firstAsked := ⟨le_rfl, rfl, rfl⟩
  have hspent : twoPlaces.step firstAsked (.allow 0 0 true) firstSpent := ⟨3, rfl, rfl, rfl⟩
  have hother : twoPlaces.step firstSpent (.getLimiter "ip:b" 1 1) otherAsked :=
    ⟨by decide, rfl, rfl⟩
  have hagain : twoPlaces.step otherAsked (.getLimiter "ip:a" 2 0) againAsked :=
    ⟨by decide, rfl, rfl⟩
  have hstart : Reachable twoPlaces atStart := .start ⟨rfl, rfl⟩
  have hmain := @bounded_lru Unit Int (fun _ burst => burst) spend () 3 second 2 (by decide)
  refine ⟨(hmain.1 otherAsked (((hstart.step hfirst).step hspent).step hother)).1, ?_⟩
  exact (hmain.2 atStart firstAsked otherAsked againAsked "ip:a" 0 2 0 0 _ hstart hfirst
    (.cons hspent (.cons hother (.nil _))) hagain (by decide) (by decide) (by decide)).2


end RateLimitEviction
