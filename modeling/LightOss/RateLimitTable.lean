import LightOss.RecencyList
import LightOss.LedgerRows
import Mathlib

/-! # Rate limit table — the limiters one process keeps

    A map from keys to entries and a list of the keys by last use, linked both ways:
    an entry points to its list element and an element holds its key.  Pointers are
    numbers here, of the list elements and of the limiters made so far, so that the
    links are something to prove.  A `nil` dereference is `none`.

    `Linked` says that the links are in order.  Under it the two structures stand for one
    list of rows (`rows`), no dereference fails, and every function of the table does to
    the rows what the recency list does: `evictExpired_spec` purges, `evictOldest_spec`
    makes room, and `getLimiter` accesses. -/

namespace RateLimitTable

open RecencyList StepSystem LedgerRows

/-! ## `container/list` -/

/-- A list element, under the number that stands for its pointer. -/
structure Element where
  id : Nat
  value : String
  deriving DecidableEq, Repr

/-- A list and how many elements it has made. -/
structure Order where
  elements : List Element
  made : Nat
  deriving DecidableEq, Repr

namespace Order

def new : Order := ⟨[], 0⟩

def front (l : Order) : Option Element := l.elements.head?

/-- `PushBack`: the new element and the list. -/
def pushBack (l : Order) (value : String) : Nat × Order :=
  (l.made, ⟨l.elements ++ [⟨l.made, value⟩], l.made + 1⟩)

def remove (l : Order) (id : Nat) : Order :=
  { l with elements := l.elements.filter fun e => decide (e.id ≠ id) }

/-- `MoveToBack`: an element that is not in the list leaves it as it is. -/
def moveToBack (l : Order) (id : Nat) : Order :=
  match l.elements.find? fun e => decide (e.id = id) with
  | some e => { l with elements := (l.remove id).elements ++ [e] }
  | none => l

end Order

/-! ## Durations -/

/-- The least `time.Duration`. -/
def minDuration : Duration := -2 ^ 63

/-- The greatest. -/
def maxDuration : Duration := 2 ^ 63 - 1

/-- A `time.Duration` with its range. -/
structure Span where
  nanos : Duration
  range : minDuration ≤ nanos ∧ nanos ≤ maxDuration

/-- `Time.Sub`: a difference out of range is the nearest duration. -/
def sub (t u : Time) : Span where
  nanos := max minDuration (min maxDuration (t - u))
  range := ⟨le_max_left _ _, max_le (by decide) (min_le_left _ _)⟩

/-! ## `RateLimiter` -/

/-- An entry of the map: its limiter, when it was last seen, and its list element. -/
structure Entry where
  limiter : Nat
  lastSeen : Time
  order : Nat
  deriving DecidableEq, Repr

/-- The map. -/
abbrev Limiters : Type := AList fun _ : String => Entry

/-- `RateLimiter`, the mutex aside. -/
structure RateLimiter (ρ : Type) where
  backend : String
  rps : ρ
  burst : Int
  ttl : Span
  maxEntries : Int
  limiters : Limiters
  lastSeenOrder : Order
  nextCleanup : Time
  expiredEvicted : UInt64
  capacityEvicted : UInt64
  rejected : UInt64
  storeErrors : UInt64

/-- What `Stats` returns. -/
structure RateLimiterStats where
  backend : String
  entries : Int
  maxEntries : Int
  expiredEvictions : UInt64
  capacityEvictions : UInt64
  capacityRejections : UInt64
  rejectedRequests : UInt64
  storeErrors : UInt64
  deriving DecidableEq, Repr

variable {ρ L : Type}

/-- `newRateLimiter`, where `currentTime` is what the clock says. -/
def newRateLimiter (rps : ρ) (burst : Int) (ttl : Span) (maxEntries : Int) (currentTime : Time) :
    RateLimiter ρ where
  backend := "local"
  rps := rps
  burst := burst
  ttl := ttl
  maxEntries := maxEntries
  limiters := ∅
  lastSeenOrder := Order.new
  nextCleanup := currentTime + ttl.nanos
  expiredEvicted := 0
  capacityEvicted := 0
  rejected := 0
  storeErrors := 0

/-- `removeEntry`: from the map and from the list. -/
def removeEntry (r : RateLimiter ρ) (key : String) (entry : Entry) : RateLimiter ρ :=
  { r with
    limiters := r.limiters.erase key
    lastSeenOrder := r.lastSeenOrder.remove entry.order }

/-- The loop of `evictExpired`.  Each turn takes one element off the list, so that
    the length of the list is enough fuel. -/
def evictExpiredFrom (now : Time) : Nat → RateLimiter ρ → Option (RateLimiter ρ)
  | fuel, r =>
      match r.lastSeenOrder.front, fuel with
      | none, _ => some r
      | some _, 0 => none
      | some element, fuel + 1 => do
          let entry ← r.limiters.lookup element.value
          if (sub now entry.lastSeen).nanos < r.ttl.nanos then
            return r
          let r := removeEntry r element.value entry
          evictExpiredFrom now fuel { r with expiredEvicted := r.expiredEvicted + 1 }

/-- `evictExpired`: from the front of the list, as long as it is expired. -/
def evictExpired (r : RateLimiter ρ) (now : Time) : Option (RateLimiter ρ) :=
  evictExpiredFrom now r.lastSeenOrder.elements.length r

/-- `evictOldest`: the front of the list, whatever its age. -/
def evictOldest (r : RateLimiter ρ) : Option (RateLimiter ρ) := do
  let oldest ← r.lastSeenOrder.front
  let entry ← r.limiters.lookup oldest.value
  let r := removeEntry r oldest.value entry
  return { r with capacityEvicted := r.capacityEvicted + 1 }

/-- The block `getLimiter` and `StatsContext` begin with. -/
def cleanup (r : RateLimiter ρ) (now : Time) : Option (RateLimiter ρ) :=
  if now < r.nextCleanup then some r
  else do
    let r ← evictExpired r now
    return { r with nextCleanup := now + r.ttl.nanos }

/-- The end of `getLimiter`: a new limiter for a key that has none.  `heap` are the
    limiters made so far. -/
def addLimiter (newLimiter : ρ → Int → L) (r : RateLimiter ρ) (key : String) (now : Time)
    (heap : List L) : Option (Nat × RateLimiter ρ × List L) := do
  let r ← if r.maxEntries ≤ r.limiters.keys.length then evictOldest r else some r
  let limiter := heap.length
  let (order, lastSeenOrder) := r.lastSeenOrder.pushBack key
  return (limiter,
    { r with
      lastSeenOrder := lastSeenOrder
      limiters := r.limiters.insert key { limiter := limiter, lastSeen := now, order := order } },
    heap ++ [newLimiter r.rps r.burst])

/-- `getLimiter`: cleanup first, then the entry, unless it has expired in the meantime. -/
def getLimiter (newLimiter : ρ → Int → L) (r : RateLimiter ρ) (key : String) (now : Time)
    (heap : List L) : Option (Nat × RateLimiter ρ × List L) := do
  let r ← cleanup r now
  match r.limiters.lookup key with
  | some entry =>
      if (sub now entry.lastSeen).nanos < r.ttl.nanos then
        return (entry.limiter,
          { r with
            limiters := r.limiters.insert key { entry with lastSeen := now }
            lastSeenOrder := r.lastSeenOrder.moveToBack entry.order },
          heap)
      let r := removeEntry r key entry
      addLimiter newLimiter { r with expiredEvicted := r.expiredEvicted + 1 } key now heap
  | none => addLimiter newLimiter r key now heap

/-- `StatsContext` of a limiter without a store. -/
def stats (r : RateLimiter ρ) (now : Time) : Option (RateLimiterStats × RateLimiter ρ) := do
  let r ← cleanup r now
  return (
    { backend := r.backend
      entries := r.limiters.keys.length
      maxEntries := r.maxEntries
      expiredEvictions := r.expiredEvicted
      capacityEvictions := r.capacityEvicted
      capacityRejections := 0
      rejectedRequests := r.rejected
      storeErrors := r.storeErrors }, r)

/-! ## The map and the list as one list of rows -/

/-- The links: each key once in the list, each element with its own entry and back. -/
structure Linked (limiters : Limiters) (order : Order) : Prop where
  values_nodup : (order.elements.map Element.value).Nodup
  ids_nodup : (order.elements.map Element.id).Nodup
  made : ∀ e ∈ order.elements, e.id < order.made
  entry : ∀ e ∈ order.elements, ∃ entry, limiters.lookup e.value = some entry
  listed : ∀ key entry, limiters.lookup key = some entry → ⟨entry.order, key⟩ ∈ order.elements

/-- What an element and its entry stand for together. -/
def rowOf (limiters : Limiters) (e : Element) : Row String Nat Time where
  key := e.value
  value := ((limiters.lookup e.value).map Entry.limiter).getD 0
  seen := ((limiters.lookup e.value).map Entry.lastSeen).getD 0

/-- What the table means: keys with their limiters, by last use. -/
def rows (limiters : Limiters) (order : Order) : List (Row String Nat Time) :=
  order.elements.map (rowOf limiters)

theorem rowOf_eq {limiters : Limiters} {e : Element} {entry : Entry}
    (h : limiters.lookup e.value = some entry) :
    rowOf limiters e = ⟨e.value, entry.limiter, entry.lastSeen⟩ := by
  rw [rowOf, h]
  rfl

theorem rowOf_congr {limiters limiters' : Limiters} {e : Element}
    (h : limiters'.lookup e.value = limiters.lookup e.value) :
        rowOf limiters' e = rowOf limiters e := by
  rw [rowOf, rowOf, h]

section Links

variable {limiters : Limiters} {order : Order} {key : String} {entry : Entry}

/-- The keys stand in the order of the list. -/
@[simp] theorem keys_rows :
    (rows limiters order).map Row.key = order.elements.map Element.value := by
  rw [rows, List.map_map]
  rfl

theorem Linked.new : Linked ∅ Order.new where
  values_nodup := List.nodup_nil
  ids_nodup := List.nodup_nil
  made := nofun
  entry := nofun
  listed _ _ h := nomatch h

/-- The element of an entry is the one with its key. -/
theorem Linked.id_eq_iff (h : Linked limiters order) (hkey : limiters.lookup key = some entry)
    {e : Element} (he : e ∈ order.elements) : e.id = entry.order ↔ e.value = key := by
  have hlisted := h.listed key entry hkey
  constructor
  · intro hid
    rw [List.inj_on_of_nodup_map h.ids_nodup he hlisted hid]
  · intro hvalue
    rw [List.inj_on_of_nodup_map h.values_nodup he hlisted hvalue]

/-- An entry's element is the one that holds its key. -/
theorem Linked.remove_elements (h : Linked limiters order)
    (hkey : limiters.lookup key = some entry) :
    (order.remove entry.order).elements = order.elements.filter fun e => decide (e.value ≠ key) :=
  List.filter_congr fun _ he => decide_eq_decide.mpr (not_congr (h.id_eq_iff hkey he))

/-- A row is an entry of the map, and every entry is a row. -/
theorem Linked.mem_rows (h : Linked limiters order) {r : Row String Nat Time} :
    r ∈ rows limiters order ↔
      ∃ entry, limiters.lookup r.key = some entry ∧ r.value = entry.limiter
        ∧ r.seen = entry.lastSeen := by
  rw [rows, List.mem_map]
  constructor
  · rintro ⟨e, he, rfl⟩
    obtain ⟨entry, hentry⟩ := h.entry e he
    rw [rowOf_eq hentry]
    exact ⟨entry, hentry, rfl, rfl⟩
  · rintro ⟨entry, hentry, hvalue, hseen⟩
    refine ⟨⟨entry.order, r.key⟩, h.listed _ _ hentry, ?_⟩
    rw [rowOf_eq hentry, ← hvalue, ← hseen]

/-- The map and the list have the same keys. -/
theorem Linked.keys_perm (h : Linked limiters order) :
    (order.elements.map Element.value).Perm limiters.keys := by
  refine (List.perm_ext_iff_of_nodup h.values_nodup limiters.keys_nodup).mpr fun key => ?_
  rw [← AList.mem_keys, ← AList.lookup_isSome, Option.isSome_iff_exists, List.mem_map]
  constructor
  · rintro ⟨e, he, rfl⟩
    exact h.entry e he
  · rintro ⟨entry, hentry⟩
    exact ⟨_, h.listed key entry hentry, rfl⟩

theorem Linked.keys_length (h : Linked limiters order) :
    limiters.keys.length = (rows limiters order).length := by
  rw [← h.keys_perm.length_eq, List.length_map, rows, List.length_map]

/-- A key without an entry is in no element. -/
theorem Linked.notMem_keys (h : Linked limiters order) (hkey : limiters.lookup key = none) :
    ∀ e ∈ order.elements, e.value ≠ key := by
  rintro e he rfl
  obtain ⟨entry, hentry⟩ := h.entry e he
  exact nomatch hkey.symm.trans hentry

/-! ## What the operations do to the rows -/

theorem Linked.removeEntry (h : Linked limiters order) (hkey : limiters.lookup key = some entry) :
    Linked (limiters.erase key) (order.remove entry.order) := by
  have hsub : (order.remove entry.order).elements.Sublist order.elements := List.filter_sublist
  have hother : ∀ e ∈ (order.remove entry.order).elements, e.value ≠ key := by
    intro e he
    rw [h.remove_elements hkey] at he
    exact of_decide_eq_true (List.mem_filter.mp he).2
  refine ⟨h.values_nodup.sublist (hsub.map _), h.ids_nodup.sublist (hsub.map _),
    fun e he => h.made e (hsub.subset he), fun e he => ?_, fun key' entry' hkey' => ?_⟩
  · rw [AList.lookup_erase_ne (hother e he)]
    exact h.entry e (hsub.subset he)
  · have hne : key' ≠ key := by
      rintro rfl
      rw [AList.lookup_erase] at hkey'
      exact nomatch hkey'
    rw [AList.lookup_erase_ne hne] at hkey'
    rw [h.remove_elements hkey]
    exact List.mem_filter.mpr ⟨h.listed _ _ hkey', decide_eq_true hne⟩

theorem Linked.rows_removeEntry (h : Linked limiters order)
    (hkey : limiters.lookup key = some entry) :
    rows (limiters.erase key) (order.remove entry.order) = forget key (rows limiters order) := by
  rw [rows, rows, forget, List.filter_map, h.remove_elements hkey]
  refine List.map_congr_left fun e he => rowOf_congr (AList.lookup_erase_ne ?_)
  exact of_decide_eq_true (List.mem_filter.mp he).2

/-- An entry for a new key, with an element behind the others. -/
theorem Linked.place (h : Linked limiters order) (entry : Entry)
    (hkey : limiters.lookup key = none) {made : Nat}
    (hid : ∀ e ∈ order.elements, e.id ≠ entry.order) (hlt : entry.order < made)
    (hmade : order.made ≤ made) :
    Linked (limiters.insert key entry) ⟨order.elements ++ [⟨entry.order, key⟩], made⟩ where
  values_nodup := by
    rw [List.map_append]
    refine h.values_nodup.append (List.nodup_singleton _) ?_
    intro value hvalue hkey'
    obtain ⟨e, he, rfl⟩ := List.mem_map.mp hvalue
    exact h.notMem_keys hkey e he (List.mem_singleton.mp hkey')
  ids_nodup := by
    rw [List.map_append]
    refine h.ids_nodup.append (List.nodup_singleton _) ?_
    intro id hmem hid'
    obtain ⟨e, he, rfl⟩ := List.mem_map.mp hmem
    exact hid e he (List.mem_singleton.mp hid')
  made e he := by
    rcases List.mem_append.mp he with he | he
    · exact (h.made e he).trans_le hmade
    · rw [List.mem_singleton.mp he]
      exact hlt
  entry e he := by
    rcases List.mem_append.mp he with he | he
    · rw [AList.lookup_insert_ne (h.notMem_keys hkey e he)]
      exact h.entry e he
    · rw [List.mem_singleton.mp he]
      exact ⟨entry, AList.lookup_insert _⟩
  -- the new entry has the new element, the others keep theirs
  listed key' entry' hkey' := by
    by_cases heq : key' = key
    · subst heq
      rw [AList.lookup_insert] at hkey'
      cases hkey'
      exact List.mem_append_right _ List.mem_cons_self
    · rw [AList.lookup_insert_ne heq] at hkey'
      exact List.mem_append_left _ (h.listed _ _ hkey')

/-- A new entry with its element comes last. -/
theorem Linked.rows_place (h : Linked limiters order) (entry : Entry)
    (hkey : limiters.lookup key = none) (made : Nat) :
    rows (limiters.insert key entry) ⟨order.elements ++ [⟨entry.order, key⟩], made⟩
      = rows limiters order ++ [⟨key, entry.limiter, entry.lastSeen⟩] := by
  have hnew : rowOf (limiters.insert key entry) ⟨entry.order, key⟩
      = ⟨key, entry.limiter, entry.lastSeen⟩ := rowOf_eq (AList.lookup_insert _)
  rw [rows, List.map_append, List.map_singleton, hnew, rows]
  refine congrArg (· ++ _) (List.map_congr_left fun e he => rowOf_congr ?_)
  exact AList.lookup_insert_ne (h.notMem_keys hkey e he)

/-- Moving an element to the back is taking it out and placing it again. -/
theorem Linked.moveToBack (h : Linked limiters order) (hkey : limiters.lookup key = some entry) :
    order.moveToBack entry.order
      = ⟨(order.remove entry.order).elements ++ [⟨entry.order, key⟩], order.made⟩ := by
  have hfind : order.elements.find? (fun e => decide (e.id = entry.order))
      = some ⟨entry.order, key⟩ :=
    KeyedTable.Table.find?_of_nodup h.ids_nodup (h.listed _ _ hkey) (decide_eq_true rfl)
      fun _ he => of_decide_eq_true he
  rw [Order.moveToBack, hfind]

theorem insert_erase (limiters : Limiters) (key : String) (entry : Entry) :
    (limiters.erase key).insert key entry = limiters.insert key entry := by
  refine AList.ext ?_
  have hnot : key ∉ limiters.erase key := fun h => (AList.mem_erase.mp h).1 rfl
  rw [AList.entries_insert_of_notMem hnot, AList.entries_insert]
  rfl

end Links

/-! ## Liveness -/

/-- Not yet idle for the `ttl`. -/
def live (ttl : Span) (now seen : Time) : Bool := decide ((sub now seen).nanos < ttl.nanos)

/-- What has expired stays expired, and what was seen later expires later. -/
theorem liveness (ttl : Span) : Liveness (live ttl) where
  renewed now s t hst h := by
    refine decide_eq_true (lt_of_le_of_lt ?_ (of_decide_eq_true h))
    exact max_le_max le_rfl (min_le_min le_rfl (Int.sub_le_sub_left hst now))
  before s now later hle h := by
    refine decide_eq_true (lt_of_le_of_lt ?_ (of_decide_eq_true h))
    exact max_le_max le_rfl (min_le_min le_rfl (Int.sub_le_sub_right hle s))

/-- Saturation does not matter: a `ttl` is at most the longest duration. -/
theorem live_iff {ttl : Span} {now seen : Time} (h : seen ≤ now) :
    live ttl now seen = true ↔ now - seen < ttl.nanos := by
  have hrange := ttl.range
  have hneg : minDuration ≤ 0 := by decide
  have hmin : minDuration ≤ now - seen := hneg.trans (Int.sub_nonneg_of_le h)
  rw [live, decide_eq_true_iff, sub]
  simp only [max_lt_iff, min_lt_iff]
  constructor
  · rintro ⟨-, hmax | hlt⟩
    · exact absurd hrange.2 (not_le.mpr hmax)
    · exact hlt
  · intro hlt
    exact ⟨lt_of_le_of_lt hmin hlt, Or.inr hlt⟩

section Specs

variable {r : RateLimiter ρ} {now : Time} {key : String} {entry : Entry}

/-- The live entry of a key is the hit. -/
theorem Linked.hit_of_lookup {limiters : Limiters} {order : Order} {ttl : Span}
    (h : Linked limiters order) (hkey : limiters.lookup key = some entry)
    (hlive : live ttl now entry.lastSeen = true) :
    hit (live ttl now) key (rows limiters order)
      = some ⟨key, entry.limiter, entry.lastSeen⟩ := by
  have hmem : (⟨key, entry.limiter, entry.lastSeen⟩ : Row String Nat Time)
      ∈ rows limiters order := h.mem_rows.mpr ⟨entry, hkey, rfl, rfl⟩
  refine hit_of_mem ?_ hmem hlive
  rw [keys_rows]
  exact h.values_nodup

/-- A key without a live entry is not found. -/
theorem Linked.no_hit {limiters : Limiters} {order : Order} {ttl : Span}
    (h : Linked limiters order)
    (hkey : ∀ entry, limiters.lookup key = some entry → live ttl now entry.lastSeen = false) :
    hit (live ttl now) key (rows limiters order) = none := by
  refine hit_eq_none.mpr ?_
  rintro row hrow rfl
  obtain ⟨entry, hentry, -, hseen⟩ := h.mem_rows.mp hrow
  rw [hseen]
  exact hkey entry hentry

/-- Forgetting a key that is not there. -/
theorem Linked.forget_of_none {limiters : Limiters} {order : Order} (h : Linked limiters order)
    (hkey : limiters.lookup key = none) :
        forget key (rows limiters order) = rows limiters order := by
  refine forget_of_notMem ?_
  rintro row hrow rfl
  obtain ⟨entry, hentry, -, -⟩ := h.mem_rows.mp hrow
  exact nomatch hkey.symm.trans hentry

/-! ## Eviction -/

theorem evictExpiredFrom_nil {fuel : Nat} (h : r.lastSeenOrder.elements = []) :
    evictExpiredFrom now fuel r = some r := by
  unfold evictExpiredFrom
  have hfront : r.lastSeenOrder.front = none := by rw [Order.front, h, List.head?_nil]
  rw [hfront]

theorem evictExpiredFrom_cons {fuel : Nat} {e : Element} {rest : List Element}
    (h : r.lastSeenOrder.elements = e :: rest) (hentry : r.limiters.lookup e.value = some entry) :
    evictExpiredFrom now (fuel + 1) r =
      if (sub now entry.lastSeen).nanos < r.ttl.nanos then some r
      else evictExpiredFrom now fuel
        { removeEntry r e.value entry with expiredEvicted := r.expiredEvicted + 1 } := by
  have hfront : r.lastSeenOrder.front = some e := by rw [Order.front, h, List.head?_cons]
  conv_lhs => unfold evictExpiredFrom
  rw [hfront]
  simp only [hentry, Option.bind_eq_bind, Option.bind_some]
  rfl

/-- The loop purges the rows from the front, by induction on the elements that are left. -/
theorem evictExpiredFrom_spec (now : Time) : ∀ (fuel : Nat) (r : RateLimiter ρ),
    Linked r.limiters r.lastSeenOrder → r.lastSeenOrder.elements.length ≤ fuel →
      ∃ limiters order evicted,
        evictExpiredFrom now fuel r = some
          { r with limiters := limiters, lastSeenOrder := order, expiredEvicted := evicted }
        ∧ Linked limiters order
        ∧ rows limiters order = purge (live r.ttl now) (rows r.limiters r.lastSeenOrder) := by
  intro fuel
  induction fuel with
  | zero =>
      intro r h hfuel
      have hempty : r.lastSeenOrder.elements = [] := List.eq_nil_of_length_eq_zero (by omega)
      refine ⟨r.limiters, r.lastSeenOrder, r.expiredEvicted, ?_, h, ?_⟩
      · exact evictExpiredFrom_nil hempty
      · rw [rows, hempty]
        rfl
  | succ fuel ih =>
      intro r h hfuel
      cases helems : r.lastSeenOrder.elements with
      | nil =>
          refine ⟨r.limiters, r.lastSeenOrder, r.expiredEvicted, ?_, h, ?_⟩
          · exact evictExpiredFrom_nil helems
          · rw [rows, helems]
            rfl
      | cons e rest =>
          -- the front element has its entry, so the dereference succeeds
          obtain ⟨entry, hentry⟩ := h.entry e (by rw [helems]; exact List.mem_cons_self)
          have hrows : rows r.limiters r.lastSeenOrder
              = ⟨e.value, entry.limiter, entry.lastSeen⟩ :: rest.map (rowOf r.limiters) := by
            rw [rows, helems, List.map_cons, rowOf_eq hentry]
          have hnd : ((rows r.limiters r.lastSeenOrder).map Row.key).Nodup := by
            rw [keys_rows]
            exact h.values_nodup
          rw [evictExpiredFrom_cons helems hentry]
          split
          -- the loop stops at the first live entry
          · next hlive =>
              refine ⟨r.limiters, r.lastSeenOrder, r.expiredEvicted, rfl, h, ?_⟩
              rw [hrows, purge, List.dropWhile_cons_of_neg]
              simpa [live] using hlive
          · next hdead =>
              have hgone := h.rows_removeEntry hentry
              rw [hrows] at hgone hnd
              rw [forget_head (r := ⟨e.value, entry.limiter, entry.lastSeen⟩) hnd] at hgone
              -- the entry is removed, and one element is gone: fuel for the rest
              have hshort : (r.lastSeenOrder.remove entry.order).elements.length ≤ fuel := by
                have hlen := congrArg List.length hgone
                rw [rows, List.length_map, List.length_map] at hlen
                rw [hlen]
                rw [helems, List.length_cons] at hfuel
                omega
              obtain ⟨limiters, order, evicted, hrun, hlinked, hpurged⟩ :=
                ih { removeEntry r e.value entry with expiredEvicted := r.expiredEvicted + 1 }
                  (h.removeEntry hentry) hshort
              refine ⟨limiters, order, evicted, hrun, hlinked, hpurged.trans ?_⟩
              rw [hrows, purge, purge, List.dropWhile_cons_of_pos (by simpa [live] using hdead)]
              exact congrArg _ hgone

theorem evictExpired_spec (h : Linked r.limiters r.lastSeenOrder) (now : Time) :
    ∃ limiters order evicted,
      evictExpired r now = some
        { r with limiters := limiters, lastSeenOrder := order, expiredEvicted := evicted }
      ∧ Linked limiters order
      ∧ rows limiters order = purge (live r.ttl now) (rows r.limiters r.lastSeenOrder) :=
  evictExpiredFrom_spec now _ r h le_rfl

theorem evictOldest_spec (h : Linked r.limiters r.lastSeenOrder)
    (hne : rows r.limiters r.lastSeenOrder ≠ []) :
    ∃ limiters order,
      evictOldest r = some
        { r with limiters := limiters, lastSeenOrder := order,
                 capacityEvicted := r.capacityEvicted + 1 }
      ∧ Linked limiters order ∧ order.made = r.lastSeenOrder.made
      ∧ (∀ key, r.limiters.lookup key = none → limiters.lookup key = none)
      ∧ rows limiters order = (rows r.limiters r.lastSeenOrder).tail := by
  cases helems : r.lastSeenOrder.elements with
  | nil => exact absurd (by rw [rows, helems]; rfl) hne
  | cons e rest =>
      obtain ⟨entry, hentry⟩ := h.entry e (by rw [helems]; exact List.mem_cons_self)
      have hrows : rows r.limiters r.lastSeenOrder
          = ⟨e.value, entry.limiter, entry.lastSeen⟩ :: rest.map (rowOf r.limiters) := by
        rw [rows, helems, List.map_cons, rowOf_eq hentry]
      have hnd : ((rows r.limiters r.lastSeenOrder).map Row.key).Nodup := by
        rw [keys_rows]
        exact h.values_nodup
      refine ⟨r.limiters.erase e.value, r.lastSeenOrder.remove entry.order, ?_,
        h.removeEntry hentry, rfl, fun key hkey => ?_, ?_⟩
      · rw [evictOldest, Order.front, helems]
        simp only [List.head?_cons, Option.bind_eq_bind, Option.bind_some, hentry]
        rfl
      · by_cases heq : key = e.value
        · rw [heq, AList.lookup_erase]
        · rw [AList.lookup_erase_ne heq, hkey]
      · rw [h.rows_removeEntry hentry]
        rw [hrows] at hnd ⊢
        exact forget_head (r := ⟨e.value, entry.limiter, entry.lastSeen⟩) hnd

/-! ## `cleanup`, `getLimiter`, `Stats` -/

/-- The rows after the cleanup that may be due. -/
def swept (r : RateLimiter ρ) (now : Time) : List (Row String Nat Time) :=
  if now < r.nextCleanup then rows r.limiters r.lastSeenOrder
  else purge (live r.ttl now) (rows r.limiters r.lastSeenOrder)

theorem swept_sublist : (swept r now).Sublist (rows r.limiters r.lastSeenOrder) := by
  rw [swept]
  split
  · exact List.Sublist.refl _
  · exact purge_sublist

/-- `cleanup` sweeps when it is due, and then sets its next time. -/
theorem cleanup_spec (h : Linked r.limiters r.lastSeenOrder) (now : Time) :
    ∃ limiters order evicted next,
      cleanup r now = some
        { r with limiters := limiters, lastSeenOrder := order, expiredEvicted := evicted,
                 nextCleanup := next }
      ∧ Linked limiters order ∧ rows limiters order = swept r now := by
  rw [cleanup, swept]
  split
  · exact ⟨_, _, _, _, rfl, h, rfl⟩
  · obtain ⟨limiters, order, evicted, hrun, hlinked, hrows⟩ := evictExpired_spec h now
    refine ⟨limiters, order, evicted, now + r.ttl.nanos, ?_, hlinked, hrows⟩
    rw [hrun]
    rfl

variable (newLimiter : ρ → Int → L) (now : Time) (heap : List L)

/-- Whether a new key costs the front row its place. -/
def full (maxEntries : Int) (rows : List (Row String Nat Time)) : Bool :=
  decide (maxEntries ≤ rows.length)

/-- A new key comes last, and the oldest row makes room when the table is full. -/
theorem addLimiter_spec (h : Linked r.limiters r.lastSeenOrder) (hmax : 0 < r.maxEntries)
    (hkey : r.limiters.lookup key = none) :
    ∃ limiters order capacityEvicted,
      addLimiter newLimiter r key now heap = some (heap.length,
        { r with limiters := limiters, lastSeenOrder := order, capacityEvicted := capacityEvicted },
        heap ++ [newLimiter r.rps r.burst])
      ∧ Linked limiters order
      ∧ rows limiters order = makeRoom r.maxEntries (rows r.limiters r.lastSeenOrder)
          ++ [⟨key, heap.length, now⟩]
      ∧ capacityEvicted
        = if full r.maxEntries (rows r.limiters r.lastSeenOrder) then r.capacityEvicted + 1
          else r.capacityEvicted := by
  have hplace : ∀ {limiters : Limiters} {order : Order}, Linked limiters order →
      limiters.lookup key = none →
      Linked (limiters.insert key ⟨heap.length, now, order.made⟩) (order.pushBack key).2
      ∧ rows (limiters.insert key ⟨heap.length, now, order.made⟩) (order.pushBack key).2
        = rows limiters order ++ [⟨key, heap.length, now⟩] := by
    intro limiters order hlinked hnew
    refine ⟨hlinked.place _ hnew (fun e he => (hlinked.made e he).ne) (Nat.lt_succ_self _)
      (Nat.le_succ _), ?_⟩
    exact hlinked.rows_place ⟨heap.length, now, order.made⟩ hnew _
  rw [addLimiter, h.keys_length, makeRoom, full]
  by_cases hfull : r.maxEntries ≤ (rows r.limiters r.lastSeenOrder).length
  · have hne : rows r.limiters r.lastSeenOrder ≠ [] := by
      rintro heq
      rw [heq, List.length_nil] at hfull
      omega
    obtain ⟨limiters, order, hrun, hlinked, -, hnone, hrows⟩ := evictOldest_spec h hne
    obtain ⟨hlinked', hrows'⟩ := hplace hlinked (hnone key hkey)
    rw [if_pos hfull, if_pos hfull, if_pos (decide_eq_true hfull), hrun]
    exact ⟨_, _, _, rfl, hlinked', hrows'.trans (by rw [hrows]), rfl⟩
  · obtain ⟨hlinked', hrows'⟩ := hplace h hkey
    rw [if_neg hfull, if_neg hfull, if_neg (by simpa using hfull)]
    exact ⟨_, _, _, rfl, hlinked', hrows', rfl⟩

/-- **`getLimiter` asks the recency list for the key.** -/
theorem getLimiter_spec (key : String) (h : Linked r.limiters r.lastSeenOrder)
    (hmax : 0 < r.maxEntries) :
    ∃ limiter limiters order evicted capacityEvicted next heap',
      getLimiter newLimiter r key now heap = some (limiter,
        { r with limiters := limiters, lastSeenOrder := order, expiredEvicted := evicted,
                 capacityEvicted := capacityEvicted, nextCleanup := next }, heap')
      ∧ Linked limiters order
      ∧ access (live r.ttl now) r.maxEntries key heap.length now (swept r now)
          = (limiter, rows limiters order)
      ∧ (heap' = heap ∧ (∃ row ∈ rows r.limiters r.lastSeenOrder, row.value = limiter)
        ∨ heap' = heap ++ [newLimiter r.rps r.burst] ∧ limiter = heap.length)
      ∧ capacityEvicted
        = if (hit (live r.ttl now) key (swept r now)).isNone
            && full r.maxEntries (forget key (swept r now)) then r.capacityEvicted + 1
          else r.capacityEvicted := by
  obtain ⟨limiters₁, order₁, evicted₁, next, hrun, hlinked₁, hrows₁⟩ := cleanup_spec h now
  rw [getLimiter, hrun]
  simp only [Option.bind_eq_bind, Option.bind_some]
  rw [← hrows₁, access]
  -- not in the map, in time, or in the map past its time
  cases hkey : limiters₁.lookup key with
  | none =>
      have hmiss : hit (live r.ttl now) key (rows limiters₁ order₁) = none :=
        hlinked₁.no_hit fun entry hentry =>
          absurd (hkey.symm.trans hentry) (Option.some_ne_none entry).symm
      obtain ⟨limiters, order, capacityEvicted, hadd, hlinked, hrows, hevicted⟩ :=
        addLimiter_spec newLimiter now heap
          (r := { r with limiters := limiters₁, lastSeenOrder := order₁,
                         expiredEvicted := evicted₁, nextCleanup := next }) hlinked₁ hmax hkey
      rw [hmiss, hlinked₁.forget_of_none hkey]
      exact ⟨_, _, _, _, _, _, _, hadd, hlinked, congrArg _ hrows.symm, Or.inr ⟨rfl, rfl⟩, hevicted⟩
  | some entry =>
      dsimp only
      have hgone := hlinked₁.rows_removeEntry hkey
      have hlinked₂ := hlinked₁.removeEntry hkey
      split
      · next hlive =>
          have hhit := hlinked₁.hit_of_lookup hkey (decide_eq_true hlive)
          have hid : ∀ e ∈ (order₁.remove entry.order).elements, e.id ≠ entry.order :=
            fun e he => of_decide_eq_true (List.mem_filter.mp he).2
          have hlt := hlinked₁.made _ (hlinked₁.listed key entry hkey)
          -- moving to the back is taking the entry out and placing it again
          have hplace :=
            hlinked₂.place { entry with lastSeen := now } (AList.lookup_erase _ _) hid hlt le_rfl
          have hrows :=
            hlinked₂.rows_place { entry with lastSeen := now } (AList.lookup_erase _ _) order₁.made
          rw [insert_erase] at hplace hrows
          have hthere := swept_sublist.subset (hrows₁ ▸ (hit_eq_some hhit).1)
          rw [hhit, hlinked₁.moveToBack hkey, ← hgone]
          exact ⟨_, _, _, _, _, _, _, rfl, hplace, congrArg _ hrows.symm,
            Or.inl ⟨rfl, _, hthere, rfl⟩, rfl⟩
      · next hdead =>
          have hmiss : hit (live r.ttl now) key (rows limiters₁ order₁) = none := by
            -- an expired entry is removed first, which the cache does not see
            refine hlinked₁.no_hit fun entry' hentry' => ?_
            rw [Option.some.inj (hentry'.symm.trans hkey)]
            exact decide_eq_false hdead
          obtain ⟨limiters, order, capacityEvicted, hadd, hlinked, hrows, hevicted⟩ :=
            addLimiter_spec newLimiter now heap
              (r := { removeEntry { r with limiters := limiters₁, lastSeenOrder := order₁,
                                           expiredEvicted := evicted₁, nextCleanup := next }
                        key entry with expiredEvicted := evicted₁ + 1 })
              hlinked₂ hmax (AList.lookup_erase _ _)
          rw [hmiss, ← hgone]
          exact ⟨_, _, _, _, _, _, _, hadd, hlinked, congrArg _ hrows.symm,
            Or.inr ⟨rfl, rfl⟩, hevicted⟩

theorem stats_spec (h : Linked r.limiters r.lastSeenOrder) (now : Time) :
    ∃ result limiters order evicted next,
      stats r now = some (result,
        { r with limiters := limiters, lastSeenOrder := order, expiredEvicted := evicted,
                 nextCleanup := next })
      ∧ Linked limiters order ∧ rows limiters order = swept r now := by
  obtain ⟨limiters, order, evicted, next, hrun, hlinked, hrows⟩ := cleanup_spec h now
  rw [stats, hrun]
  exact ⟨_, _, _, _, _, rfl, hlinked, hrows⟩

end Specs

end RateLimitTable
