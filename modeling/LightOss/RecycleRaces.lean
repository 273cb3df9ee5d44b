import LightOss.RecycleRoundTrip

/-! # Recycle races — restores and purges that overlap

    A restore or a purge reads its items at one state of the tables and writes at a
    later one, when another call may have taken some of them.  It counts the rows it
    deletes, and rolls back when one is missing.  So in every order each row of the
    recycle bin is taken once, a folder is taken whole, and an object comes back once.

    `Taken.perm` is why: as many rows deleted as were read means exactly those.  The
    invariant `RacesOk` splits the rows that entered the bin into those there and those
    taken; the writes keep it (`RacesOk.restored`, `RacesOk.purged`), and so does any
    other request, whose new rows are of a group of its own (`RacesOk.request`). -/

namespace RecycleRaces

open KeyedTable Fallible LedgerRows Catalog CatalogSpecs MetadataServices ObjectServices
    RecycleMoves
open RequestRows RecycleRuns RecycleRoundTrip

/-! ## The calls and their steps -/

/-- The two requests that read their items first and act on them later. -/
inductive Action where
  | restore
  | purge
  deriving DecidableEq

/-- A call that has read its items and has not written yet. -/
structure Pending where
  action : Action
  groupItems : List RecycleBinObject

/-- The tables and the pending calls.  The rest is a record of the past: the group ids in
    use, the rows that came into the bin and where they went, and what restores inserted. -/
structure Races (k : Collation) where
  tables : Tables k
  calls : Nat → Option Pending := fun _ => none
  groups : List String := []
  entered : List RecycleBinObject := []
  restored : List RecycleBinObject := []
  purged : List RecycleBinObject := []
  dropped : List RecycleBinObject := []
  brought : List Object := []

variable {k : Collation}

/-- A call begins, or is done. -/
def Races.setCall (x : Races k) (call : Nat) (p : Option Pending) : Races k :=
  { x with calls := fun n => if n = call then p else x.calls n }

variable {c c' : Tables k} {x y : Races k} {groupItems : List RecycleBinObject}

/-- The rows of the bin of `c'` that the bin of `c` does not have. -/
def newRows (c c' : Tables k) : List RecycleBinObject :=
  c'.recycleBin.rows.filter fun r => decide (r ∉ c.recycleBin.rows)

/-- The rows that a step added. -/
def newObjects (c c' : Tables k) : List Object :=
  c'.objects.rows.filter fun o => decide (o ∉ c.objects.rows)

/-- Requests that the system runs in two steps; all others run in one. -/
def TakesItems : Request → Prop
  | .restore _ _ | .purge _ => True
  | _ => False

/-- What happens next: a call reads, writes or gives up, or another request runs. -/
inductive Event where
  | read (call : Nat)
  | wrote (call : Nat)
  | gaveUp (call : Nat)
  | request (request : Request)

/-- One step.  The other requests are single steps, and the group id of a delete is new. -/
inductive RaceStep (x : Races k) : Event → Races k → Prop where
  | readRestore {call itemID : Nat} {groupItems : List RecycleBinObject} :
      x.calls call = none → restoreReads x.tables itemID = .ok groupItems →
      RaceStep x (.read call) (x.setCall call (some ⟨.restore, groupItems⟩))
  | readPurge {call itemID : Nat} {groupItems : List RecycleBinObject} :
      x.calls call = none → purgeReads x.tables itemID = .ok groupItems →
      RaceStep x (.read call) (x.setCall call (some ⟨.purge, groupItems⟩))
  | restored {call : Nat} {groupItems : List RecycleBinObject} {updatedAt : Time}
      {c' : Tables k} :
      x.calls call = some ⟨.restore, groupItems⟩ →
      restoreItems x.tables groupItems updatedAt = .ok c' →
      RaceStep x (.wrote call) { x.setCall call none with
        tables := c'
        restored := x.restored ++ groupItems
        brought := x.brought ++ newObjects x.tables c' }
  | purged {call : Nat} {groupItems : List RecycleBinObject} {c' : Tables k}
      {released : List String} :
      x.calls call = some ⟨.purge, groupItems⟩ →
        purgeItems groupItems x.tables = .ok (c', released) →
      RaceStep x (.wrote call) { x.setCall call none with
        tables := c'
        purged := x.purged ++ groupItems }
  | gaveUp {call : Nat} : RaceStep x (.gaveUp call) (x.setCall call none)
  | request {request : Request} {c' : Tables k} :
      ¬ TakesItems request → (∀ group, groupOf request = some group → group ∉ x.groups) →
      request.run x.tables = .ok c' →
      RaceStep x (.request request) { x with
        tables := c'
        groups := x.groups ++ (groupOf request).toList
        entered := x.entered ++ newRows x.tables c'
        dropped := x.dropped ++ newRows c' x.tables }

/-- Calls to restore and to purge over common tables, in any order. -/
def raceSystem (k : Collation) : StepSystem.System (Races k) Event where
  start x := x = { tables := {} }
  step := RaceStep

/-! ## The invariant -/

/-- What a pending call read: rows of the bin, and with a marker its whole group. -/
structure PendingOk (x : Races k) (groupItems : List RecycleBinObject) : Prop where
  entered : ∀ i ∈ groupItems, i ∈ x.entered
  whole : ∀ a ∈ groupItems, recycleBinObjectType a = .directory →
    ∀ b ∈ x.tables.recycleBin.rows, b.deleteGroupID = a.deleteGroupID → b ∈ groupItems

/-- The invariant: every row that entered the bin is there or was taken once, and a folder
    is taken whole. -/
structure RacesOk (x : Races k) : Prop where
  ids : ∀ r ∈ x.entered, r.id < x.tables.nextRecycleID
  distinct : (x.entered.map (·.id)).Nodup
  parts : x.entered.Perm (x.tables.recycleBin.rows ++ (x.restored ++ (x.purged ++ x.dropped)))
  groups : ∀ r ∈ x.entered, r.deleteGroupID ∈ x.groups
  pending : ∀ call p, x.calls call = some p → PendingOk x p.groupItems
  whole : ∀ a ∈ x.restored ++ x.purged, recycleBinObjectType a = .directory →
    ∀ b ∈ x.tables.recycleBin.rows, b.deleteGroupID ≠ a.deleteGroupID
  brought : x.brought.map content
    = (restoreTargets x.restored).map fun r => content (restoredObject 0 r)

theorem RacesOk.row_entered (h : RacesOk x) {r : RecycleBinObject}
    (hr : r ∈ x.tables.recycleBin.rows) : r ∈ x.entered :=
  h.parts.mem_iff.mpr (List.mem_append_left _ hr)

/-- A row that was taken entered it before. -/
theorem RacesOk.taken_entered (h : RacesOk x) {r : RecycleBinObject}
    (hr : r ∈ x.restored ++ x.purged) : r ∈ x.entered := by
  refine h.parts.mem_iff.mpr (List.mem_append_right _ ?_)
  rcases List.mem_append.mp hr with hr | hr
  · exact List.mem_append_left _ hr
  · exact List.mem_append_right _ (List.mem_append_left _ hr)

/-- The calls after one was set: the new one or one from before. -/
theorem calls_setCall {call n : Nat} {p : Option Pending} {q : Pending}
    (h : (x.setCall call p).calls n = some q) : p = some q ∨ x.calls n = some q := by
  rw [Races.setCall] at h
  dsimp only at h
  split at h
  · exact Or.inl h
  · exact Or.inr h

/-! ## Reads -/

/-- With a marker a call reads the whole group. -/
theorem load_whole {item a b : RecycleBinObject} (ha : a ∈ loadRecycleBinActionItems c item)
    (htype : recycleBinObjectType a = .directory) (hb : b ∈ c.recycleBin.rows)
    (hgroup : b.deleteGroupID = a.deleteGroupID) : b ∈ loadRecycleBinActionItems c item := by
  rw [loadRecycleBinActionItems] at ha ⊢
  split at ha
  · next hfile =>
      rw [List.mem_singleton.mp ha] at htype
      exact absurd htype hfile
  · next hdirectory =>
      rw [if_neg hdirectory]
      have hsame := (Table.mem_select.mp (List.mem_mergeSort.mp ha)).2
      refine List.mem_mergeSort.mpr (Table.mem_select.mpr ⟨hb, ?_⟩)
      rw [beq_iff_eq] at hsame ⊢
      exact hgroup.trans hsame

/-- What a call has just read is in the bin. -/
theorem pendingOk_load (h : RacesOk x) {item : RecycleBinObject}
    (hitem : item ∈ x.tables.recycleBin.rows) :
    PendingOk x (loadRecycleBinActionItems x.tables item) where
  entered := fun i hi => h.row_entered ((loadRecycleBinActionItems_rows hitem).2 i hi)
  whole := fun _ ha htype _ hb hgroup => load_whole ha htype hb hgroup

/-- A change of the calls alone. -/
theorem RacesOk.setCall (h : RacesOk x) (call : Nat) {p : Option Pending}
    (hp : ∀ q, p = some q → PendingOk x q.groupItems) : RacesOk (x.setCall call p) where
  ids := h.ids
  distinct := h.distinct
  parts := h.parts
  groups := h.groups
  pending := by
    intro n q hq
    have hok : PendingOk x q.groupItems := (calls_setCall hq).elim (hp q) (h.pending n q)
    exact ⟨hok.entered, hok.whole⟩
  whole := h.whole
  brought := h.brought

/-! ## Writes -/

/-- A call deleted as many rows as it had read. -/
structure Taken (c c' : Tables k) (groupItems : List RecycleBinObject) : Prop where
  rows : c'.recycleBin.rows
    = c.recycleBin.rows.filter fun r => !decide (r.id ∈ groupItems.map (·.id))
  all : c.recycleBin.count (fun r => decide (r.id ∈ groupItems.map (·.id))) = groupItems.length
  nextRecycleID : c'.nextRecycleID = c.nextRecycleID

/-- **The count decides**: as many rows as were read means exactly the rows that were read. -/
theorem Taken.perm (h : RacesOk x) (hp : PendingOk x groupItems)
    (ht : Taken x.tables c' groupItems) :
    x.tables.recycleBin.rows.Perm (c'.recycleBin.rows ++ groupItems) := by
  have hsub : ∀ r ∈ x.tables.recycleBin.rows.filter fun r => decide (r.id ∈ groupItems.map (·.id)),
      r ∈ groupItems := by
    intro r hr
    obtain ⟨hrow, hid⟩ := List.mem_filter.mp hr
    obtain ⟨i, hi, hsame⟩ := List.mem_map.mp (of_decide_eq_true hid)
    -- ids never repeat, so a row with an id that was read is the row that was read
    rwa [← List.inj_on_of_nodup_map h.distinct (hp.entered i hi) (h.row_entered hrow) hsame]
  have hnodup :=
    x.tables.recycleBin.rows_nodup.filter fun r => decide (r.id ∈ groupItems.map (·.id))
  have hgone : (x.tables.recycleBin.rows.filter fun r => decide (r.id ∈ groupItems.map (·.id))).Perm
      groupItems := (List.subperm_of_subset hnodup hsub).perm_of_length_le ht.all.ge
  rw [ht.rows]
  refine (List.filter_append_perm (fun r => decide (r.id ∈ groupItems.map (·.id))) _).symm.trans ?_
  exact List.perm_append_comm.trans (hgone.append_left _)

/-- The rows that stay are the ones that were not taken. -/
theorem Taken.gone (ht : Taken c c' groupItems) {r : RecycleBinObject}
    (hr : r ∈ c'.recycleBin.rows) :
    r ∈ c.recycleBin.rows ∧ r ∉ groupItems := by
  obtain ⟨hrow, hid⟩ := List.mem_filter.mp (ht.rows ▸ hr)
  refine ⟨hrow, fun hmem => ?_⟩
  rw [Bool.not_eq_true', decide_eq_false_iff_not] at hid
  exact hid (List.mem_map_of_mem hmem)

/-- A call that wrote keeps the invariant; `y` says where its items are recorded. -/
theorem RacesOk.taken (h : RacesOk x) (hp : PendingOk x groupItems)
    (ht : Taken x.tables y.tables groupItems) (hentered : y.entered = x.entered)
    (hgroups : y.groups = x.groups) (hcalls : ∀ n q, y.calls n = some q → x.calls n = some q)
    (hparts : (y.restored ++ (y.purged ++ y.dropped)).Perm
      (groupItems ++ (x.restored ++ (x.purged ++ x.dropped))))
    (htaken : ∀ a ∈ y.restored ++ y.purged, a ∈ groupItems ∨ a ∈ x.restored ++ x.purged)
    (hbrought : y.brought.map content
      = (restoreTargets y.restored).map fun r => content (restoredObject 0 r)) : RacesOk y where
  ids := by
    rw [hentered, ht.nextRecycleID]
    exact h.ids
  distinct := hentered ▸ h.distinct
  parts := by
    rw [hentered]
    refine h.parts.trans (((ht.perm h hp).append_right _).trans ?_)
    rw [List.append_assoc]
    exact hparts.symm.append_left _
  groups := by
    rw [hentered, hgroups]
    exact h.groups
  pending := by
    intro n q hq
    have hok := h.pending n q (hcalls n q hq)
    exact ⟨hentered ▸ hok.entered, fun a ha htype b hb => hok.whole a ha htype b (ht.gone hb).1⟩
  whole := by
    intro a ha htype b hb hgroup
    obtain ⟨hrow, hnot⟩ := ht.gone hb
    rcases htaken a ha with hmem | hold
    · exact hnot (hp.whole a hmem htype b hrow hgroup)
    · exact h.whole a hold htype b hrow hgroup
  brought := hbrought

/-- The objects a restore inserts, up to their ids and times. -/
theorem newObjects_restored {updatedAt : Time} (h : Restored c c' groupItems updatedAt) :
    (newObjects c c').map content
      = (restoreTargets groupItems).map fun r => content (restoredObject 0 r) := by
  have hnew : newObjects c c'
      = objectsWithIDs c.nextObjectID
          ((restoreTargets groupItems).map (restoredObject updatedAt)) := by
    have hnodup := c'.objects.rows_nodup
    rw [h.objects] at hnodup
    -- the table has each row once, so no inserted row is an old one
    have hapart := (List.nodup_append.mp hnodup).2.2
    rw [newObjects, h.objects, List.filter_append, List.filter_eq_nil_iff.mpr, List.nil_append,
      List.filter_eq_self.mpr]
    · exact fun o ho => decide_eq_true fun hold => hapart o hold o ho rfl
    · exact fun o ho hnot => of_decide_eq_true hnot ho
  rw [hnew, content_objectsWithIDs, List.map_map]
  rfl

/-- A restore that writes: its rows are counted as restored, and its objects as brought
    back. -/
theorem RacesOk.restored {call : Nat} {updatedAt : Time} (h : RacesOk x)
    (hcall : x.calls call = some ⟨.restore, groupItems⟩)
    (hrestore : restoreItems x.tables groupItems updatedAt = .ok c') :
    RacesOk { x.setCall call none with
      tables := c'
      restored := x.restored ++ groupItems
      brought := x.brought ++ newObjects x.tables c' } := by
  have hrestored := restoreItems_ok hrestore
  refine h.taken (h.pending call _ hcall)
    ⟨hrestored.recycleBin, hrestored.all, hrestored.nextRecycleID⟩ rfl rfl (fun n q hq => ?_) ?_
    (fun a ha => ?_) ?_
  · exact (calls_setCall hq).resolve_left (Option.some_ne_none q).symm
  · rw [Races.setCall]
    refine List.perm_iff_count.mpr fun r => ?_
    simp only [List.count_append]
    omega
  · simp only [List.mem_append] at ha ⊢
    tauto
  · rw [List.map_append, h.brought, newObjects_restored hrestored, restoreTargets, restoreTargets,
      restoreTargets, List.filter_append, List.map_append]

/-- A purge that writes: its rows are counted as purged. -/
theorem RacesOk.purged {call : Nat} {released : List String} (h : RacesOk x)
    (hcall : x.calls call = some ⟨.purge, groupItems⟩)
    (hpurge : purgeItems groupItems x.tables = .ok (c', released)) :
    RacesOk { x.setCall call none with
      tables := c'
      purged := x.purged ++ groupItems } := by
  have hpurged := (purgeItems_ok hpurge).1
  have htables := hpurged.tables
  refine h.taken (h.pending call _ hcall) ⟨?_, hpurged.all, ?_⟩ rfl rfl (fun n q hq => ?_) ?_
    (fun a ha => ?_) h.brought
  · rw [htables]
    rfl
  · rw [htables]
  · exact (calls_setCall hq).resolve_left (Option.some_ne_none q).symm
  · rw [Races.setCall]
    refine List.perm_iff_count.mpr fun r => ?_
    simp only [List.count_append]
    omega
  · rw [Races.setCall] at ha
    simp only [List.mem_append] at ha ⊢
    tauto

/-! ## The other requests -/

/-- Two lists, each with what the other adds. -/
theorem swap_perm {α : Type} [DecidableEq α] {as bs : List α} (has : as.Nodup) (hbs : bs.Nodup) :
    (as ++ bs.filter fun a => decide (a ∉ as)).Perm (bs ++ as.filter fun a => decide (a ∉ bs)) := by
  have hnodup : ∀ {as bs : List α}, as.Nodup → bs.Nodup →
      (as ++ bs.filter fun a => decide (a ∉ as)).Nodup := by
    intro as bs has hbs
    refine List.nodup_append.mpr ⟨has, hbs.filter _, fun a ha b hb heq => ?_⟩
    exact of_decide_eq_true (List.mem_filter.mp hb).2 (heq ▸ ha)
  refine (List.perm_ext_iff_of_nodup (hnodup has hbs) (hnodup hbs has)).mpr fun a => ?_
  simp only [List.mem_append, List.mem_filter, decide_eq_true_eq]
  tauto

/-- No two rows of the bin have one id. -/
theorem ids_nodup (c : Tables k) : (c.recycleBin.rows.map (·.id)).Nodup :=
  List.pairwise_map.mpr (c.recycleBin.unique.imp fun hclash => beq_eq_false_iff_ne.mp hclash)

/-- Any other request: rows it takes out are counted as dropped, rows it brings in belong to
    a new group. -/
theorem RacesOk.request {request : Request} (h : RacesOk x)
    (hnew : ∀ group, groupOf request = some group → group ∉ x.groups)
    (hrun : request.run x.tables = .ok c') :
    RacesOk { x with
      tables := c'
      groups := x.groups ++ (groupOf request).toList
      entered := x.entered ++ newRows x.tables c'
      dropped := x.dropped ++ newRows c' x.tables } := by
  have harrives := arrives_of_run hrun
  have hnewRow : ∀ r ∈ newRows x.tables c', x.tables.nextRecycleID ≤ r.id ∧ r.id < c'.nextRecycleID
      ∧ groupOf request = some r.deleteGroupID := fun r hr =>
    (harrives.rows r (List.mem_filter.mp hr).1).resolve_left
    (of_decide_eq_true (List.mem_filter.mp hr).2)
  -- a row of a group in use was there before
  have hold : ∀ b ∈ c'.recycleBin.rows, b.deleteGroupID ∈ x.groups → b ∈ x.tables.recycleBin.rows :=
    fun b hb hgroup => (harrives.rows b hb).resolve_right fun harrived =>
      hnew _ harrived.2.2 hgroup
  refine ⟨fun r hr => ?_, ?_, ?_, fun r hr => ?_, fun n q hq => ?_,
    fun a ha htype b hb hgroup => ?_,
    h.brought⟩
  · rcases List.mem_append.mp hr with hr | hr
    · exact Nat.lt_of_lt_of_le (h.ids r hr) harrives.next
    · exact (hnewRow r hr).2.1
  · rw [List.map_append]
    refine List.nodup_append.mpr ⟨h.distinct, ?_, fun i hi j hj heq => ?_⟩
    · exact (ids_nodup c').sublist (List.filter_sublist.map _)
    · obtain ⟨a, ha, rfl⟩ := List.mem_map.mp hi
      obtain ⟨b, hb, rfl⟩ := List.mem_map.mp hj
      have hlow := h.ids a ha
      have hhigh := (hnewRow b hb).1
      omega
  -- what the request took from the bin is dropped, what it brought has entered
  · have hswap := swap_perm x.tables.recycleBin.rows_nodup c'.recycleBin.rows_nodup
    refine List.perm_iff_count.mpr fun r => ?_
    have hparts := h.parts.count_eq r
    have hswap := hswap.count_eq r
    rw [newRows, newRows]
    simp only [List.count_append] at hparts hswap ⊢
    omega
  · rcases List.mem_append.mp hr with hr | hr
    · exact List.mem_append_left _ (h.groups r hr)
    · exact List.mem_append_right _ (Option.mem_toList.mpr (hnewRow r hr).2.2)
  · have hok := h.pending n q hq
    refine ⟨fun i hi => List.mem_append_left _ (hok.entered i hi), fun a ha htype b hb hgroup => ?_⟩
    have hused := h.groups a (hok.entered a ha)
    exact hok.whole a ha htype b (hold b hb (hgroup ▸ hused)) hgroup
  · have hused := h.groups a (h.taken_entered ha)
    exact h.whole a ha htype b (hold b hb (hgroup ▸ hused)) hgroup

/-! ## Every run -/

/-- **The step lemma**: one case for each event. -/
theorem racesOk_step {e : Event} (h : RacesOk x) (hstep : RaceStep x e y) : RacesOk y := by
  cases hstep with
  | readRestore hcall hread =>
      obtain ⟨item, hitem, -, rfl, -, -⟩ := restoreReads_ok hread
      refine h.setCall _ fun q hq => ?_
      rw [← Option.some.inj hq]
      exact pendingOk_load h hitem
  | readPurge hcall hread =>
      obtain ⟨item, hitem, -, rfl⟩ := purgeReads_ok hread
      refine h.setCall _ fun q hq => ?_
      rw [← Option.some.inj hq]
      exact pendingOk_load h hitem
  | restored hcall hrestore => exact h.restored hcall hrestore
  | purged hcall hpurge => exact h.purged hcall hpurge
  | gaveUp => exact h.setCall _ fun q hq => absurd hq.symm (Option.some_ne_none _)
  | request hother hnew hrun => exact h.request hnew hrun

/-- **The run lemma.** -/
theorem racesOk_of_reachable (h : StepSystem.Reachable (raceSystem k) x) : RacesOk x := by
  refine StepSystem.Reachable.invariant (I := RacesOk) ?_ (fun x e y _ hx => racesOk_step hx) h
  rintro x rfl
  exact ⟨List.forall_mem_nil _, List.nodup_nil, .refl _, List.forall_mem_nil _,
    fun _ _ hq => absurd hq.symm (Option.some_ne_none _), List.forall_mem_nil _, rfl⟩

/-- **Taken once**: in every order of reads and writes, each row that came into the bin is still
    there or was taken by one call, a marker that was taken left no row of its group, and the
    objects that came back are those of the restored rows, each once. -/
theorem taken_once (h : StepSystem.Reachable (raceSystem k) x) :
    x.entered.Perm (x.tables.recycleBin.rows ++ (x.restored ++ (x.purged ++ x.dropped)))
      ∧ (x.entered.map (·.id)).Nodup
      ∧ (∀ a ∈ x.restored ++ x.purged, recycleBinObjectType a = .directory →
          ∀ b ∈ x.tables.recycleBin.rows, b.deleteGroupID ≠ a.deleteGroupID)
      ∧ x.brought.map content
        = (restoreTargets x.restored).map fun r => content (restoredObject 0 r) := by
  have hok := racesOk_of_reachable h
  exact ⟨hok.parts, hok.distinct, hok.whole, hok.brought⟩

/-! ## Runs of requests are such runs -/

/-- A call that was set and is done leaves no call open. -/
theorem setCall_done (hcalls : ∀ n, x.calls n = none) (call : Nat) (p : Option Pending) (n : Nat) :
    ((x.setCall call p).setCall call none).calls n = none := by
  by_cases hn : n = call
  · exact if_pos hn
  · exact (if_neg hn).trans ((if_neg hn).trans (hcalls n))

theorem setCall_self (call : Nat) (p : Pending) : (x.setCall call (some p)).calls call = some p :=
  if_pos rfl

/-- A request is one step, or a read and a write at once. -/
theorem reach_request {request : Request} (hx : StepSystem.Reachable (raceSystem k) x)
    (hcalls : ∀ n, x.calls n = none)
    (hnew : ∀ group, groupOf request = some group → group ∉ x.groups)
    (hran : request.run x.tables = .ok c') :
    ∃ y, StepSystem.Reachable (raceSystem k) y ∧ y.tables = c' ∧ (∀ n, y.calls n = none)
      ∧ y.groups = x.groups ++ (groupOf request).toList := by
  by_cases htakes : TakesItems request
  · cases request with
    | restore itemID updatedAt =>
        obtain ⟨groupItems, hread, hitems⟩ := bind_eq_ok.mp hran
        have hpending := hx.step (RaceStep.readRestore (hcalls 0) hread)
        refine ⟨_, hpending.step (RaceStep.restored (setCall_self 0 _) hitems), rfl, ?_, ?_⟩
        · exact setCall_done hcalls 0 _
        · exact (List.append_nil _).symm
    | purge itemID =>
        obtain ⟨⟨m, released⟩, hm, rfl⟩ := map_eq_ok.mp hran
        obtain ⟨groupItems, hread, hitems⟩ := bind_eq_ok.mp hm
        have hpending := hx.step (RaceStep.readPurge (hcalls 0) hread)
        refine ⟨_, hpending.step (RaceStep.purged (setCall_self 0 _) hitems), rfl, ?_, ?_⟩
        · exact setCall_done hcalls 0 _
        · exact (List.append_nil _).symm
    | _ => exact htakes.elim
  · exact ⟨_, hx.step (RaceStep.request htakes hnew hran), rfl, hcalls, rfl⟩

/-- The group of the first request and those of the rest. -/
theorem groupsOf_cons (request : Request) (rest : List Request) :
    groupsOf (request :: rest) = (groupOf request).toList ++ groupsOf rest := by
  rw [groupsOf, groupsOf]
  cases hgroup : groupOf request with
  | none =>
      rw [List.filterMap_cons_none hgroup]
      rfl
  | some group =>
      rw [List.filterMap_cons_some hgroup]
      rfl

/-- Calls that write at once: every run of requests with their own groups. -/
theorem races_of_run {requests : List Request}
    (hrun : StepSystem.Run (requestSystem k) c requests c') :
    (groupsOf requests).Nodup → ∀ {x : Races k}, StepSystem.Reachable (raceSystem k) x →
      x.tables = c →
      (∀ n, x.calls n = none) → (∀ group ∈ groupsOf requests, group ∉ x.groups) →
        ∃ y, StepSystem.Reachable (raceSystem k) y ∧ y.tables = c' ∧ ∀ n, y.calls n = none := by
  induction hrun with
  | nil c => exact fun _ {x} hx htables hcalls _ => ⟨x, hx, htables, hcalls⟩
  | @cons s t u request rest hstep _ ih =>
      intro hnodup x hx htables hcalls hnew
      subst htables
      rw [groupsOf_cons] at hnodup hnew
      obtain ⟨-, hrest, hapart⟩ := List.nodup_append.mp hnodup
      have hnewRest : ∀ group ∈ groupsOf rest, group ∉ x.groups := fun group hmem =>
        hnew group (List.mem_append_right _ hmem)
      obtain ⟨-, hran | rfl⟩ := hstep
      · have hnewHere : ∀ group, groupOf request = some group →
            group ∉ x.groups := fun group hgroup =>
          hnew group (List.mem_append_left _ (Option.mem_toList.mpr hgroup))
        obtain ⟨y, hy, rfl, hyCalls, hgroups⟩ := reach_request hx hcalls hnewHere hran
        refine ih hrest hy rfl hyCalls fun group hmem hused => ?_
        rcases List.mem_append.mp (hgroups ▸ hused) with hused | hused
        · exact hnewRest group hmem hused
        · exact hapart group hused group hmem rfl
      · exact ih hrest hx rfl hcalls hnewRest

/-! ## A race -/

/-- An item is among the items of its own action. -/
theorem mem_load {item : RecycleBinObject} (hitem : item ∈ c.recycleBin.rows) :
    item ∈ loadRecycleBinActionItems c item := by
  rw [loadRecycleBinActionItems]
  split
  · exact List.mem_cons_self
  · exact List.mem_mergeSort.mpr (Table.mem_select.mpr ⟨hitem, beq_self_eq_true _⟩)

/-- A purge of an item in the bin reads that item's group. -/
theorem purgeReads_of_mem {item : RecycleBinObject} (hitem : item ∈ c.recycleBin.rows) :
    purgeReads c item.id = .ok (loadRecycleBinActionItems c item) :=
  bind_eq_ok.mpr ⟨item, mapError_eq_ok.mpr (findRecycle_of_mem hitem), rfl⟩

/-- A purge succeeds when all of its rows are still there. -/
theorem purgeItems_fits (hrows : ∀ i ∈ groupItems, i ∈ c.recycleBin.rows)
    (hnodup : groupItems.Nodup) :
    ∃ c' released, purgeItems groupItems c = .ok (c', released) :=
  ⟨_, _, bind_eq_ok.mpr
    ⟨(), ensure_eq_ok.mpr (select_recycle_ids_perm hrows hnodup).length_eq, rfl⟩⟩

/-- Two calls read the same row of the deleted folder `docs`, and one of them purges it. -/
theorem taken_once_docs : ∃ x : Races Collation.binary,
    StepSystem.Reachable (raceSystem Collation.binary) x ∧ x.purged ≠ [] ∧ x.calls 1 ≠ none
    ∧ x.entered.Perm (x.tables.recycleBin.rows ++ (x.restored ++ (x.purged ++ x.dropped)))
    ∧ (x.entered.map (·.id)).Nodup
    ∧ (∀ a ∈ x.restored ++ x.purged, recycleBinObjectType a = .directory →
        ∀ b ∈ x.tables.recycleBin.rows, b.deleteGroupID ≠ a.deleteGroupID)
    ∧ x.brought.map content
      = (restoreTargets x.restored).map fun r => content (restoredObject 0 r) := by
  have hne : docsDeleted.recycleBin.rows ≠ [] := List.cons_ne_nil _ _
  have hstart : StepSystem.Reachable (raceSystem Collation.binary) { tables := {} } := .start rfl
  obtain ⟨y, hy, htables, hcalls⟩ :=
    races_of_run run_docsDeleted (by decide) hstart rfl (fun _ => rfl)
    fun _ _ => List.not_mem_nil
  rw [← htables] at hne
  obtain ⟨item, hitem⟩ := List.exists_mem_of_ne_nil _ hne
  obtain ⟨hnodup, hrows⟩ := loadRecycleBinActionItems_rows hitem
  obtain ⟨c', released, hpurge⟩ := purgeItems_fits hrows hnodup
  let p : Pending := ⟨.purge, loadRecycleBinActionItems y.tables item⟩
  have hfirst : StepSystem.Reachable (raceSystem Collation.binary) (y.setCall 0 (some p)) :=
    hy.step (RaceStep.readPurge (hcalls 0) (purgeReads_of_mem hitem))
  have hfree : (y.setCall 0 (some p)).calls 1 = none := hcalls 1
  have hsecond : StepSystem.Reachable (raceSystem Collation.binary)
      ((y.setCall 0 (some p)).setCall 1 (some p)) :=
    hfirst.step (RaceStep.readPurge hfree (purgeReads_of_mem hitem))
  have hcall : ((y.setCall 0 (some p)).setCall 1 (some p)).calls 0 = some p := rfl
  have hwrote := hsecond.step (RaceStep.purged hcall hpurge)
  refine ⟨_, hwrote, ?_, Option.some_ne_none _, taken_once hwrote⟩
  exact List.append_ne_nil_of_right_ne_nil _ (List.ne_nil_of_mem (mem_load hitem))

end RecycleRaces
