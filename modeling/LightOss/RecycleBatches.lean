import LightOss.RecycleRaces

/-! # Recycle batches — many items in one request

    `RestoreObjects` and `DeleteObjects` run one transaction for each id and report
    the ids that failed.  A marker takes its whole group along, so what a purge finds
    depends on the order of the ids.  What is left in the end does not: the rows that
    no id names, of the groups whose marker no id names.  A restore may also find a key
    in use, so a batch of restores is told by what left the bin and what came back.

    Both loops are described from any state on (`PurgedBatch`, `RestoredBatch`), so the
    induction is on the ids: the first round, which may fail, and the rounds behind it
    (`purgedBatch_found`, `purgedBatch_failed`, `restoredBatch_ok`,
    `restoredBatch_failed`). -/

namespace RecycleBatches

open KeyedTable Fallible LedgerRows Catalog CatalogSpecs MetadataServices ObjectServices
    RecycleMoves
open RecycleListing RecyclePages RecycleRaces RecycleRoundTrip ExplorerBatchDelete Addressable

variable {k : Collation} {c m : Tables k} {ids : List Nat}
  {release : Nat → Except Err Unit}

/-! ## The requests -/

/-- `RecycleBinFailedItem`: an item of the request that was not acted on, and why. -/
structure RecycleBinFailedItem where
  id : Nat
  bucketName : String
  path : String
  code : String
  message : String

/-- The report of an action on `c` that ended with `err`; the place is known once the item
    was found. -/
def failedItem (c : Tables k) (itemID : Nat) (err : Err) : RecycleBinFailedItem :=
  let place := ((findRecycle c itemID).map fun item =>
    (item.bucketName, recycleBinObjectPath item)).toOption.getD ("", "")
  { id := itemID
    bucketName := place.1
    path := place.2
    code := (appErrorFrom err).1
    message := (appErrorFrom err).2 }

/-- The loop of `validateRecycleBinItemIDs`; `seen` has the ids of `normalized`. -/
def addItemID (normalized : List Nat) (itemID : Nat) : Except Err (List Nat) :=
  if itemID = 0 then .error (invalidRequest "item_ids must contain positive integers")
  else if itemID ∈ normalized then .ok normalized
  else .ok (normalized ++ [itemID])

/-- `validateRecycleBinItemIDs`: one id at least, 200 at most, each counted once. -/
def validateRecycleBinItemIDs (itemIDs : List Nat) : Except Err (List Nat) := do
  ensure (itemIDs ≠ []) (invalidRequest "item_ids must contain at least one entry")
  ensure (itemIDs.length ≤ maxExplorerLimit)
    (invalidRequest "item_ids must contain at most 200 entries")
  itemIDs.foldlM addItemID []

/-- The tables and the result of the loop; `FailedCount` is the length of the list. -/
structure Batch (k : Collation) where
  tables : Tables k
  count : Nat := 0
  failedItems : List RecycleBinFailedItem := []

/-- One round of the loop: the tables of a success, or a failed item. -/
def actOnItem (act : Tables k → Nat → Except Err (Tables k)) (s : Batch k) (itemID : Nat) :
    Batch k :=
  match act s.tables itemID with
  | .ok c => { s with tables := c, count := s.count + 1 }
  | .error err => { s with failedItems := s.failedItems ++ [failedItem s.tables itemID err] }

/-- The loop of `RestoreObjects` and of `DeleteObjects`. -/
def actOnItems (act : Tables k → Nat → Except Err (Tables k)) (c : Tables k) (itemIDs : List Nat) :
    Except Err (Batch k) := do
  let normalizedIDs ← validateRecycleBinItemIDs itemIDs
  return normalizedIDs.foldl (actOnItem act) { tables := c }

/-- `RestoreObjects`, with the time of each transaction. -/
def restoreObjects (c : Tables k) (itemIDs : List Nat) (updatedAt : Nat → Time) :
    Except Err (Batch k) :=
  actOnItems (fun c itemID => restoreObject c itemID (updatedAt itemID)) c itemIDs

/-- `deleteObject`; `release` is how the ledger's part of the transaction for an id ends. -/
def purge (release : Nat → Except Err Unit) (c : Tables k) (itemID : Nat) :
    Except Err (Tables k) := do
  let (c, _) ← purgeMetadata itemID c
  release itemID
  return c

/-- `DeleteObjects`. -/
def deleteObjects (c : Tables k) (release : Nat → Except Err Unit) (itemIDs : List Nat) :
    Except Err (Batch k) :=
  actOnItems (purge release) c itemIDs

/-! ## The loop -/

/-- The ids that are acted on are distinct and the ones of the request. -/
theorem addItemIDs_ok : ∀ (itemIDs : List Nat) {start ids : List Nat},
    itemIDs.foldlM addItemID start = .ok ids → start.Nodup →
      ids.Nodup ∧ ∀ id, id ∈ ids ↔ id ∈ start ∨ id ∈ itemIDs := by
  intro itemIDs
  induction itemIDs with
  | nil =>
      intro start ids h hstart
      cases pure_eq_ok.mp h
      exact ⟨hstart, fun id => (or_iff_left List.not_mem_nil).symm⟩
  | cons itemID rest ih =>
      intro start ids h hstart
      rw [List.foldlM_cons] at h
      obtain ⟨m, hm, h⟩ := bind_eq_ok.mp h
      rw [addItemID] at hm
      split at hm
      · cases hm
      · split at hm
        -- an id seen before is skipped
        · next hseen =>
            cases hm
            obtain ⟨hnodup, hmem⟩ := ih h hstart
            refine ⟨hnodup, fun id => ?_⟩
            rw [hmem, List.mem_cons]
            grind
        · next hnew =>
            cases hm
            have hstart' : (start ++ [itemID]).Nodup := by
              rw [List.nodup_append]
              refine ⟨hstart, List.nodup_singleton _, fun a ha b hb heq => hnew ?_⟩
              rwa [← List.mem_singleton.mp hb, ← heq]
            obtain ⟨hnodup, hmem⟩ := ih h hstart'
            refine ⟨hnodup, fun id => ?_⟩
            rw [hmem, List.mem_append, List.mem_singleton, List.mem_cons, or_assoc]

/-- The ids of a batch are the requested ones, each once. -/
theorem validate_ok {itemIDs : List Nat} (h : validateRecycleBinItemIDs itemIDs = .ok ids) :
    ids.Nodup ∧ ∀ id, id ∈ ids ↔ id ∈ itemIDs := by
  rw [validateRecycleBinItemIDs] at h
  obtain ⟨_, -, h⟩ := bind_eq_ok.mp h
  obtain ⟨_, -, h⟩ := bind_eq_ok.mp h
  obtain ⟨hnodup, hmem⟩ := addItemIDs_ok itemIDs h List.nodup_nil
  exact ⟨hnodup, fun id => (hmem id).trans (or_iff_right List.not_mem_nil)⟩

/-- As many ids are acted on as different ones were requested. -/
theorem validate_length {itemIDs : List Nat} (h : validateRecycleBinItemIDs itemIDs = .ok ids) :
    ids.length = itemIDs.dedup.length ∧ ∀ id, id ∈ ids ↔ id ∈ itemIDs := by
  obtain ⟨hnodup, hmem⟩ := validate_ok h
  refine ⟨List.Perm.length_eq ((List.perm_ext_iff_of_nodup hnodup itemIDs.nodup_dedup).mpr
    fun id => ?_), hmem⟩
  rw [hmem, List.mem_dedup]

theorem actOnItem_ok {act : Tables k → Nat → Except Err (Tables k)} {s : Batch k} {itemID : Nat}
    {c : Tables k} (h : act s.tables itemID = .ok c) :
    actOnItem act s itemID = { s with tables := c, count := s.count + 1 } := by
  rw [actOnItem, h]

/-- A round that fails leaves the tables alone. -/
theorem actOnItem_error {act : Tables k → Nat → Except Err (Tables k)} {s : Batch k} {itemID : Nat}
    {err : Err} (h : act s.tables itemID = .error err) : actOnItem act s itemID
      = { s with failedItems := s.failedItems ++ [failedItem s.tables itemID err] } := by
  rw [actOnItem, h]

/-- Every id is counted once, as done or as failed. -/
theorem counted (act : Tables k → Nat → Except Err (Tables k)) : ∀ (ids : List Nat) (s : Batch k),
    (ids.foldl (actOnItem act) s).count + (ids.foldl (actOnItem act) s).failedItems.length
      = s.count + s.failedItems.length + ids.length := by
  intro ids
  induction ids with
  | nil => exact fun _ => rfl
  | cons id rest ih =>
      intro s
      rw [List.foldl_cons, ih, List.length_cons]
      cases hact : act s.tables id with
      | ok c =>
          rw [actOnItem_ok hact]
          dsimp only
          omega
      | error err =>
          rw [actOnItem_error hact]
          dsimp only
          rw [List.length_append, List.length_singleton]
          omega

/-! ## One purge -/

/-- An action takes its item, and with a marker its group. -/
theorem load_cases {item r : RecycleBinObject} (hr : r ∈ loadRecycleBinActionItems c item) :
    r = item ∨ (recycleBinObjectType item = .directory ∧ r.deleteGroupID = item.deleteGroupID) := by
  rw [loadRecycleBinActionItems] at hr
  split at hr
  · exact Or.inl (List.mem_singleton.mp hr)
  · next hdirectory =>
      have hsame := (Table.mem_select.mp (List.mem_mergeSort.mp hr)).2
      exact Or.inr ⟨not_not.mp hdirectory, beq_iff_eq.mp hsame⟩

/-- The metadata of the purge of an item that is there. -/
theorem purgeMetadata_found {item : RecycleBinObject} (hitem : item ∈ c.recycleBin.rows) :
    ∃ c' released, purgeMetadata item.id c = .ok (c', released)
      ∧ Purged c c' (loadRecycleBinActionItems c item) := by
  obtain ⟨hnodup, hrows⟩ := loadRecycleBinActionItems_rows hitem
  obtain ⟨c', released, hpurge⟩ := purgeItems_fits hrows hnodup
  exact ⟨c', released, bind_eq_ok.mpr ⟨_, purgeReads_of_mem hitem, hpurge⟩,
    (purgeItems_ok hpurge).1⟩

/-- An item that is there goes with its items, and nothing else changes. -/
theorem purge_found {item : RecycleBinObject} (hitem : item ∈ c.recycleBin.rows)
    (hrelease : release item.id = .ok ()) :
    ∃ c', purge release c item.id = .ok c' ∧ c'.recycleBin.rows.Sublist c.recycleBin.rows
      ∧ (∀ r, r ∈ c'.recycleBin.rows
        ↔ r ∈ c.recycleBin.rows ∧ r ∉ loadRecycleBinActionItems c item)
      ∧ { c' with recycleBin := c.recycleBin } = c := by
  obtain ⟨c', released, hmetadata, hpurged⟩ := purgeMetadata_found hitem
  have hrows := (loadRecycleBinActionItems_rows hitem).2
  have htables := hpurged.tables
  refine ⟨c', bind_eq_ok.mpr ⟨(c', released), hmetadata, ?_⟩, ?_, fun r => ?_, ?_⟩
  · exact bind_eq_ok.mpr ⟨(), hrelease, rfl⟩
  · rw [htables]
    exact List.filter_sublist
  · rw [htables]
    refine Iff.trans List.mem_filter (and_congr_right fun hr => ?_)
    rw [Bool.not_eq_true', decide_eq_false_iff_not, List.mem_map]
    refine not_congr ⟨?_, fun hmem => ⟨r, hmem, rfl⟩⟩
    rintro ⟨i, hi, hid⟩
    rwa [← row_of_id (hrows i hi) hr hid]
  · rw [htables]

/-- A purge that the ledger refuses changes nothing. -/
theorem purge_refused {item : RecycleBinObject} (hitem : item ∈ c.recycleBin.rows) {err : Err}
    (hrelease : release item.id = .error err) : purge release c item.id = .error err := by
  obtain ⟨c', released, hmetadata, -⟩ := purgeMetadata_found hitem
  rw [purge, hmetadata]
  show (release item.id >>= fun _ => _) = _
  rw [hrelease]
  rfl

theorem purge_missing {itemID : Nat} (h : ∀ r ∈ c.recycleBin.rows, r.id ≠ itemID) :
    purge release c itemID = .error recycleItemNotFound := by
  have hnone : c.recycleBin.first? (fun r => r.id == itemID) = none :=
    Table.first?_eq_none.mpr fun r hr => beq_eq_false_iff_ne.mpr (h r hr)
  rw [purge, purgeMetadata, purgeReads, findRecycle, hnone]
  rfl

/-! ## What a batch of purges leaves -/

/-- An id names the row, or the marker of its group. -/
def Covered (c : Tables k) (ids : List Nat) (r : RecycleBinObject) : Prop :=
  r.id ∈ ids ∨ ∃ a ∈ c.recycleBin.rows, a.id ∈ ids ∧ recycleBinObjectType a = .directory
    ∧ a.deleteGroupID = r.deleteGroupID

/-- The first purge and what the others cover then. -/
theorem covered_cons {item r : RecycleBinObject} (hitem : item ∈ c.recycleBin.rows)
    (hrows : ∀ r, r ∈ m.recycleBin.rows
      ↔ r ∈ c.recycleBin.rows ∧ r ∉ loadRecycleBinActionItems c item)
    (hr : r ∈ c.recycleBin.rows) :
    Covered c (item.id :: ids) r ↔ r ∈ loadRecycleBinActionItems c item ∨ Covered m ids r := by
  have hsame : ∀ {a}, a ∈ c.recycleBin.rows → a.id = item.id → a = item := fun ha hid =>
    row_of_id ha hitem hid
  constructor
  · rintro (hid | ⟨a, ha, hid, htype, hgroup⟩)
    · rcases List.mem_cons.mp hid with hid | hid
      · rw [hsame hr hid]
        exact Or.inl (mem_load hitem)
      · exact Or.inr (Or.inl hid)
    · -- a marker takes `r` along, now or in its turn
      by_cases hload : a ∈ loadRecycleBinActionItems c item
      · exact Or.inl (load_whole hload htype hr hgroup.symm)
      · rcases List.mem_cons.mp hid with hid | hid
        · rw [hsame ha hid] at hload
          exact absurd (mem_load hitem) hload
        · exact Or.inr (Or.inr ⟨a, (hrows a).mpr ⟨ha, hload⟩, hid, htype, hgroup⟩)
  · rintro (hload | hid | ⟨a, ha, hid, htype, hgroup⟩)
    · rcases load_cases hload with rfl | ⟨htype, hgroup⟩
      · exact Or.inl List.mem_cons_self
      · exact Or.inr ⟨item, hitem, List.mem_cons_self, htype, hgroup.symm⟩
    · exact Or.inl (List.mem_cons_of_mem _ hid)
    · exact Or.inr ⟨a, ((hrows a).mp ha).1, List.mem_cons_of_mem _ hid, htype, hgroup⟩

theorem covered_missing {itemID : Nat} (h : ∀ r ∈ c.recycleBin.rows, r.id ≠ itemID)
    {r : RecycleBinObject} (hr : r ∈ c.recycleBin.rows) :
    Covered c (itemID :: ids) r ↔ Covered c ids r := by
  have hcons : ∀ a ∈ c.recycleBin.rows, (a.id ∈ itemID :: ids ↔ a.id ∈ ids) := fun a ha =>
    List.mem_cons.trans (or_iff_right (h a ha))
  refine or_congr (hcons r hr) (exists_congr fun a => and_congr_right fun ha => ?_)
  rw [hcons a ha]

/-- The ids whose transactions the ledger lets commit. -/
def released (release : Nat → Except Err Unit) (ids : List Nat) : List Nat :=
  ids.filter fun id => (release id).isOk

/-- An id that failed: its row was not there, or went with a marker of the batch. -/
structure NotFound (c : Tables k) (ids : List Nat) (f : RecycleBinFailedItem) : Prop where
  code : f.code = "recycle_bin_item_not_found"
  gone : ∀ r ∈ c.recycleBin.rows, r.id = f.id → ∃ a ∈ c.recycleBin.rows, a.id ∈ ids ∧ a.id ≠ f.id
    ∧ recycleBinObjectType a = .directory ∧ a.deleteGroupID = r.deleteGroupID

/-- From `s` to `s'` by purges of `ids`. -/
structure PurgedBatch (release : Nat → Except Err Unit) (ids : List Nat)
    (s s' : Batch k) : Prop where
  order : s'.tables.recycleBin.rows.Sublist s.tables.recycleBin.rows
  rows : ∀ r, r ∈ s'.tables.recycleBin.rows
    ↔ r ∈ s.tables.recycleBin.rows ∧ ¬ Covered s.tables (released release ids) r
  others : { s'.tables with recycleBin := s.tables.recycleBin } = s.tables
  failed : ∀ f ∈ s'.failedItems, f ∈ s.failedItems
    ∨ (f.id ∈ ids ∧ (NotFound s.tables (released release ids) f ∨ ∃ err, release f.id = .error err))

theorem released_ok {id : Nat} (h : release id = .ok ()) (rest : List Nat) :
    released release (id :: rest) = id :: released release rest :=
  List.filter_cons_of_pos (by rw [h]; rfl)

theorem released_error {id : Nat} {err : Err} (h : release id = .error err) (rest : List Nat) :
    released release (id :: rest) = released release rest :=
  List.filter_cons_of_neg (by rw [h]; exact Bool.false_ne_true)

/-- A round that finds its item, in front of the rounds behind it. -/
theorem purgedBatch_found {s s' : Batch k} {item : RecycleBinObject} {rest : List Nat}
    (hitem : item ∈ s.tables.recycleBin.rows) (hrelease : release item.id = .ok ())
    (hnew : item.id ∉ rest)
    (hrows : ∀ r, r ∈ m.recycleBin.rows
      ↔ r ∈ s.tables.recycleBin.rows ∧ r ∉ loadRecycleBinActionItems s.tables item)
    (horder : m.recycleBin.rows.Sublist s.tables.recycleBin.rows)
    (hothers : { m with recycleBin := s.tables.recycleBin } = s.tables)
    (h : PurgedBatch release rest { s with tables := m, count := s.count + 1 } s') :
    PurgedBatch release (item.id :: rest) s s' where
  order := h.order.trans horder
  rows := fun r => by
    rw [h.rows, hrows, and_assoc, released_ok hrelease]
    refine and_congr_right fun hr => ?_
    rw [covered_cons hitem hrows hr, not_or]
  others := (congrArg (fun c : Tables k => { c with
    recycleBin := s.tables.recycleBin }) h.others).trans hothers
  failed := fun f hf => by
    rw [released_ok hrelease]
    refine (h.failed f hf).imp_right fun hfailed => ⟨List.mem_cons_of_mem _ hfailed.1, ?_⟩
    refine hfailed.2.imp_left fun hnot => ⟨hnot.code, fun r hr hid => ?_⟩
    have hne : item.id ≠ f.id := fun heq => hnew (heq ▸ hfailed.1)
    by_cases hload : r ∈ loadRecycleBinActionItems s.tables item
    · rcases load_cases hload with rfl | ⟨htype, hgroup⟩
      · exact absurd hid hne
      · exact ⟨item, hitem, List.mem_cons_self, hne, htype, hgroup.symm⟩
    · obtain ⟨a, ha, haid, hne, htype, hgroup⟩ := hnot.gone r ((hrows r).mpr ⟨hr, hload⟩) hid
      exact ⟨a, ((hrows a).mp ha).1, List.mem_cons_of_mem _ haid, hne, htype, hgroup⟩

/-- An id that failed covers nothing. -/
theorem purgedBatch_failed {s s' : Batch k} {itemID : Nat} {rest : List Nat}
    {f : RecycleBinFailedItem} (hf : f.id = itemID)
    (hcovered : ∀ r ∈ s.tables.recycleBin.rows,
      Covered s.tables (released release (itemID :: rest)) r
      ↔ Covered s.tables (released release rest) r)
    (hsub : ∀ id ∈ released release rest, id ∈ released release (itemID :: rest))
    (hfailed : NotFound s.tables (released release (itemID :: rest)) f
      ∨ ∃ err, release f.id = .error err)
    (h : PurgedBatch release rest { s with failedItems := s.failedItems ++ [f] } s') :
    PurgedBatch release (itemID :: rest) s s' where
  order := h.order
  rows := fun r => by
    rw [h.rows]
    exact and_congr_right fun hr => not_congr (hcovered r hr).symm
  others := h.others
  failed := fun g hg => by
    rcases h.failed g hg with hmem | ⟨hmem, hwhy⟩
    · rcases List.mem_append.mp hmem with hmem | hmem
      · exact Or.inl hmem
      · rw [List.mem_singleton.mp hmem]
        exact Or.inr ⟨hf ▸ List.mem_cons_self, hfailed⟩
    · refine Or.inr ⟨List.mem_cons_of_mem _ hmem, hwhy.imp_left fun hnot => ⟨hnot.code, ?_⟩⟩
      intro r hr hid
      obtain ⟨a, ha, haid, hrest⟩ := hnot.gone r hr hid
      exact ⟨a, ha, hsub _ haid, hrest⟩

/-- The ledger accepts an id or refuses it. -/
theorem released_cons (id : Nat) (rest : List Nat) :
    (∃ err, release id = .error err ∧ released release (id :: rest) = released release rest)
      ∨ (release id = .ok () ∧ released release (id :: rest) = id :: released release rest) := by
  cases hrelease : release id with
  | ok u => exact Or.inr ⟨rfl, released_ok hrelease rest⟩
  | error err => exact Or.inl ⟨err, rfl, released_error hrelease rest⟩

/-- **A whole batch of purges**, by induction on the ids from any state of the loop. -/
theorem purgedBatch : ∀ (ids : List Nat), ids.Nodup → ∀ s : Batch k,
    PurgedBatch release ids s (ids.foldl (actOnItem (purge release)) s) := by
  intro ids
  induction ids with
  | nil =>
      intro _ s
      refine ⟨.refl _, fun r => (and_iff_left ?_).symm, rfl, fun f hf => Or.inl hf⟩
      rintro (hid | ⟨a, -, hid, -⟩)
      · exact List.not_mem_nil hid
      · exact List.not_mem_nil hid
  | cons id rest ih =>
      intro hnodup s
      obtain ⟨hnew, hrest⟩ := List.nodup_cons.mp hnodup
      rw [List.foldl_cons]
      -- the row may have gone with a marker before
      by_cases hthere : ∃ item ∈ s.tables.recycleBin.rows, item.id = id
      · obtain ⟨item, hitem, rfl⟩ := hthere
        rcases @released_cons release item.id rest with ⟨err, herr, hids⟩ | ⟨hok, -⟩
        · rw [actOnItem_error (purge_refused hitem herr)]
          refine purgedBatch_failed rfl (fun r _ => by rw [hids]) (fun i hi => by rwa [hids])
            (Or.inr ⟨err, herr⟩) (ih hrest _)
        · obtain ⟨c', hpurge, horder, hrows, hothers⟩ := purge_found hitem hok
          rw [actOnItem_ok hpurge]
          exact purgedBatch_found hitem hok hnew hrows horder hothers (ih hrest _)
      · have hmissing : ∀ r ∈ s.tables.recycleBin.rows, r.id ≠ id := fun r hr hid =>
          hthere ⟨r, hr, hid⟩
        rw [actOnItem_error (purge_missing hmissing)]
        have hnone : NotFound s.tables (released release (id :: rest))
            (failedItem s.tables id recycleItemNotFound) :=
          ⟨rfl, fun r hr hid => absurd hid (hmissing r hr)⟩
        rcases @released_cons release id rest with ⟨err, -, hids⟩ | ⟨-, hids⟩
        · exact purgedBatch_failed rfl (fun r _ => by rw [hids]) (fun i hi => by rwa [hids])
            (Or.inl hnone) (ih hrest _)
        · refine purgedBatch_failed rfl (fun r hr => ?_) (fun i hi => ?_) (Or.inl hnone)
            (ih hrest _)
          · rw [hids]
            exact covered_missing hmissing hr
          · rw [hids]
            exact List.mem_cons_of_mem _ hi

/-- **A batch of purges**: whatever the order of the ids, the rows that are left are those that no
    released id covers, nothing else changes, every id is counted once, and an id failed only
    because the ledger refused it, its row was not there, or it had gone with a marker of the
    batch. -/
theorem delete_objects {itemIDs : List Nat} {s : Batch k}
    (h : deleteObjects c release itemIDs = .ok s) :
    s.tables.recycleBin.rows.Sublist c.recycleBin.rows
      ∧ (∀ r, r ∈ s.tables.recycleBin.rows
        ↔ r ∈ c.recycleBin.rows ∧ ¬ Covered c (released release itemIDs) r)
      ∧ { s.tables with recycleBin := c.recycleBin } = c
      ∧ s.count + s.failedItems.length = itemIDs.dedup.length
      ∧ ∀ f ∈ s.failedItems, f.id ∈ itemIDs
        ∧ (NotFound c (released release itemIDs) f ∨ ∃ err, release f.id = .error err) := by
  rw [deleteObjects, actOnItems] at h
  obtain ⟨ids, hids, h⟩ := bind_eq_ok.mp h
  cases pure_eq_ok.mp h
  obtain ⟨hnodup, hmem⟩ := validate_ok hids
  have hbatch : PurgedBatch release ids { tables := c }
      (ids.foldl (actOnItem (purge release)) { tables := c }) := purgedBatch ids hnodup _
  have hreleased : ∀ id, id ∈ released release ids ↔ id ∈ released release itemIDs := fun id => by
    rw [released, released, List.mem_filter, List.mem_filter, hmem]
  have hcovered : ∀ r, Covered c (released release ids) r
      ↔ Covered c (released release itemIDs) r :=
    fun r => by simp only [Covered, hreleased]
  have hlength := (validate_length hids).1
  refine ⟨hbatch.order, fun r => ?_, hbatch.others, ?_, fun f hf => ?_⟩
  · rw [hbatch.rows, hcovered]
  · rw [counted, ← hlength]
    exact Nat.zero_add _
  · obtain ⟨hid, hwhy⟩ := (hbatch.failed f hf).resolve_left List.not_mem_nil
    refine ⟨(hmem _).mp hid, hwhy.imp_left fun hnot => ⟨hnot.code, fun r hr hsame => ?_⟩⟩
    obtain ⟨a, ha, haid, hrest⟩ := hnot.gone r hr hsame
    exact ⟨a, ha, (hreleased _).mp haid, hrest⟩

/-- The marker of a folder, a file of it, and an id that was never there. -/
theorem delete_objects_smallBin : ∃ s : Batch Collation.binary,
    deleteObjects smallBin (fun _ => .ok ()) [2, 1, 9, 2] = .ok s
      ∧ s.tables.recycleBin.rows.Sublist smallBin.recycleBin.rows
      ∧ (∀ r, r ∈ s.tables.recycleBin.rows ↔ r ∈ smallBin.recycleBin.rows
        ∧ ¬ Covered smallBin (released (fun _ => .ok ()) [2, 1, 9, 2]) r)
      ∧ { s.tables with recycleBin := smallBin.recycleBin } = smallBin
      ∧ s.count + s.failedItems.length = [2, 1, 9, 2].dedup.length
      ∧ ∀ f ∈ s.failedItems, f.id ∈ [2, 1, 9, 2]
        ∧ (NotFound smallBin (released (fun _ => .ok ()) [2, 1, 9, 2]) f
          ∨ ∃ err, (fun _ : Nat => (.ok () : Except Err Unit)) f.id = .error err) := by
  have hids : validateRecycleBinItemIDs [2, 1, 9, 2] = .ok [2, 1, 9] := by decide
  have hdone : deleteObjects smallBin (fun _ => .ok ()) [2, 1, 9, 2]
      = .ok ([2, 1, 9].foldl (actOnItem (purge fun _ => .ok ())) { tables := smallBin }) :=
    bind_eq_ok.mpr ⟨[2, 1, 9], hids, rfl⟩
  exact ⟨_, hdone, delete_objects hdone⟩

/-! ## What a batch of restores brings back -/

/-- From `s` to `s'` by restores of `ids`: `taken` left the bin, `back` came to the objects. -/
structure RestoredBatch (ids : List Nat) (s s' : Batch k)
    (taken : List RecycleBinObject) (back : List Object) : Prop where
  rows : s.tables.recycleBin.rows.Perm (s'.tables.recycleBin.rows ++ taken)
  objects : s'.tables.objects.rows = s.tables.objects.rows ++ back
  contents : back.map content = (restoreTargets taken).map fun r => content (restoredObject 0 r)
  only : ∀ a ∈ taken, Covered s.tables ids a
  whole : ∀ a ∈ taken, recycleBinObjectType a = .directory →
    ∀ b ∈ s'.tables.recycleBin.rows, b.deleteGroupID ≠ a.deleteGroupID
  buckets : s'.tables.buckets = s.tables.buckets
  sites : s'.tables.sites = s.tables.sites
  siteDomains : s'.tables.siteDomains = s.tables.siteDomains
  reported : ∀ f ∈ s.failedItems, f ∈ s'.failedItems
  done : ∀ id ∈ ids, (∃ f ∈ s'.failedItems, f.id = id)
    ∨ ∀ r ∈ s'.tables.recycleBin.rows, r.id ≠ id

/-- A restore takes the items it read. -/
theorem restore_taken {itemID : Nat} {updatedAt : Time}
    (h : restoreObject c itemID updatedAt = .ok m) :
    ∃ item ∈ c.recycleBin.rows, item.id = itemID
      ∧ c.recycleBin.rows.Perm (m.recycleBin.rows ++ loadRecycleBinActionItems c item)
      ∧ Restored c m (loadRecycleBinActionItems c item) updatedAt := by
  obtain ⟨groupItems, hread, hrestored⟩ := restoreObject_ok h
  obtain ⟨item, hitem, hid, rfl, -, -⟩ := restoreReads_ok hread
  obtain ⟨hnodup, hrows⟩ := loadRecycleBinActionItems_rows hitem
  refine ⟨item, hitem, hid, ?_, hrestored⟩
  rw [hrestored.recycleBin]
  refine (List.filter_append_perm (fun r =>
    decide (r.id ∈ (loadRecycleBinActionItems c item).map (·.id))) _).symm.trans ?_
  exact List.perm_append_comm.trans ((select_recycle_ids_perm hrows hnodup).append_left _)

/-- What is left was there and is not among what was taken. -/
theorem mem_of_taken {items : List RecycleBinObject}
    (h : c.recycleBin.rows.Perm (m.recycleBin.rows ++ items)) {r : RecycleBinObject}
    (hr : r ∈ m.recycleBin.rows) : r ∈ c.recycleBin.rows ∧ r ∉ items := by
  refine ⟨h.mem_iff.mpr (List.mem_append_left _ hr), fun hmem => ?_⟩
  have hnodup := h.nodup_iff.mp c.recycleBin.rows_nodup
  exact (List.nodup_append.mp hnodup).2.2 r hr r hmem rfl

/-- A round that restores, in front of the rounds behind it. -/
theorem restoredBatch_ok {s s' : Batch k} {itemID : Nat} {updatedAt : Time}
    {rest : List Nat} {taken : List RecycleBinObject} {back : List Object}
    (hrestore : restoreObject s.tables itemID updatedAt = .ok m)
    (h : RestoredBatch rest { s with tables := m, count := s.count + 1 } s' taken back) :
    ∃ taken' back', RestoredBatch (itemID :: rest) s s' taken' back' := by
  obtain ⟨item, hitem, rfl, hperm, hrestored⟩ := restore_taken hrestore
  have hlater : ∀ {r}, r ∈ s'.tables.recycleBin.rows → r ∈ m.recycleBin.rows := fun hr =>
    h.rows.mem_iff.mpr (List.mem_append_left _ hr)
  have hitems : ∀ items : List RecycleBinObject, restoreTargets (items ++ taken)
      = restoreTargets items ++ restoreTargets taken := fun items => List.filter_append items taken
  refine ⟨loadRecycleBinActionItems s.tables item ++ taken,
    objectsWithIDs s.tables.nextObjectID ((restoreTargets
      (loadRecycleBinActionItems s.tables item)).map (restoredObject updatedAt)) ++ back,
    ?_, ?_, ?_, fun a ha => ?_, fun a ha htype b hb hgroup => ?_, h.buckets.trans hrestored.buckets,
    h.sites.trans hrestored.sites, h.siteDomains.trans hrestored.siteDomains, h.reported,
    fun id hmem => ?_⟩
  · refine hperm.trans ((h.rows.append_right _).trans ?_)
    rw [List.append_assoc]
    exact List.perm_append_comm.append_left _
  · rw [← List.append_assoc, ← hrestored.objects]
    exact h.objects
  · rw [hitems, List.map_append, List.map_append, h.contents, content_objectsWithIDs, List.map_map]
    rfl
  · rcases List.mem_append.mp ha with ha | ha
    · rcases load_cases ha with rfl | ⟨htype, hgroup⟩
      · exact Or.inl List.mem_cons_self
      · exact Or.inr ⟨item, hitem, List.mem_cons_self, htype, hgroup.symm⟩
    · rcases h.only a ha with hid | ⟨b, hb, hid, hrest⟩
      · exact Or.inl (List.mem_cons_of_mem _ hid)
      · exact Or.inr ⟨b, (mem_of_taken hperm hb).1, List.mem_cons_of_mem _ hid, hrest⟩
  · rcases List.mem_append.mp ha with ha | ha
    -- this round took the whole group of the marker
    · obtain ⟨hrow, hnot⟩ := mem_of_taken hperm (hlater hb)
      exact hnot (load_whole ha htype hrow hgroup)
    · exact h.whole a ha htype b hb hgroup
  · rcases List.mem_cons.mp hmem with rfl | hmem
    · refine Or.inr fun r hr heq => ?_
      obtain ⟨hrow, hnot⟩ := mem_of_taken hperm (hlater hr)
      have hsame : r = item := row_of_id hrow hitem heq
      rw [hsame] at hnot
      exact hnot (mem_load hitem)
    · exact h.done id hmem

/-- A round that fails, in front of the rounds behind it. -/
theorem restoredBatch_failed {s s' : Batch k} {itemID : Nat} {rest : List Nat}
    {f : RecycleBinFailedItem} {taken : List RecycleBinObject} {back : List Object}
    (hf : f.id = itemID)
    (h : RestoredBatch rest { s with failedItems := s.failedItems ++ [f] } s' taken back) :
    RestoredBatch (itemID :: rest) s s' taken back := by
  refine ⟨h.rows, h.objects, h.contents, fun a ha => ?_, h.whole, h.buckets, h.sites, h.siteDomains,
    fun g hg => h.reported g (List.mem_append_left _ hg), fun id hmem => ?_⟩
  · rcases h.only a ha with hid | ⟨b, hb, hid, hrest⟩
    · exact Or.inl (List.mem_cons_of_mem _ hid)
    · exact Or.inr ⟨b, hb, List.mem_cons_of_mem _ hid, hrest⟩
  · rcases List.mem_cons.mp hmem with rfl | hmem
    · exact Or.inl ⟨f, h.reported f (List.mem_append_right _ List.mem_cons_self), hf⟩
    · exact h.done id hmem

/-- **A whole batch of restores**, by induction on the ids from any state of the loop. -/
theorem restoredBatch (updatedAt : Nat → Time) : ∀ (ids : List Nat) (s : Batch k),
    ∃ taken back, RestoredBatch ids s
      (ids.foldl (actOnItem fun c itemID => restoreObject c itemID (updatedAt itemID)) s)
          taken back := by
  intro ids
  induction ids with
  | nil =>
      intro s
      exact ⟨[], [], .of_eq (List.append_nil _).symm, (List.append_nil _).symm, rfl,
        List.forall_mem_nil _, List.forall_mem_nil _, rfl, rfl, rfl, fun _ hf => hf,
        List.forall_mem_nil _⟩
  | cons id rest ih =>
      intro s
      rw [List.foldl_cons]
      cases hact : restoreObject s.tables id (updatedAt id) with
      | ok m =>
          have hstep : actOnItem (fun c itemID => restoreObject c itemID (updatedAt itemID)) s id
              = { s with tables := m, count := s.count + 1 } := actOnItem_ok hact
          rw [hstep]
          obtain ⟨taken, back, h⟩ := ih { s with tables := m, count := s.count + 1 }
          exact restoredBatch_ok hact h
      | error err =>
          have hstep : actOnItem (fun c itemID => restoreObject c itemID (updatedAt itemID)) s id
              = { s with failedItems := s.failedItems ++ [failedItem s.tables id err] } :=
            actOnItem_error hact
          rw [hstep]
          obtain ⟨taken, back, h⟩ := ih { s with
            failedItems := s.failedItems ++ [failedItem s.tables id err] }
          exact ⟨taken, back, restoredBatch_failed rfl h⟩

/-- **A batch of restores**: the rows that left were asked for and came back, each once, a marker
    leaves no row of its group, and every id is counted once, as restored or as failed. -/
theorem restore_objects {itemIDs : List Nat} {updatedAt : Nat → Time} {s : Batch k}
    (h : restoreObjects c itemIDs updatedAt = .ok s) :
    s.count + s.failedItems.length = itemIDs.dedup.length
      ∧ ∃ taken back, RestoredBatch itemIDs { tables := c } s taken back := by
  rw [restoreObjects, actOnItems] at h
  obtain ⟨ids, hids, h⟩ := bind_eq_ok.mp h
  cases pure_eq_ok.mp h
  obtain ⟨hlength, hmem⟩ := validate_length hids
  obtain ⟨taken, back, hbatch⟩ := restoredBatch updatedAt ids { tables := c }
  refine ⟨?_, taken, back, { hbatch with only := fun a ha => ?_, done := fun id hid => ?_ }⟩
  · rw [counted, ← hlength]
    exact Nat.zero_add _
  · have honly := hbatch.only a ha
    simp only [Covered, hmem] at honly
    exact honly
  · exact hbatch.done id ((hmem id).mpr hid)

/-- The bin of `smallBin` where the bucket is there. -/
def photosBin : Tables Collation.binary := { smallBin with buckets := emptyPhotos.buckets }

/-- Three ids, one of them twice: a file, and a folder that takes its group along. -/
theorem restore_objects_photosBin : ∃ s : Batch Collation.binary,
    restoreObjects photosBin [3, 2, 3] (fun _ => 9) = .ok s
      ∧ s.count + s.failedItems.length = [3, 2, 3].dedup.length
      ∧ ∃ taken back, RestoredBatch [3, 2, 3] { tables := photosBin } s taken back := by
  have hids : validateRecycleBinItemIDs [3, 2, 3] = .ok [3, 2] := by decide
  have hdone : restoreObjects photosBin [3, 2, 3] (fun _ => 9) = .ok ([3, 2].foldl
      (actOnItem fun c itemID => restoreObject c itemID 9) { tables := photosBin }) :=
    bind_eq_ok.mpr ⟨[3, 2], hids, rfl⟩
  exact ⟨_, hdone, restore_objects hdone⟩

end RecycleBatches
