import LightOss.MetadataServices

/-! # Catalog specs — what each metadata statement changes

    The inversion lemmas of the statements on the object table and the recycle bin:
    which rows are new, which are gone, and that everything else stays (`ObjectsOnly`,
    `RecycleOnly`, `FilesKept`).  The modules above cite these lemmas and open no
    statement again. -/

namespace CatalogSpecs

open KeyedTable Fallible LedgerRows Catalog MetadataServices

variable {k : Collation} {c c' : Tables k}

/-! ## Object rows -/

/-- Only the object table and its counter changed. -/
structure ObjectsOnly (c c' : Tables k) : Prop where
  buckets : c'.buckets = c.buckets
  recycleBin : c'.recycleBin = c.recycleBin
  sites : c'.sites = c.sites
  siteDomains : c'.siteDomains = c.siteDomains
  nextRecycleID : c'.nextRecycleID = c.nextRecycleID

theorem ObjectsOnly.refl (c : Tables k) : ObjectsOnly c c := ⟨rfl, rfl, rfl, rfl, rfl⟩

/-- One statement on the objects after another. -/
theorem ObjectsOnly.trans {c'' : Tables k} (h1 : ObjectsOnly c c') (h2 : ObjectsOnly c' c'') :
    ObjectsOnly c c'' :=
  ⟨h2.buckets.trans h1.buckets, h2.recycleBin.trans h1.recycleBin, h2.sites.trans h1.sites,
    h2.siteDomains.trans h1.siteDomains, h2.nextRecycleID.trans h1.nextRecycleID⟩

/-- A new row in a bucket that is there comes last. -/
theorem insertObject_ok {object : Object} (h : insertObject c object = .ok c') :
    ObjectsOnly c c' ∧ bucketExists c object.bucketName = true
      ∧ c'.objects.rows = c.objects.rows ++ [{ object with id := c.nextObjectID }] := by
  rw [insertObject] at h
  split at h
  · next hbucket =>
      split at h
      · next objects hins =>
          cases h
          exact ⟨⟨rfl, rfl, rfl, rfl, rfl⟩, hbucket, (Table.insert?_eq_some.mp hins).2⟩
      · exact nomatch h
  · exact nomatch h

/-- An insert with a key that is free succeeds. -/
theorem insertObject_fits {object : Object} (hids : ∀ o ∈ c.objects.rows, o.id < c.nextObjectID)
    (hbucket : bucketExists c object.bucketName = true)
    (hfree : ∀ o ∈ c.objects.rows, sameKey k object.bucketName object.objectKey o = false) :
    ∃ c', insertObject c object = .ok c' := by
  have hfit : ∀ o ∈ c.objects.rows,
      Object.clash k o { object with id := c.nextObjectID } = false := by
    intro o ho
    rw [Object.clash, Bool.or_eq_false_iff, beq_eq_false_iff_ne]
    exact ⟨Nat.ne_of_lt (hids o ho), hfree o ho⟩
  rw [insertObject, if_pos hbucket, Table.insert?, dif_pos hfit]
  exact ⟨_, rfl⟩

theorem findActive_ok {bucketName objectKey : String} {object : Object}
    (h : findActive c bucketName objectKey = .ok object) :
    object ∈ c.objects.rows ∧ sameKey k bucketName objectKey object = true :=
  Table.first?_eq_some (orElseThrow_eq_ok.mp h)

/-- Rows with one key are one row. -/
theorem eq_of_sameKey {bucketName objectKey : String} {a b : Object} (ha : a ∈ c.objects.rows)
    (hb : b ∈ c.objects.rows) (hak : sameKey k bucketName objectKey a = true)
    (hbk : sameKey k bucketName objectKey b = true) : a = b := by
  refine c.objects.eq_of_clash ha hb ?_
  rw [sameKey, Bool.and_eq_true] at hak hbk
  rw [Object.clash, sameKey, Collation.eq_trans hak.1 (Collation.eq_comm _ _ ▸ hbk.1),
    Collation.eq_trans hak.2 (Collation.eq_comm _ _ ▸ hbk.2)]
  simp

theorem select_sameKey_of_mem {bucketName objectKey : String} {object : Object}
    (hmem : object ∈ c.objects.rows) (hkey : sameKey k bucketName objectKey object = true) :
    c.objects.select (sameKey k bucketName objectKey) = [object] := by
  refine c.objects.select_eq_singleton hmem hkey fun a ha => ?_
  rw [sameKey, Bool.and_eq_true] at ha hkey
  rw [Object.clash, sameKey, Collation.eq_trans ha.1 (Collation.eq_comm _ _ ▸ hkey.1),
    Collation.eq_trans ha.2 (Collation.eq_comm _ _ ▸ hkey.2)]
  simp

/-- The row an upsert leaves in place of the row `r`. -/
def upserted (k : Collation) (now : Time) (object r : Object) : Object :=
  if sameKey k object.bucketName object.objectKey r then assignObject object now r else r

/-- An upsert rewrites the row with the key, if there is one, and else appends it. -/
theorem upsertRow_ok {object : Object} {now : Time} (h : upsertRow now c object = .ok c') :
    ObjectsOnly c c'
      ∧ ((c.objects.select (sameKey k object.bucketName object.objectKey) ≠ []
          ∧ c'.objects.rows = c.objects.rows.map (upserted k now object))
        ∨ (c.objects.select (sameKey k object.bucketName object.objectKey) = []
          ∧ bucketExists c object.bucketName = true
          ∧ c'.objects.rows = c.objects.rows
            ++ [{ object with id := c.nextObjectID, createdAt := now, updatedAt := now }])) := by
  rw [upsertRow] at h
  split at h
  · next hany =>
      cases h
      refine ⟨⟨rfl, rfl, rfl, rfl, rfl⟩, Or.inl ⟨?_, rfl⟩⟩
      obtain ⟨o, ho, hkey⟩ := List.any_eq_true.mp hany
      exact List.ne_nil_of_mem (Table.mem_select.mpr ⟨ho, hkey⟩)
  · next hany =>
      obtain ⟨honly, hbucket, hrows⟩ := insertObject_ok h
      refine ⟨honly, Or.inr ⟨?_, hbucket, hrows⟩⟩
      refine List.filter_eq_nil_iff.mpr fun o ho hkey => hany ?_
      exact List.any_eq_true.mpr ⟨o, ho, hkey⟩

/-- Reading the row back changes nothing. -/
theorem upsert_ok {object : Object} {now : Time} (h : upsert c object now = .ok c') :
    upsertRow now c object = .ok c' := by
  rw [upsert] at h
  obtain ⟨m, hm, h⟩ := bind_eq_ok.mp h
  obtain ⟨_, -, h⟩ := bind_eq_ok.mp h
  obtain rfl := pure_eq_ok.mp h
  exact hm

theorem hardDeleteByIDs_rows (c : Tables k) (ids : List Nat) :
    (hardDeleteByIDs c ids).2.objects.rows = c.objects.rows.filter fun o => !decide (o.id ∈ ids) :=
  rfl

/-- Deleting listed rows by their ids deletes exactly them. -/
theorem select_ids_perm {objects : List Object} (hmem : ∀ o ∈ objects, o ∈ c.objects.rows)
    (hnd : objects.Nodup) :
    (c.objects.select fun o => decide (o.id ∈ objects.map (·.id))).Perm objects := by
  refine (List.perm_ext_iff_of_nodup (c.objects.rows_nodup.filter _) hnd).mpr fun o => ?_
  rw [List.mem_filter, decide_eq_true_eq, List.mem_map]
  constructor
  · rintro ⟨ho, a, ha, hid⟩
    rwa [← c.objects.eq_of_clash (hmem a ha) ho (by simp [Object.clash, hid])]
  · intro ho
    exact ⟨hmem o ho, o, ho, rfl⟩

/-! ## Recycle rows -/

/-- Only the recycle bin and its counter changed. -/
structure RecycleOnly (c c' : Tables k) : Prop where
  buckets : c'.buckets = c.buckets
  objects : c'.objects = c.objects
  sites : c'.sites = c.sites
  siteDomains : c'.siteDomains = c.siteDomains
  nextObjectID : c'.nextObjectID = c.nextObjectID

/-- The rows of one multi-row insert get consecutive ids. -/
def withIDs (next : Nat) : List RecycleBinObject → List RecycleBinObject
  | [] => []
  | item :: rest => { item with id := next } :: withIDs (next + 1) rest

/-- The ids go on behind the first list. -/
theorem withIDs_append (items rest : List RecycleBinObject) (next : Nat) :
    withIDs next (items ++ rest) = withIDs next items ++ withIDs (next + items.length) rest := by
  induction items generalizing next with
  | nil => rfl
  | cons item items ih =>
      rw [List.cons_append, withIDs, withIDs, ih, List.length_cons, List.cons_append,
        Nat.add_right_comm, Nat.add_assoc]

/-- A numbered row is one of the list under an id of the range. -/
theorem mem_withIDs : ∀ (items : List RecycleBinObject) (next : Nat) {r : RecycleBinObject},
    r ∈ withIDs next items →
      next ≤ r.id ∧ r.id < next + items.length ∧ ∃ i ∈ items, r = { i with id := r.id } := by
  intro items
  induction items with
  | nil => exact fun _ _ h => nomatch h
  | cons item rest ih =>
      intro next r hr
      rw [List.length_cons]
      rcases List.mem_cons.mp hr with rfl | hr
      · exact ⟨Nat.le_refl _, by show next < _; omega, item, List.mem_cons_self, rfl⟩
      · obtain ⟨hlow, hhigh, i, hi, heq⟩ := ih (next + 1) hr
        exact ⟨by omega, by omega, i, List.mem_cons_of_mem _ hi, heq⟩

/-- A new row of the bin comes last, under the next id. -/
theorem insertRecycle_ok {item : RecycleBinObject} (h : insertRecycle c item = .ok c') :
    RecycleOnly c c' ∧ bucketExists c item.bucketName = true
      ∧ c'.nextRecycleID = c.nextRecycleID + 1
      ∧ c'.recycleBin.rows = c.recycleBin.rows ++ [{ item with id := c.nextRecycleID }] := by
  rw [insertRecycle] at h
  split at h
  · next hbucket =>
      split at h
      · next rows hins =>
          cases h
          exact ⟨⟨rfl, rfl, rfl, rfl, rfl⟩, hbucket, rfl, (Table.insert?_eq_some.mp hins).2⟩
      · exact nomatch h
  · exact nomatch h

/-- The rows of one insert come last, under consecutive ids. -/
theorem createRecycleBatch_ok : ∀ (items : List RecycleBinObject) {c c' : Tables k},
    createRecycleBatch c items = .ok c' →
      RecycleOnly c c' ∧ c'.nextRecycleID = c.nextRecycleID + items.length
        ∧ c'.recycleBin.rows = c.recycleBin.rows ++ withIDs c.nextRecycleID items := by
  intro items
  induction items with
  | nil =>
      intro c c' h
      obtain rfl := pure_eq_ok.mp h
      exact ⟨⟨rfl, rfl, rfl, rfl, rfl⟩, rfl, (List.append_nil _).symm⟩
  | cons item rest ih =>
      intro c c' h
      rw [createRecycleBatch, List.foldlM_cons] at h
      obtain ⟨m, hm, h⟩ := bind_eq_ok.mp h
      obtain ⟨h1, -, hnext, hrows⟩ := insertRecycle_ok hm
      obtain ⟨h2, hnext', hrows'⟩ := ih h
      refine ⟨⟨h2.buckets.trans h1.buckets, h2.objects.trans h1.objects, h2.sites.trans h1.sites,
        h2.siteDomains.trans h1.siteDomains, h2.nextObjectID.trans h1.nextObjectID⟩, ?_, ?_⟩
      · rw [hnext', hnext, List.length_cons]
        omega
      · rw [hrows', hrows, hnext, List.append_assoc]
        rfl

theorem findRecycle_ok {id : Nat} {item : RecycleBinObject} (h : findRecycle c id = .ok item) :
    item ∈ c.recycleBin.rows ∧ item.id = id := by
  obtain ⟨hmem, hid⟩ := Table.first?_eq_some (orElseThrow_eq_ok.mp h)
  exact ⟨hmem, by simpa using hid⟩

/-- The items of an action are distinct rows of the recycle bin. -/
theorem loadRecycleBinActionItems_rows {item : RecycleBinObject}
    (hitem : item ∈ c.recycleBin.rows) :
    (loadRecycleBinActionItems c item).Nodup
      ∧ ∀ i ∈ loadRecycleBinActionItems c item, i ∈ c.recycleBin.rows := by
  rw [loadRecycleBinActionItems]
  split
  · refine ⟨List.nodup_singleton _, fun i hi => ?_⟩
    rw [List.mem_singleton.mp hi]
    exact hitem
  · refine ⟨?_, fun i hi => ?_⟩
    · exact (List.mergeSort_perm _ _).nodup_iff.mpr (c.recycleBin.rows_nodup.filter _)
    · exact (Table.mem_select.mp (List.mem_mergeSort.mp hi)).1

/-- Asking for the ids of rows that are there finds these rows. -/
theorem select_recycle_ids_perm {items : List RecycleBinObject}
    (hmem : ∀ i ∈ items, i ∈ c.recycleBin.rows) (hnd : items.Nodup) :
    (c.recycleBin.select fun r => decide (r.id ∈ items.map (·.id))).Perm items := by
  refine (List.perm_ext_iff_of_nodup (c.recycleBin.rows_nodup.filter _) hnd).mpr fun r => ?_
  rw [List.mem_filter, decide_eq_true_eq, List.mem_map]
  constructor
  · rintro ⟨hr, a, ha, hid⟩
    rwa [← c.recycleBin.eq_of_clash (hmem a ha) hr (by simp [RecycleBinObject.clash, hid])]
  · intro hr
    exact ⟨hmem r hr, r, hr, rfl⟩

/-! ## Site rows -/

/-- The tables that name storage paths are untouched. -/
structure FilesKept (c c' : Tables k) : Prop where
  objects : c'.objects = c.objects
  recycleBin : c'.recycleBin = c.recycleBin

theorem insertSiteDomain_ok {siteID : Nat} {now : Time} {domain : String}
    (h : insertSiteDomain siteID now c domain = .ok c') : FilesKept c c' := by
  rw [insertSiteDomain] at h
  split at h
  · cases h
    exact ⟨rfl, rfl⟩
  · exact nomatch h

theorem createSite_ok {site : Site} {domains : List String} {now : Time}
    (h : createSite c site domains now = .ok c') : FilesKept c c' := by
  have hstep : ∀ (m : Tables k) (domain : String) (m' : Tables k), FilesKept c m →
      insertSiteDomain c.nextSiteID now m domain = .ok m' → FilesKept c m' := by
    intro m domain m' hm hf
    have hkept := insertSiteDomain_ok hf
    exact ⟨hkept.objects.trans hm.objects, hkept.recycleBin.trans hm.recycleBin⟩
  rw [createSite] at h
  split at h
  · split at h
    · rw [replaceDomains] at h
      refine foldlM_invariant (I := fun m : Tables k => FilesKept c m) hstep domains ?_ h
      exact ⟨rfl, rfl⟩
    · exact nomatch h
  · exact nomatch h

end CatalogSpecs
