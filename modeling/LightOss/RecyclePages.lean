import LightOss.RecycleGroups
import LightOss.Trimming

/-! # Recycle pages — every logical item on one page

    In the order of the listing each delete group stands together, with one
    `deleted_at`.  A batch is cut where `deleted_at` changes, so between groups; the
    cursor of a page is the last row of its last group, so the next page begins with
    the next group.

    `logicalItems_eq` makes one item of each group, `split_groups` says where a batch is
    cut, and `listLoop_eq` is the loop: its invariant is that the rows waiting and the
    rows not yet read are the groups that are left.  Following the cursors then walks
    through the groups. -/

namespace RecyclePages

open BlockList KeyedTable Fallible LedgerRows Catalog Validation MetadataServices ObjectListing
open ObjectServices RecycleListing RecycleGroups

variable {k : Collation}

/-! ## Groups -/

/-- A delete group that is shown as one item. -/
structure Group where
  rows : List RecycleBinObject
  item : LogicalItem
  logical : recycleBinLogicalItemsFromDeleteGroup rows = [item]
  last : rows.getLast?.map recycleBinCursorFromObject = some item.lastCursor
  sameGroup : Uniform (·.deleteGroupID) rows
  sameTime : Uniform (·.deletedAt) rows

/-- The rows of the groups, in order. -/
def rawRows (groups : List Group) : List RecycleBinObject := (groups.map Group.rows).flatten

/-- Different groups have different ids. -/
def Apart (groups : List Group) : Prop := Blocks (·.deleteGroupID) (groups.map Group.rows)

/-- The rows of two stretches of groups. -/
theorem rawRows_append (front back : List Group) :
    rawRows (front ++ back) = rawRows front ++ rawRows back := by
  rw [rawRows, List.map_append, List.flatten_append]
  rfl

/-- Leaving groups out keeps the others apart. -/
theorem Apart.sublist {groups groups' : List Group} (h : Apart groups)
    (hsub : groups'.Sublist groups) :
    Apart groups' :=
  Blocks.sublist h (hsub.map _)

theorem Apart.left {front back : List Group} (h : Apart (front ++ back)) : Apart front :=
  h.sublist (List.sublist_append_left _ _)

theorem Apart.right {front back : List Group} (h : Apart (front ++ back)) : Apart back :=
  h.sublist (List.sublist_append_right _ _)

theorem uniform_rows (groups : List Group) : ∀ b ∈ groups.map Group.rows,
    Uniform (·.deletedAt) b := by
  intro b hb
  obtain ⟨g, -, rfl⟩ := List.mem_map.mp hb
  exact g.sameTime

/-- Rows of one time, group by group. -/
theorem deletedAtBatch_eq {groups : List Group} (h : Apart groups) :
    recycleBinLogicalItemsFromDeletedAtBatch (rawRows groups) = groups.map Group.item := by
  have hcollect := flatMap_firstKeys recycleBinLogicalItemsFromDeleteGroup h
  refine Eq.trans hcollect ?_
  rw [List.flatMap_map]
  calc groups.flatMap (fun g => recycleBinLogicalItemsFromDeleteGroup g.rows)
      = groups.flatMap fun g => [g.item] := List.flatMap_congr fun g _ => g.logical
    _ = groups.map Group.item := List.map_eq_flatMap.symm

/-- **All rows**: one item for each group, in the order of the groups. -/
theorem logicalItems_eq : ∀ (n : Nat) (groups : List Group), groups.length ≤ n → Apart groups →
    recycleBinLogicalItemsFromRawItems (rawRows groups) = groups.map Group.item := by
  intro n
  induction n with
  | zero =>
      intro groups hlen _
      rw [List.eq_nil_of_length_eq_zero (Nat.le_zero.mp hlen), rawRows, List.map_nil,
        List.flatten_nil,
        recycleBinLogicalItemsFromRawItems, List.map_nil]
  | succ n ih =>
      intro groups hlen hapart
      cases groups with
      | nil => rw [rawRows, List.map_nil, List.flatten_nil, recycleBinLogicalItemsFromRawItems,
        List.map_nil]
      | cons g rest =>
          obtain ⟨a, tail, hrows⟩ := List.exists_cons_of_ne_nil g.sameTime.ne_nil
          let p : RecycleBinObject → Bool := fun next => next.deletedAt == a.deletedAt
          have hraw : rawRows (g :: rest) = a :: (tail ++ rawRows rest) := by
            rw [rawRows, List.map_cons, List.flatten_cons, hrows]
            rfl
          have hpa : p a = true := beq_self_eq_true _
          have hagree : ∀ b ∈ (g :: rest).map Group.rows, b ≠ [] ∧ ∀ x ∈ b, ∀ y ∈ b, p x = p y := by
            intro b hb
            have hb := uniform_rows (g :: rest) b hb
            refine ⟨hb.ne_nil, fun x hx y hy => ?_⟩
            show (x.deletedAt == a.deletedAt) = (y.deletedAt == a.deletedAt)
            rw [hb.agree x hx y hy]
          -- all of a group has one time, so the scan stops between groups
          obtain ⟨htake, hdrop⟩ := scan_flatten hagree
          rw [List.takeWhile_map] at htake
          rw [List.dropWhile_map] at hdrop
          let q : Group → Bool := fun g => g.rows.all p
          have htake :
              a :: (tail ++ rawRows rest).takeWhile p = rawRows ((g :: rest).takeWhile q) := by
            rw [← List.takeWhile_cons_of_pos hpa, ← hraw]
            exact htake
          have hdrop : (tail ++ rawRows rest).dropWhile p = rawRows ((g :: rest).dropWhile q) := by
            rw [← List.dropWhile_cons_of_pos hpa, ← hraw]
            exact hdrop
          have hq : q g = true := by
            refine List.all_eq_true.mpr fun x hx => ?_
            exact beq_iff_eq.mpr (g.sameTime.agree x hx a (hrows ▸ List.mem_cons_self))
          have hlater : ((g :: rest).dropWhile q).length ≤ n := by
            rw [List.dropWhile_cons_of_pos hq]
            exact (List.dropWhile_sublist _).length_le.trans (Nat.le_of_succ_le_succ hlen)
          rw [hraw, recycleBinLogicalItemsFromRawItems, htake, hdrop,
            deletedAtBatch_eq (hapart.sublist (List.takeWhile_sublist _)),
            ih _ hlater (hapart.sublist (List.dropWhile_sublist _)), ← List.map_append,
            List.takeWhile_append_dropWhile]

/-! ## The cut of a batch -/

/-- **A batch is cut between groups.** -/
theorem split_groups {groups : List Group} {rows unread : List RecycleBinObject}
    (h : rawRows groups = rows ++ unread) :
    ∃ done rest, groups = done ++ rest
      ∧ (splitCompleteRecycleBinRawItems rows false).1 = rawRows done
      ∧ (splitCompleteRecycleBinRawItems rows false).2 ++ unread = rawRows rest := by
  cases hlast : rows.getLast? with
  | none =>
      have hnil := List.getLast?_eq_none_iff.mp hlast
      rw [splitCompleteRecycleBinRawItems, hlast]
      refine ⟨[], groups, rfl, rfl, ?_⟩
      rw [h, hnil]
  | some last =>
      let p : RecycleBinObject → Bool := fun item => item.deletedAt == last.deletedAt
      have hrows :
          rows = (rows.reverse.dropWhile p).reverse ++ (rows.reverse.takeWhile p).reverse := by
        rw [← List.reverse_append, List.takeWhile_append_dropWhile, List.reverse_reverse]
      have hsplit : splitCompleteRecycleBinRawItems rows false
          = ((rows.reverse.dropWhile p).reverse, (rows.reverse.takeWhile p).reverse) := by
        have hlength :
            (rows.reverse.dropWhile p).length = (rows.reverse.dropWhile p).reverse.length :=
          List.length_reverse.symm
        rw [splitCompleteRecycleBinRawItems, hlast]
        dsimp only
        rw [if_neg Bool.false_ne_true, hlength]
        refine Prod.ext ?_ ?_
        · exact (congrArg (List.take _) hrows).trans List.take_left
        · exact (congrArg (List.drop _) hrows).trans List.drop_left
      rw [hsplit]
      -- the last row belongs to the second part
      obtain ⟨x, back, hback⟩ : ∃ x back, (rows.reverse.takeWhile p).reverse = x :: back := by
        refine List.exists_cons_of_ne_nil fun hnil => ?_
        obtain ⟨front, hfront⟩ := List.getLast?_eq_some_iff.mp hlast
        have hp : p last = true := beq_self_eq_true _
        rw [hfront, List.reverse_append, List.reverse_singleton, List.singleton_append,
          List.takeWhile_cons_of_pos hp, List.reverse_cons] at hnil
        exact absurd hnil (List.append_ne_nil_of_right_ne_nil _ (List.cons_ne_nil _ _))
      have hx : x.deletedAt = last.deletedAt := by
        have hmem : x ∈ (rows.reverse.takeWhile p).reverse := hback ▸ List.mem_cons_self
        have hpx : p x = true := List.mem_takeWhile_imp (List.mem_reverse.mp hmem)
        exact beq_iff_eq.mp hpx
      have hchange : ∀ a ∈ (rows.reverse.dropWhile p).reverse.getLast?,
          a.deletedAt ≠ x.deletedAt := by
        intro a ha
        rw [List.getLast?_reverse] at ha
        have hpa : p a = false := Trimming.dropWhile_head ha
        rw [hx]
        exact beq_eq_false_iff_ne.mp hpa
      have hcut : (groups.map Group.rows).flatten
          = (rows.reverse.dropWhile p).reverse ++ x :: (back ++ unread) := by
        rw [← List.cons_append, ← hback, ← List.append_assoc, ← hrows]
        exact h
      -- the time changes at the cut, so it is no cut through a group
      obtain ⟨done', rest', hgroups, hdone⟩ := cut_flatten (uniform_rows groups) hcut hchange
      obtain ⟨done, rest, rfl, rfl, rfl⟩ := List.map_eq_append_iff.mp hgroups
      refine ⟨done, rest, rfl, hdone, ?_⟩
      have hall : rawRows done ++ ((rows.reverse.takeWhile p).reverse ++ unread)
          = rawRows done ++ rawRows rest := by
        have hdone' : rawRows done = (rows.reverse.dropWhile p).reverse := hdone.symm
        rw [← rawRows_append, h, hdone', ← List.append_assoc, ← hrows]
      exact List.append_cancel_left hall

/-! ## One page -/

/-- The page after some items were shown. -/
def shownPage (shown : List LogicalItem) : Page :=
  ⟨shown.map LogicalItem.item, shown.getLast?.map LogicalItem.lastCursor⟩

/-- A full page with the cursor of its last item. -/
def fullPage (items : List LogicalItem) : ListRecycleBinObjectsOutput where
  items := items.map LogicalItem.item
  nextCursor := match items.getLast?.map LogicalItem.lastCursor with
    | some cursor => encodeRecycleBinCursor cursor.deletedAt cursor.id
    | none => ""

/-- The first page of a list of items. -/
def firstPage (limit : Nat) (items : List LogicalItem) : ListRecycleBinObjectsOutput :=
  if items.length ≤ limit then { items := items.map LogicalItem.item, nextCursor := "" }
  else fullPage (items.take limit)

/-- A page with one item more: the cursor moves on to it. -/
theorem shownPage_snoc (shown : List LogicalItem) (l : LogicalItem) :
    shownPage (shown ++ [l]) = { items := (shownPage shown).items ++ [l.item]
                                 pageLastCursor := some l.lastCursor } := by
  rw [shownPage, List.map_append, List.getLast?_concat]
  rfl

/-- One batch: its items fit on the page, or the page is full. -/
theorem emit_eq (limit : Nat) : ∀ (more shown : List LogicalItem), shown.length ≤ limit →
    emit limit more (shownPage shown)
      = if (shown ++ more).length ≤ limit then .inr (shownPage (shown ++ more))
        else .inl (fullPage ((shown ++ more).take limit)) := by
  intro more
  induction more with
  | nil =>
      intro shown hshown
      rw [List.append_nil, if_pos hshown]
      rfl
  | cons l rest ih =>
      intro shown hshown
      rw [emit, shownPage, List.length_map]
      by_cases hfull : shown.length = limit
      · have hmore : ¬ (shown ++ l :: rest).length ≤ limit := by
          rw [List.length_append, List.length_cons]
          omega
        rw [if_pos hfull, if_neg hmore, ← hfull, List.take_left]
        rfl
      · have hnext : (shown ++ [l]).length ≤ limit := by
          rw [List.length_append, List.length_singleton]
          omega
        have hih := ih (shown ++ [l]) hnext
        rw [shownPage_snoc, List.append_assoc, List.singleton_append] at hih
        rw [if_neg hfull]
        exact hih

/-- The cursor behind some rows. -/
def cursorBehind (cursor : Option RecycleBinCursor) (rows : List RecycleBinObject) :
    Option RecycleBinCursor :=
  (rows.getLast?.map recycleBinCursorFromObject).or cursor

/-- The cursor behind two stretches of rows is that behind the second, if it has any. -/
theorem cursorBehind_append (cursor : Option RecycleBinCursor)
    (front back : List RecycleBinObject) :
    cursorBehind (cursorBehind cursor front) back = cursorBehind cursor (front ++ back) := by
  rw [cursorBehind, cursorBehind, cursorBehind, List.getLast?_append]
  cases back.getLast? <;> rfl

/-- What the repository reads: the next rows behind any cursor on the way. -/
def Reads (fetch : Option RecycleBinCursor → List RecycleBinObject) (batch : Nat)
    (cursor : Option RecycleBinCursor) (unread : List RecycleBinObject) : Prop :=
  ∀ front back, unread = front ++ back → fetch (cursorBehind cursor front) = back.take batch

/-- **The loop** returns the first page of the groups that are left, after any number of
    batches; the rows that wait and those not read make up the groups that are not shown. -/
theorem listLoop_eq {fetch : Option RecycleBinCursor → List RecycleBinObject} {limit batch : Nat}
    (hbatch : 0 < batch) : ∀ (fuel : Nat) (cursor : Option RecycleBinCursor)
      (pending unread : List RecycleBinObject) (shown rest : List Group),
      unread.length < fuel → Reads fetch batch cursor unread → Apart rest →
      rawRows rest = pending ++ unread → shown.length ≤ limit →
      listLoop fetch limit fuel cursor pending (shownPage (shown.map Group.item))
        = some (firstPage limit ((shown ++ rest).map Group.item)) := by
  intro fuel
  induction fuel with
  | zero => exact fun _ _ _ _ _ h => absurd h (Nat.not_lt_zero _)
  | succ fuel ih =>
      intro cursor pending unread shown rest hfuel hreads hapart hrows hshown
      have hraw : fetch cursor = unread.take batch := hreads [] unread rfl
      rw [listLoop, hraw]
      by_cases hend : unread = []
      · -- nothing is left to read: what waits is complete
        have hpending : pending = rawRows rest := by rw [hrows, hend, List.append_nil]
        have hsplit : splitCompleteRecycleBinRawItems pending true = (pending, []) := by
          rw [splitCompleteRecycleBinRawItems]
          split
          · next hnone => rw [List.getLast?_eq_none_iff.mp hnone]
          · rw [if_pos rfl]
        rw [hend, List.take_nil, List.append_nil]
        dsimp only [List.isEmpty_nil]
        rw [hsplit]
        dsimp only
        rw [hpending, logicalItems_eq _ rest le_rfl hapart,
          emit_eq limit _ _ (by rwa [List.length_map]),
          ← List.map_append, List.length_map, firstPage, List.length_map]
        by_cases hfits : (shown ++ rest).length ≤ limit
        · rw [if_pos hfits, if_pos hfits]
          rfl
        · rw [if_neg hfits, if_neg hfits]
      · have hne : unread.take batch ≠ [] := by
          rw [ne_eq, List.take_eq_nil_iff]
          exact not_or.mpr ⟨Nat.ne_of_gt hbatch, hend⟩
        have hempty : (unread.take batch).isEmpty = false := List.isEmpty_eq_false_iff.mpr hne
        obtain ⟨last, hlast⟩ : ∃ last, (unread.take batch).getLast? = some last :=
          Option.ne_none_iff_exists'.mp fun hnone => hne (List.getLast?_eq_none_iff.mp hnone)
        have hcursor : cursorBehind cursor (unread.take batch)
            = some (recycleBinCursorFromObject last) := by
          rw [cursorBehind, hlast]
          rfl
        have hsplit : unread = unread.take batch ++ unread.drop batch :=
          (List.take_append_drop batch unread).symm
        -- the next read begins behind this batch
        have hreads' :
            Reads fetch batch (cursorBehind cursor (unread.take batch)) (unread.drop batch) := by
          intro front back hback
          rw [cursorBehind_append]
          refine hreads _ back ?_
          rw [List.append_assoc, ← hback]
          exact hsplit
        have hbatchRows : rawRows rest = (pending ++ unread.take batch) ++ unread.drop batch := by
          rw [List.append_assoc, ← hsplit]
          exact hrows
        obtain ⟨done, later, rfl, hdone, hlater⟩ := split_groups hbatchRows
        rw [hempty, hdone, logicalItems_eq _ done le_rfl hapart.left,
          emit_eq limit _ _ (by rwa [List.length_map]), ← List.map_append, List.length_map]
        have hlength : (unread.drop batch).length < fuel := by
          have := List.length_pos_iff.mpr hend
          rw [List.length_drop]
          omega
        by_cases hfits : (shown ++ done).length ≤ limit
        · rw [if_pos hfits]
          dsimp only
          rw [if_neg Bool.false_ne_true, ← List.append_assoc, hlast]
          rw [hcursor] at hreads'
          exact ih _ _ _ (shown ++ done) later hlength hreads' hapart.right hlater.symm hfits
        · -- the page is full before the batch ends
          have hmore : ¬ (shown ++ (done ++ later)).length ≤ limit := by
            rw [← List.append_assoc, List.length_append]
            omega
          have htake : ((shown ++ (done ++ later)).map Group.item).take limit
              = ((shown ++ done).map Group.item).take limit := by
            rw [← List.append_assoc]
            refine (congrArg (List.take limit) List.map_append).trans
              (List.take_append_of_le_length ?_)
            rw [List.length_map]
            omega
          rw [if_neg hfits, firstPage, List.length_map, if_neg hmore, htake]

/-! ## What the repository reads -/

/-- The place of a row in the listing. -/
def binPlace (item : RecycleBinObject) : (Lex (Time × Nat))ᵒᵈ :=
  OrderDual.toDual (toLex (item.deletedAt, item.id))

/-- What a cursor says to the listing. -/
def RecycleBinCursor.place (cursor : RecycleBinCursor) : (Lex (Time × Nat))ᵒᵈ :=
  OrderDual.toDual (toLex (cursor.deletedAt, cursor.id))

/-- The `WHERE` clause of a later page is standing behind the cursor. -/
theorem behindCursor_eq (cursor : Option RecycleBinCursor) :
    behindCursor cursor = Keyset.behind binPlace (cursor.map RecycleBinCursor.place) := by
  funext item
  cases cursor with
  | none => rfl
  | some cursor =>
      rw [behindCursor, Bool.eq_iff_iff, decide_eq_true_iff]
      refine Iff.trans ?_ Keyset.behind_some.symm
      rw [binPlace, RecycleBinCursor.place, OrderDual.toDual_lt_toDual, Prod.Lex.toLex_lt_toLex]

/-- The `ORDER BY` clause is the order of the places. -/
theorem latestFirst_eq : latestFirst = Keyset.inOrder binPlace := by
  funext a b
  rw [latestFirst, Keyset.inOrder, Bool.eq_iff_iff, decide_eq_true_iff,
    decide_eq_true_iff, binPlace,
    binPlace, OrderDual.toDual_le_toDual, Prod.Lex.toLex_le_toLex]

/-- **The query of a batch** is the general keyset query. -/
theorem listRecycle_eq (c : Tables k) (bucketName : String) (limit : Nat)
    (cursor : Option RecycleBinCursor) :
    listRecycle c bucketName limit cursor
      = (Keyset.candidates binPlace (cursor.map RecycleBinCursor.place)
          (c.recycleBin.select (inBucket k bucketName))).take limit := by
  rw [listRecycle, Keyset.candidates, behindCursor_eq, latestFirst_eq]

/-- All rows in order are the query without a cursor and without a limit. -/
theorem orderedRows_eq (c : Tables k) (bucketName : String) :
    orderedRows c bucketName
      = Keyset.candidates binPlace none (c.recycleBin.select (inBucket k bucketName)) := by
  have hall : Keyset.behind binPlace none = fun _ => true := funext fun _ => rfl
  rw [orderedRows, Keyset.candidates, latestFirst_eq, hall, List.filter_true]

/-- No two rows stand in one place, since the id is a part of it. -/
theorem binPlaces_nodup (c : Tables k) (bucketName : String) :
    ((c.recycleBin.select (inBucket k bucketName)).map binPlace).Nodup := by
  refine List.Nodup.map_on (fun a ha b hb hplace => ?_) (c.recycleBin.rows_nodup.filter _)
  have hid : a.id = b.id := by
    have hpair := toLex.injective (OrderDual.toDual.injective hplace)
    exact (Prod.mk.inj hpair).2
  refine c.recycleBin.eq_of_clash (List.mem_filter.mp ha).1 (List.mem_filter.mp hb).1 ?_
  exact beq_iff_eq.mpr hid

/-- Later rows stand behind earlier ones. -/
theorem orderedRows_pairwise (c : Tables k) (bucketName : String) :
    (orderedRows c bucketName).Pairwise fun a b =>
      b.deletedAt < a.deletedAt ∨ (b.deletedAt = a.deletedAt ∧ b.id < a.id) := by
  rw [orderedRows_eq]
  refine (Keyset.candidates_pairwise (binPlaces_nodup c bucketName)).imp fun {a b} hlt => ?_
  rwa [binPlace, binPlace, OrderDual.toDual_lt_toDual, Prod.Lex.toLex_lt_toLex] at hlt

/-- The ordered rows are those of the bucket. -/
theorem mem_orderedRows {c : Tables k} {bucketName : String} {r : RecycleBinObject} :
    r ∈ orderedRows c bucketName ↔ r ∈ c.recycleBin.rows ∧ inBucket k bucketName r = true := by
  rw [orderedRows, List.mem_mergeSort]
  exact List.mem_filter

/-- **The reads** of one listing are the rows in its order. -/
theorem listRecycle_reads (c : Tables k) (bucketName : String) (batch : Nat)
    {front back : List RecycleBinObject} (h : orderedRows c bucketName = front ++ back) :
    Reads (listRecycle c bucketName batch) batch (cursorBehind none front) back := by
  intro front' back' hback
  rw [cursorBehind_append, listRecycle_eq]
  rw [hback, ← List.append_assoc, orderedRows_eq] at h
  congr 1
  rcases List.eq_nil_or_concat (front ++ front') with hnil | ⟨init, last, hinit⟩
  · rw [hnil, List.nil_append] at h
    rw [hnil, ← h]
    rfl
  · rw [List.concat_eq_append] at hinit
    rw [hinit, List.append_assoc, List.singleton_append] at h
    rw [hinit, cursorBehind, List.getLast?_concat]
    exact Keyset.candidates_behind (binPlaces_nodup c bucketName) h

/-! ## The service -/

/-- The number of items on a page: 20 when the request names none. -/
def pageLimit (limit : Int) : Nat := (if limit = 0 then defaultListLimit else limit).toNat

theorem pageLimit_pos {limit : Int} (hlow : 0 ≤ limit) : 0 < pageLimit limit := by
  rw [pageLimit]
  split
  · decide
  · omega

/-- The rows have places that a cursor can carry, and `int64` sizes. -/
def InRange (c : Tables k) : Prop :=
  ∀ r ∈ c.recycleBin.rows, Representable r.deletedAt r.id ∧ -2 ^ 63 ≤ r.size ∧ r.size < 2 ^ 63

/-- The cursor is read back as the same place. -/
theorem decodeRecycleBinCursor_encode {deletedAt : Time} {id : Nat}
    (h : Representable deletedAt id) :
    decodeRecycleBinCursor (encodeRecycleBinCursor deletedAt id) = .ok (some ⟨deletedAt, id⟩) := by
  rw [decodeRecycleBinCursor, encodeRecycleBinCursor, decodeCursor_encodeCursor h]
  rfl

/-- **One request** behind some groups returns the first page of the rest. -/
theorem listObjects_eq {c : Tables k} {input : ListRecycleBinObjectsInput}
    (hbucket : trimSpace input.bucketName = "" ∨ validateBucketName input.bucketName = .ok ())
    (hlow : 0 ≤ input.limit) (hhigh : input.limit ≤ maxListLimit) {before after : List Group}
    (hrows : orderedRows c input.bucketName = rawRows (before ++ after))
    (hapart : Apart (before ++ after))
    (hcursor : decodeRecycleBinCursor input.cursor = .ok (cursorBehind none (rawRows before))) :
    listObjects c input
        = .ok (some (firstPage (pageLimit input.limit) (after.map Group.item))) := by
  have hlimit : 1 ≤ (if input.limit = 0 then defaultListLimit else input.limit)
      ∧ (if input.limit = 0 then defaultListLimit else input.limit) ≤ maxListLimit := by
    split
    · decide
    · omega
  rw [rawRows_append] at hrows
  have hchecked : listObjects c input = listObjectsChecked c input := by
    rw [listObjects]
    split
    · next h => rw [hbucket.resolve_left h]; rfl
    · rfl
  rw [hchecked, listObjectsChecked]
  refine bind_eq_ok.mpr ⟨(), ensure_eq_ok.mpr hlimit, ?_⟩
  refine bind_eq_ok.mpr ⟨_, mapError_eq_ok.mpr hcursor, ?_⟩
  have hloop : ∀ batch, 0 < batch → listLoop (listRecycle c input.bucketName batch)
      (pageLimit input.limit) ((orderedRows c input.bucketName).length + 1)
      (cursorBehind none (rawRows before)) [] ⟨[], none⟩
        = some (firstPage (pageLimit input.limit) (after.map Group.item)) := by
    intro batch hbatch
    refine listLoop_eq hbatch _ _ [] (rawRows after) [] after ?_
      (listRecycle_reads c input.bucketName batch hrows) hapart.right rfl (Nat.zero_le _)
    rw [hrows, List.length_append]
    omega
  refine congrArg Except.ok (hloop _ ?_)
  have hdefault : defaultListLimit = 20 := rfl
  split <;> omega

/-! ## Following the cursors -/

/-- The items in pages; every page but the last is full. -/
structure Paged {α : Type} (limit : Nat) (items : List α) (pages : List (List α)) : Prop where
  all : pages.flatten = items
  full : ∀ page ∈ pages.dropLast, page.length = limit
  bounded : ∀ page ∈ pages, page.length ≤ limit

theorem Paged.cons {α : Type} {limit : Nat} {items page : List α} {pages : List (List α)}
    (h : Paged limit items pages) (hne : pages ≠ []) (hpage : page.length = limit) :
    Paged limit (page ++ items) (page :: pages) := by
  refine ⟨by rw [List.flatten_cons, h.all], ?_, List.forall_mem_cons.mpr ⟨hpage.le, h.bounded⟩⟩
  rw [List.dropLast_cons_of_ne_nil hne]
  exact List.forall_mem_cons.mpr ⟨hpage, h.full⟩

/-- The cursor of a full page stands behind its groups. -/
theorem fullPage_cursor {c : Tables k} (hrange : InRange c) {bucketName : String}
    {before page after : List Group} (hpage : page ≠ [])
    (hrows : orderedRows c bucketName = rawRows (before ++ (page ++ after))) :
    (fullPage (page.map Group.item)).nextCursor ≠ ""
      ∧ decodeRecycleBinCursor (fullPage (page.map Group.item)).nextCursor
        = .ok (cursorBehind none (rawRows (before ++ page))) := by
  obtain ⟨init, g, rfl⟩ : ∃ init g, page = init ++ [g] := by
    rcases List.eq_nil_or_concat page with hnil | ⟨init, g, hinit⟩
    · exact absurd hnil hpage
    · exact ⟨init, g, by rw [hinit, List.concat_eq_append]⟩
  obtain ⟨last, hlast, hcursor⟩ := Option.map_eq_some_iff.mp g.last
  have hitems : ((init ++ [g]).map Group.item).getLast? = some g.item := by
    rw [List.map_append, List.map_singleton, List.getLast?_concat]
  have hbehind : (rawRows (before ++ (init ++ [g]))).getLast? = some last := by
    have hsingle : rawRows [g] = g.rows := List.flatten_singleton
    rw [rawRows_append, rawRows_append, hsingle, ← List.append_assoc, List.getLast?_append, hlast]
    rfl
  have hlisted : last ∈ orderedRows c bucketName := by
    rw [hrows, ← List.append_assoc, rawRows_append]
    exact List.mem_append_left _ (List.mem_of_getLast? hbehind)
  have hrow := (mem_orderedRows.mp hlisted).1
  have hnext : (fullPage ((init ++ [g]).map Group.item)).nextCursor
      = encodeRecycleBinCursor last.deletedAt last.id := by
    rw [fullPage, hitems, Option.map_some, ← hcursor]
    rfl
  have hplace : cursorBehind none (rawRows (before ++ (init ++ [g])))
      = some ⟨last.deletedAt, last.id⟩ := by
    rw [cursorBehind, hbehind]
    rfl
  rw [hnext, hplace]
  refine ⟨encodeCursor_ne_empty last.deletedAt last.id, ?_⟩
  exact decodeRecycleBinCursor_encode (hrange last hrow).1

/-- **The traversal** shows every group once and ends. -/
theorem followPages_eq {c : Tables k} (hrange : InRange c) {bucketName : String}
    (hbucket : trimSpace bucketName = "" ∨ validateBucketName bucketName = .ok ()) {limit : Int}
    (hlow : 0 ≤ limit) (hhigh : limit ≤ maxListLimit) : ∀ (fuel : Nat) (before after : List Group)
      (cursor : String),
        after.length < fuel → orderedRows c bucketName = rawRows (before ++ after) →
      Apart (before ++ after) →
      decodeRecycleBinCursor cursor = .ok (cursorBehind none (rawRows before)) →
      ∃ pages, followPages c bucketName limit fuel cursor = .ok (some pages) ∧ pages ≠ []
        ∧ Paged (pageLimit limit) (after.map fun g => g.item.item) pages := by
  intro fuel
  induction fuel with
  | zero => exact fun _ _ _ h => absurd h (Nat.not_lt_zero _)
  | succ fuel ih =>
      intro before after cursor hfuel hrows hapart hcursor
      have hpage : listObjects c ⟨bucketName, limit, cursor⟩
          = .ok (some (firstPage (pageLimit limit) (after.map Group.item))) :=
        @listObjects_eq k c ⟨bucketName, limit, cursor⟩ hbucket hlow hhigh before after hrows
          hapart hcursor
      have hpos := pageLimit_pos hlow
      have hitems : ∀ groups : List Group, (groups.map Group.item).map LogicalItem.item
          = groups.map fun g => g.item.item := fun groups => List.map_map
      by_cases hfits : after.length ≤ pageLimit limit
      · rw [firstPage, List.length_map, if_pos hfits, hitems] at hpage
        refine ⟨[after.map fun g => g.item.item], ?_, List.cons_ne_nil _ _, List.flatten_singleton,
          List.forall_mem_nil _, List.forall_mem_singleton.mpr (by rwa [List.length_map])⟩
        rw [followPages]
        exact bind_eq_ok.mpr ⟨_, hpage, if_pos rfl⟩
      · rw [firstPage, List.length_map, if_neg hfits, ← List.map_take] at hpage
        have hsplit : after = after.take (pageLimit limit) ++ after.drop (pageLimit limit) :=
          (List.take_append_drop _ _).symm
        have htake : (after.take (pageLimit limit)).length = pageLimit limit := by
          rw [List.length_take]
          omega
        have hne : after.take (pageLimit limit) ≠ [] := by
          refine List.ne_nil_of_length_pos ?_
          omega
        rw [hsplit] at hrows hapart
        obtain ⟨hnonempty, hnext⟩ := fullPage_cursor hrange hne hrows
        rw [← List.append_assoc] at hrows hapart
        obtain ⟨pages, hpages, hpagesNe, hpaged⟩ := ih (before ++ after.take (pageLimit limit))
          (after.drop (pageLimit limit)) _ (by rw [List.length_drop]; omega) hrows hapart hnext
        refine ⟨(after.take (pageLimit limit)).map (fun g => g.item.item) :: pages, ?_,
          List.cons_ne_nil _ _, ?_⟩
        · rw [followPages]
          refine bind_eq_ok.mpr ⟨_, hpage, ?_⟩
          refine (if_neg hnonempty).trans ?_
          refine bind_eq_ok.mpr ⟨_, hpages, ?_⟩
          show Except.ok (some ((fullPage _).items :: pages)) = _
          rw [fullPage, hitems]
        · have hcons := hpaged.cons hpagesNe
            (show ((after.take (pageLimit limit)).map fun g => g.item.item).length = _ by
              rw [List.length_map, htake])
          rw [← List.map_append, ← hsplit] at hcons
          exact hcons

/-! ## Recycle tables -/

/-- Each delete group came in by one statement, and it is one row or the rows of a
    recursive folder delete; single files of it may have left since. -/
structure GroupedBin (c : Tables k) : Prop where
  sameTime : ∀ a ∈ c.recycleBin.rows, ∀ b ∈ c.recycleBin.rows,
    a.deleteGroupID = b.deleteGroupID → a.deletedAt = b.deletedAt
  together : ∀ a ∈ c.recycleBin.rows, ∀ b ∈ c.recycleBin.rows, ∀ d ∈ c.recycleBin.rows,
    a.deleteGroupID = d.deleteGroupID → a.id < b.id → b.id < d.id →
      b.deleteGroupID = a.deleteGroupID
  shape : ∀ a ∈ c.recycleBin.rows,
    (∀ b ∈ c.recycleBin.rows, b.deleteGroupID = a.deleteGroupID → b = a)
      ∨ ∃ dir marker, FolderDelete dir marker
          (c.recycleBin.rows.filter fun b => decide (b.deleteGroupID = a.deleteGroupID))

/-- What a delete group is shown as. -/
inductive Shown : List RecycleBinObject → RecycleBinObjectItem → Prop where
  | single (r : RecycleBinObject) : Shown [r] (recycleBinObjectToItem r)
  | folder {dir : String} {marker : RecycleBinObject} {rows : List RecycleBinObject} :
      FolderDelete dir marker rows → Shown rows (folderItem marker rows)

variable {c : Tables k}

theorem orderedRows_nodup (c : Tables k) (bucketName : String) :
    (orderedRows c bucketName).Nodup := by
  refine (orderedRows_pairwise c bucketName).imp fun {a b} h => ?_
  rintro rfl
  rcases h with h | ⟨-, h⟩
  · exact lt_irrefl _ h
  · exact Nat.lt_irrefl _ h

/-- In the order of the listing a group stands together. -/
theorem orderedRows_contiguous (hgrouped : GroupedBin c) (bucketName : String) :
    Contiguous (·.deleteGroupID) (orderedRows c bucketName) := by
  intro a b d hsub hgroup
  have hrow : ∀ r ∈ [a, b, d],
    r ∈ c.recycleBin.rows := fun r hr => (mem_orderedRows.mp (hsub.subset hr)).1
  have ha := hrow a List.mem_cons_self
  have hb := hrow b (List.mem_cons_of_mem _ List.mem_cons_self)
  have hd := hrow d (List.mem_cons_of_mem _ (List.mem_cons_of_mem _ List.mem_cons_self))
  obtain ⟨hab, hbd⟩ := List.pairwise_cons.mp ((orderedRows_pairwise c bucketName).sublist hsub)
  have hab := hab b List.mem_cons_self
  have hbd := (List.pairwise_cons.mp hbd).1 d List.mem_cons_self
  have htime := hgrouped.sameTime a ha d hd hgroup
  -- the times between two equal ones are equal, so the ids decide
  have hids : d.id < b.id ∧ b.id < a.id := by
    have hda : a.deletedAt ≤ d.deletedAt := htime.le
    rcases hab with hab | ⟨hab, hlt⟩
    · have hdb : d.deletedAt ≤ b.deletedAt := hbd.elim le_of_lt fun h => h.1.le
      exact absurd (hdb.trans_lt hab) (not_lt.mpr hda)
    · rcases hbd with hbd | ⟨-, hlt'⟩
      · exact absurd (hbd.trans_le hab.le) (not_lt.mpr hda)
      · exact ⟨hlt', hlt⟩
  exact (hgrouped.together d hd b hb a ha hgroup.symm hids.1 hids.2).trans hgroup.symm

/-- The rows of a group are all in the listing when one is. -/
theorem block_rows {bucketName : String} {a r : RecycleBinObject}
    (ha : a ∈ orderedRows c bucketName) {dir : String} {marker : RecycleBinObject}
    (hfolder : FolderDelete dir marker
      (c.recycleBin.rows.filter fun b => decide (b.deleteGroupID = a.deleteGroupID))) :
    r ∈ orderedRows c bucketName ∧ r.deleteGroupID = a.deleteGroupID
      ↔ r ∈ c.recycleBin.rows.filter fun b => decide (b.deleteGroupID = a.deleteGroupID) := by
  obtain ⟨hrow, hbucket⟩ := mem_orderedRows.mp ha
  rw [mem_orderedRows, List.mem_filter, decide_eq_true_iff, and_assoc]
  refine and_congr_right fun hr => ⟨And.right, fun hgroup => ⟨?_, hgroup⟩⟩
  have hsame : r.bucketName = a.bucketName := by
    rw [hfolder.bucket r (List.mem_filter.mpr ⟨hr, decide_eq_true hgroup⟩),
      hfolder.bucket a (List.mem_filter.mpr ⟨hrow, decide_eq_true rfl⟩)]
  rw [inBucket] at hbucket ⊢
  rwa [hsame]

/-- **Each block** of the listing is a group with one item. -/
theorem exists_group (hgrouped : GroupedBin c) (hrange : InRange c) {bucketName : String}
    {blocks : List (List RecycleBinObject)} (hblocks : orderedRows c bucketName = blocks.flatten)
    (happart : Blocks (·.deleteGroupID) blocks) {b : List RecycleBinObject} (hb : b ∈ blocks) :
    ∃ g : Group, g.rows = b ∧ Shown b g.item.item := by
  have hsub : b.Sublist (orderedRows c bucketName) := hblocks ▸ List.sublist_flatten_of_mem hb
  have huniform := happart.uniform b hb
  obtain ⟨a, ha⟩ := List.exists_mem_of_ne_nil b huniform.ne_nil
  have hordered := hsub.subset ha
  have hrow : ∀ r ∈ b, r ∈ c.recycleBin.rows := fun r hr => (mem_orderedRows.mp (hsub.subset hr)).1
  have htime : Uniform (·.deletedAt) b :=
    ⟨huniform.ne_nil, fun x hx y hy =>
      hgrouped.sameTime x (hrow x hx) y (hrow y hy) (huniform.agree x hx y hy)⟩
  rcases hgrouped.shape a (hrow a ha) with hone | ⟨dir, marker, hfolder⟩
  · have hself : b = [a] := by
      refine List.perm_singleton.mp ((List.perm_ext_iff_of_nodup
        ((orderedRows_nodup c bucketName).sublist hsub) (List.nodup_singleton a)).mpr fun r => ?_)
      rw [List.mem_singleton]
      refine ⟨fun hr => hone r (hrow r hr) (huniform.agree r hr a ha), ?_⟩
      rintro rfl
      exact ha
    subst hself
    exact ⟨⟨[a], _, logicalItems_single a, rfl, huniform, htime⟩, rfl, .single a⟩
  · have hfolder' : FolderDelete dir marker b := by
      refine hfolder.of_mem_iff fun r => ?_
      rw [happart.mem_iff hb ha, ← hblocks]
      exact block_rows hordered hfolder
    have hsize : marker.size.bmod (2 ^ 64) = marker.size := by
      obtain ⟨-, hlow, hhigh⟩ := hrange marker (hrow marker hfolder'.mem)
      exact unixNano_eq hlow hhigh
    obtain ⟨last, hlast, hlogical⟩ := hfolder'.logicalItems hsize
    exact ⟨⟨b, _, hlogical, by rw [hlast]; rfl, huniform, htime⟩, rfl, .folder hfolder'⟩

/-- Blocks that each show an item are the blocks of groups. -/
theorem exists_groups : ∀ {blocks : List (List RecycleBinObject)},
    (∀ b ∈ blocks, ∃ g : Group, g.rows = b ∧ Shown b g.item.item) →
      ∃ groups : List Group, groups.map Group.rows = blocks
        ∧ List.Forall₂ Shown blocks (groups.map fun g => g.item.item) := by
  intro blocks
  induction blocks with
  | nil => exact fun _ => ⟨[], rfl, .nil⟩
  | cons b rest ih =>
      intro h
      obtain ⟨⟨g, rfl, hshown⟩, hrest⟩ := List.forall_mem_cons.mp h
      obtain ⟨groups, rfl, hall⟩ := ih hrest
      exact ⟨g :: groups, rfl, .cons hshown hall⟩

/-- **Recycle bin paging**: following the cursors ends, no page but the last is short, and
    the pages are the logical items of all rows; each delete group is shown once, a folder
    as its marker with the sizes of all its files. -/
theorem recycle_bin_pages (hgrouped : GroupedBin c) (hrange : InRange c) {bucketName : String}
    (hbucket : trimSpace bucketName = "" ∨ validateBucketName bucketName = .ok ()) {limit : Int}
    (hlow : 0 ≤ limit) (hhigh : limit ≤ maxListLimit) {fuel : Nat}
    (hfuel : (orderedRows c bucketName).length < fuel) :
    ∃ pages groups, followPages c bucketName limit fuel "" = .ok (some pages)
      ∧ Paged (pageLimit limit)
          ((recycleBinLogicalItemsFromRawItems (orderedRows c bucketName)).map LogicalItem.item)
            pages
      ∧ orderedRows c bucketName = groups.flatten ∧ Blocks (·.deleteGroupID) groups
      ∧ List.Forall₂ Shown groups pages.flatten := by
  obtain ⟨blocks, hblocks, hapart⟩ :=
    exists_blocks _ _ le_rfl (orderedRows_contiguous hgrouped bucketName)
  obtain ⟨groups, rfl, hshown⟩ :=
    exists_groups fun b hb => exists_group hgrouped hrange hblocks hapart hb
  have hlength : groups.length ≤ (orderedRows c bucketName).length := by
    have hblocksLength := hapart.length_le
    rwa [List.length_map, ← hblocks] at hblocksLength
  have hstart : decodeRecycleBinCursor "" = .ok (cursorBehind none (rawRows [])) := by
    rw [decodeRecycleBinCursor, decodeCursor, if_pos (by decide)]
    rfl
  obtain ⟨pages, hpages, -, hpaged⟩ := followPages_eq hrange hbucket hlow hhigh fuel [] groups ""
    (Nat.lt_of_le_of_lt hlength hfuel) hblocks hapart hstart
  refine ⟨pages, groups.map Group.rows, hpages, ?_, hblocks, hapart, hpaged.all.symm ▸ hshown⟩
  rw [hblocks, ← rawRows, logicalItems_eq _ groups le_rfl hapart, List.map_map]
  exact hpaged

/-- A folder with a file, and a file deleted on its own at the same time. -/
def docsMarker : RecycleBinObject where
  id := 2
  deleteGroupID := "folder"
  bucketName := "photos"
  objectKey := "docs/.light-oss-folder"
  storagePath := ""
  size := 0
  deletedAt := 5

/-- A file that was deleted with its folder. -/
def docsFile : RecycleBinObject :=
  { docsMarker with id := 1, objectKey := "docs/a.txt", storagePath := "objects/a", size := 7 }

/-- A file that was deleted alone. -/
def looseFile : RecycleBinObject :=
  { docsFile with id := 3, deleteGroupID := "file", objectKey := "b.txt", size := 2 }

/-- A recycle bin with the group of a folder and a single file. -/
def smallBin : Tables Collation.binary where
  recycleBin := ⟨[docsFile, docsMarker, looseFile], by decide⟩

/-- Its groups are whole and of one time. -/
theorem smallBin_grouped : GroupedBin smallBin := by
  refine ⟨by decide, by decide, fun a ha => ?_⟩
  have hall : ∀ a ∈ smallBin.recycleBin.rows, a.deleteGroupID = "folder"
    ∨ a = looseFile := by decide
  rcases hall a ha with hgroup | rfl
  · have hrows : (smallBin.recycleBin.rows.filter fun b => decide (b.deleteGroupID = "folder"))
        = [docsFile, docsMarker] := by decide
    rw [hgroup, hrows]
    refine Or.inr ⟨"docs", docsMarker, by decide, by decide, by decide, by decide, ?_, by decide⟩
    refine List.forall_mem_cons.mpr ⟨⟨"a.txt", by decide, by decide, by decide⟩, ?_⟩
    exact List.forall_mem_singleton.mpr ⟨folderMarkerFilename, by decide, by decide, by decide⟩
  · exact Or.inl (by decide)

theorem smallBin_inRange : InRange smallBin := by
  have hall : ∀ r ∈ smallBin.recycleBin.rows, (-2 ^ 63 ≤ r.deletedAt ∧ r.deletedAt < 2 ^ 63
      ∧ r.id < 2 ^ 64) ∧ -2 ^ 63 ≤ r.size ∧ r.size < 2 ^ 63 := by decide
  exact hall

/-- With one item a page it has two pages, the folder shown once. -/
theorem recycle_bin_pages_smallBin :
    ∃ pages groups, followPages smallBin "" 1 4 "" = .ok (some pages)
      ∧ Paged 1
        ((recycleBinLogicalItemsFromRawItems (orderedRows smallBin "")).map LogicalItem.item)
          pages
      ∧ orderedRows smallBin "" = groups.flatten ∧ BlockList.Blocks (·.deleteGroupID) groups
      ∧ List.Forall₂ Shown groups pages.flatten := by
  refine recycle_bin_pages smallBin_grouped smallBin_inRange (Or.inl (by decide)) (by decide)
    (by decide) ?_
  rw [orderedRows, List.length_mergeSort]
  decide

end RecyclePages
