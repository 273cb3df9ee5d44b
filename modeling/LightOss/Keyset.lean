import Mathlib.Data.List.Sort
import Mathlib.Order.Basic

/-! # Keyset pages — a listing that goes on behind the last key it returned

    A page holds the first rows behind a key; when more follow, its last key is
    where the next page begins.  A walk asks one row set after the other, and the
    rows may change in between.

    What one page knows is `next_some`: its items end in the next key, and every other
    row behind the old key is behind the new one.  By induction on the row sets the keys
    only go up (`walk_pairwise`), whatever happens to the rows, and a row that is there
    for every page is not skipped (`walk_covers`).  Each page has fewer rows in front of
    it than the last (`candidates_shrink`), so a walk over rows that stay ends. -/

namespace Keyset

variable {α κ : Type} [LinearOrder κ] (key : α → κ)

/-- The row stands behind the key, or the listing begins. -/
def behind (start : Option κ) (a : α) : Bool :=
  match start with
  | none => true
  | some k => decide (k < key a)

/-- Rows in the order of their keys. -/
def inOrder (a b : α) : Bool := decide (key a ≤ key b)

/-- All rows behind a key, in order. -/
def candidates (start : Option κ) (rows : List α) : List α :=
  (rows.filter (behind key start)).mergeSort (inOrder key)

/-- What one request returns: rows, and the key to go on behind when there are more. -/
structure Page (α κ : Type) where
  items : List α
  next : Option κ

/-- One request: it fetches one row more than the limit, to see whether more follow. -/
def page (limit : Nat) (start : Option κ) (rows : List α) : Page α κ where
  items := (candidates key start rows).take limit
  next :=
    if limit < (candidates key start rows).length then
      ((candidates key start rows).take limit).getLast?.map key
    else none

/-- The pages of a walk, and the key to go on from unless it has ended. -/
structure Walk (α κ : Type) where
  pages : List (List α)
  pending : Option (Option κ)

/-- The pages over the row sets that the requests meet, each from the cursor of the one
    before. -/
def walk (limit : Nat) : List (List α) → Option κ → Walk α κ
  | [], start => { pages := [], pending := some start }
  | rows :: rest, start =>
      match (page key limit start rows).next with
      | none => { pages := [(page key limit start rows).items], pending := none }
      | some k =>
          { pages := (page key limit start rows).items :: (walk limit rest (some k)).pages
            pending := (walk limit rest (some k)).pending }

/-! ## One page -/

variable {key} {limit : Nat} {start : Option κ} {rows : List α}

theorem behind_some {k : κ} {a : α} : behind key (some k) a = true ↔ k < key a := decide_eq_true_iff

/-- The candidates are the rows behind the start. -/
theorem mem_candidates {a : α} :
    a ∈ candidates key start rows ↔ a ∈ rows ∧ behind key start a = true := by
  rw [candidates, List.mem_mergeSort, List.mem_filter]

/-- There are at most as many candidates as rows. -/
theorem candidates_length_le : (candidates key start rows).length ≤ rows.length := by
  rw [candidates, List.length_mergeSort]
  exact List.length_filter_le _ _

/-- With distinct keys the candidates increase strictly. -/
theorem candidates_pairwise (hkeys : (rows.map key).Nodup) :
    (candidates key start rows).Pairwise fun a b => key a < key b := by
  have hsorted : (candidates key start rows).Pairwise fun a b => inOrder key a b = true := by
    refine List.pairwise_mergeSort (fun a b c hab hbc => ?_) (fun a b => ?_) _
    · exact decide_eq_true ((of_decide_eq_true hab).trans (of_decide_eq_true hbc))
    · rcases le_total (key a) (key b) with h | h
      · rw [inOrder, decide_eq_true h, Bool.true_or]
      · rw [Bool.or_comm, inOrder, decide_eq_true h, Bool.true_or]
  have hnodup : ((candidates key start rows).map key).Nodup := by
    refine ((List.mergeSort_perm _ _).map key).nodup_iff.mpr ?_
    exact hkeys.sublist (List.filter_sublist.map key)
  rw [List.Nodup, List.pairwise_map] at hnodup
  exact (hsorted.and hnodup).imp fun h => lt_of_le_of_ne (of_decide_eq_true h.1) h.2

/-- A page shows rows behind its start. -/
theorem mem_items {a : α} (h : a ∈ (page key limit start rows).items) :
    a ∈ rows ∧ behind key start a = true :=
  mem_candidates.mp (List.mem_of_mem_take h)

/-- The items of a traversal stand in strict order of their keys, when no two rows share
    one. -/
theorem items_pairwise (hkeys : (rows.map key).Nodup) :
    (page key limit start rows).items.Pairwise fun a b => key a < key b :=
  (candidates_pairwise hkeys).sublist (List.take_sublist _ _)

/-- A page that ends the listing has every row behind the key. -/
theorem items_of_next_none (hnext : (page key limit start rows).next = none) :
    limit = 0 ∨ (page key limit start rows).items = candidates key start rows := by
  rw [page] at hnext
  dsimp only at hnext
  split at hnext
  · next hmore =>
      rw [Option.map_eq_none_iff, List.getLast?_eq_none_iff, List.take_eq_nil_iff] at hnext
      rcases hnext with hzero | hnil
      · exact Or.inl hzero
      · rw [hnil] at hmore
        exact absurd hmore (Nat.not_lt_zero _)
  · next hless => exact Or.inr (List.take_of_length_le (Nat.le_of_not_lt hless))

/-- The key of the next page is that of the last item; the other rows behind the old
    key are behind it. -/
theorem next_some (hkeys : (rows.map key).Nodup) {k : κ}
    (hnext : (page key limit start rows).next = some k) :
    (∃ front a, (page key limit start rows).items = front ++ [a] ∧ key a = k)
      ∧ (∀ a ∈ (page key limit start rows).items, key a ≤ k)
      ∧ ∀ a ∈ rows, behind key start a = true →
          a ∈ (page key limit start rows).items ∨ k < key a := by
  have hnext' := hnext
  rw [page] at hnext'
  dsimp only at hnext'
  split at hnext'
  · obtain ⟨last, hlast, rfl⟩ := Option.map_eq_some_iff.mp hnext'
    obtain ⟨front, hfront⟩ := List.getLast?_eq_some_iff.mp hlast
    have hitems : (page key limit start rows).items = front ++ [last] := hfront
    refine ⟨⟨front, last, hitems, rfl⟩, fun a ha => ?_, fun a ha hbehind => ?_⟩
    -- the last item has the greatest key of the page
    · have hpairwise : (page key limit start rows).items.Pairwise fun a b => key a < key b :=
        items_pairwise hkeys
      rw [hitems] at ha hpairwise
      rcases List.mem_append.mp ha with ha | ha
      · exact ((List.pairwise_append.mp hpairwise).2.2 a ha last List.mem_cons_self).le
      · rw [List.mem_singleton.mp ha]
    -- a row that was cut off stands behind the last item
    · have hpairwise : (candidates key start rows).Pairwise fun a b => key a < key b :=
        candidates_pairwise hkeys
      have ha := mem_candidates.mpr ⟨ha, hbehind⟩
      rw [← List.take_append_drop limit (candidates key start rows)] at ha hpairwise
      rcases List.mem_append.mp ha with ha | ha
      · exact Or.inl ha
      · refine Or.inr ((List.pairwise_append.mp hpairwise).2.2 last ?_ a ha)
        rw [hfront]
        exact List.mem_append_right _ List.mem_cons_self
  · exact nomatch hnext'

/-- A row behind the next key was behind the old one. -/
theorem behind_of_next (hkeys : (rows.map key).Nodup) {k : κ}
    (hnext : (page key limit start rows).next = some k) {a : α} (ha : k < key a) :
    behind key start a = true := by
  obtain ⟨⟨front, last, hitems, rfl⟩, -⟩ := next_some hkeys hnext
  have hlast : last ∈ (page key limit start rows).items := by
    rw [hitems]
    exact List.mem_append_right _ List.mem_cons_self
  have hbehind := (mem_items hlast).2
  cases start with
  | none => rfl
  | some k => exact behind_some.mpr ((behind_some.mp hbehind).trans ha)

/-- The candidates behind a candidate are those that follow it. -/
theorem candidates_behind (hkeys : (rows.map key).Nodup) {front back : List α} {a : α}
    (h : candidates key start rows = front ++ a :: back) :
    candidates key (some (key a)) rows = back := by
  have hpairwise : (candidates key start rows).Pairwise fun a b => key a < key b :=
    candidates_pairwise hkeys
  have hmem : ∀ b, b ∈ front ++ a :: back ↔ b ∈ rows ∧ behind key start b = true := fun b => by
    rw [← h, mem_candidates]
  rw [h] at hpairwise
  obtain ⟨-, hback, hfront⟩ := List.pairwise_append.mp hpairwise
  obtain ⟨hnext, hback⟩ := List.pairwise_cons.mp hback
  have : Std.Irrefl fun a b : α => key a < key b := ⟨fun a => lt_irrefl (key a)⟩
  have : Std.Antisymm fun a b : α => key a < key b := ⟨fun a b hab hba => absurd hba hab.asymm⟩
  refine (candidates_pairwise hkeys).eq_of_mem_iff hback fun b => ?_
  rw [mem_candidates, behind_some]
  constructor
  · rintro ⟨hb, hlt⟩
    -- a row behind `a` was behind the start as well
    have hstart : behind key start b = true := by
      have ha := ((hmem a).mp (List.mem_append_right _ List.mem_cons_self)).2
      cases start with
      | none => rfl
      | some k => exact behind_some.mpr ((behind_some.mp ha).trans hlt)
    rcases List.mem_append.mp ((hmem b).mpr ⟨hb, hstart⟩) with hb | hb
    · exact absurd (hfront b hb a List.mem_cons_self) hlt.asymm
    · rcases List.mem_cons.mp hb with rfl | hb
      · exact absurd hlt (lt_irrefl _)
      · exact hb
  · intro hb
    have hmem' := List.mem_append_right front (List.mem_cons_of_mem a hb)
    exact ⟨((hmem b).mp hmem').1, hnext b hb⟩

/-- The candidates of the next page are fewer. -/
theorem candidates_shrink (hkeys : (rows.map key).Nodup) {k : κ}
    (hnext : (page key limit start rows).next = some k) :
    (candidates key (some k) rows).length < (candidates key start rows).length := by
  obtain ⟨⟨front, last, hitems, hlast⟩, -⟩ := next_some hkeys hnext
  have hmem : last ∈ (page key limit start rows).items := by
    rw [hitems]
    exact List.mem_append_right _ List.mem_cons_self
  have hfilter : rows.filter (behind key (some k))
      = (rows.filter (behind key start)).filter (behind key (some k)) := by
    rw [List.filter_filter]
    refine List.filter_congr fun a ha => ?_
    rw [Bool.eq_iff_iff, Bool.and_eq_true]
    exact ⟨fun h => ⟨h, behind_of_next hkeys hnext (behind_some.mp h)⟩, fun h => h.1⟩
  rw [candidates, candidates, List.length_mergeSort, List.length_mergeSort, hfilter]
  refine List.length_filter_lt_length_iff_exists.mpr ⟨last, ?_, ?_⟩
  · exact List.mem_filter.mpr (mem_items hmem)
  · rw [behind_some, hlast]
    exact lt_irrefl k

/-! ## Walks -/

/-- **No row twice**: along a walk the keys only go up, whatever happens to the rows
    between the pages. -/
theorem walk_pairwise (limit : Nat) : ∀ (tables : List (List α)) (start : Option κ),
    (∀ rows ∈ tables, (rows.map key).Nodup) →
      ((walk key limit tables start).pages.flatten.Pairwise fun a b => key a < key b)
      ∧ ∀ a ∈ (walk key limit tables start).pages.flatten, behind key start a = true := by
  intro tables
  induction tables with
  | nil => exact fun start _ => ⟨List.Pairwise.nil, nofun⟩
  | cons rows rest ih =>
      intro start htables
      obtain ⟨hkeys, hrest⟩ := List.forall_mem_cons.mp htables
      rw [walk]
      split
      · next hnext =>
          rw [List.flatten_singleton]
          exact ⟨items_pairwise hkeys, fun a ha => (mem_items ha).2⟩
      · next k hnext =>
          obtain ⟨hpairwise, hbehind⟩ := ih (some k) hrest
          rw [List.flatten_cons]
          refine ⟨List.pairwise_append.mpr ⟨items_pairwise hkeys, hpairwise, fun a ha b hb => ?_⟩,
            fun a ha => ?_⟩
          -- this page ends at `k`, and all later ones begin behind it
          · have hle := (next_some hkeys hnext).2.1 a ha
            exact lt_of_le_of_lt hle (behind_some.mp (hbehind b hb))
          · rcases List.mem_append.mp ha with ha | ha
            · exact (mem_items ha).2
            · exact behind_of_next hkeys hnext (behind_some.mp (hbehind a ha))

/-- **No row skipped**: one that is there for every page of a walk is returned, or
    still ahead of it. -/
theorem walk_covers (hlimit : 0 < limit) : ∀ (tables : List (List α)) (start : Option κ),
    (∀ rows ∈ tables, (rows.map key).Nodup) → ∀ a, behind key start a = true →
      (∀ rows ∈ tables.take (walk key limit tables start).pages.length, a ∈ rows) →
      a ∈ (walk key limit tables start).pages.flatten
        ∨ ∃ next, (walk key limit tables start).pending = some next ∧ behind key next a = true := by
  intro tables
  induction tables with
  | nil => exact fun start _ a ha _ => Or.inr ⟨start, rfl, ha⟩
  | cons rows rest ih =>
      intro start htables a ha hthere
      obtain ⟨hkeys, hrest⟩ := List.forall_mem_cons.mp htables
      rw [walk] at hthere ⊢
      split at hthere
      · next hnext =>
          have hrow : a ∈ rows := hthere rows List.mem_cons_self
          -- the last page has every row behind its start
          have hitems := (items_of_next_none hnext).resolve_left (Nat.ne_of_gt hlimit)
          refine Or.inl ?_
          rw [List.flatten_singleton, hitems]
          exact mem_candidates.mpr ⟨hrow, ha⟩
      · next k hnext =>
          have hrow : a ∈ rows := hthere rows List.mem_cons_self
          rw [List.flatten_cons, List.mem_append]
          -- on the page, or behind its end and then in the rest of the walk
          rcases (next_some hkeys hnext).2.2 a hrow ha with hitem | hbehind
          · exact Or.inl (Or.inl hitem)
          · have hlater := ih (some k) hrest a (behind_some.mpr hbehind)
              fun rows hrows => hthere rows (List.mem_cons_of_mem _ hrows)
            rcases hlater with hlater | hlater
            · exact Or.inl (Or.inr hlater)
            · exact Or.inr hlater

/-- Every returned row was in one of the row sets. -/
theorem mem_walk : ∀ {tables : List (List α)} {start : Option κ} {a : α},
    a ∈ (walk key limit tables start).pages.flatten → ∃ rows ∈ tables, a ∈ rows := by
  intro tables
  induction tables with
  | nil => exact fun h => nomatch h
  | cons rows rest ih =>
      intro start a h
      rw [walk] at h
      split at h
      · rw [List.flatten_singleton] at h
        exact ⟨rows, List.mem_cons_self, (mem_items h).1⟩
      · rw [List.flatten_cons] at h
        rcases List.mem_append.mp h with h | h
        · exact ⟨rows, List.mem_cons_self, (mem_items h).1⟩
        · obtain ⟨rows', hrows', ha⟩ := ih h
          exact ⟨rows', List.mem_cons_of_mem _ hrows', ha⟩

/-- A relation between the rows of earlier and later row sets holds along a walk. -/
theorem walk_related {S : α → α → Prop} : ∀ (tables : List (List α)) (start : Option κ),
    (tables.Pairwise fun rows rows' => ∀ a ∈ rows, ∀ b ∈ rows', S a b) →
      (∀ rows ∈ tables, ∀ a ∈ rows, ∀ b ∈ rows, S a b) →
      (walk key limit tables start).pages.flatten.Pairwise S := by
  intro tables
  induction tables with
  | nil => exact fun start _ _ => List.Pairwise.nil
  | cons rows rest ih =>
      intro start hlater hsame
      obtain ⟨hhead, htail⟩ := List.pairwise_cons.mp hlater
      obtain ⟨hrows, hrest⟩ := List.forall_mem_cons.mp hsame
      have hitems : (page key limit start rows).items.Pairwise S :=
        List.pairwise_of_forall_mem_list fun a ha b hb =>
          hrows a (mem_items ha).1 b (mem_items hb).1
      rw [walk]
      split
      · rw [List.flatten_singleton]
        exact hitems
      · next k hnext =>
          rw [List.flatten_cons]
          refine List.pairwise_append.mpr ⟨hitems, ih (some k) htail hrest, fun a ha b hb => ?_⟩
          obtain ⟨rows', hrows', hb⟩ := mem_walk hb
          exact hhead rows' hrows' a (mem_items ha).1 b hb

/-- Over rows that stay a walk ends. -/
theorem walk_ends (limit : Nat) (hkeys : (rows.map key).Nodup) : ∀ (n : Nat) (start : Option κ),
    (candidates key start rows).length < n →
      (walk key limit (List.replicate n rows) start).pending = none := by
  intro n
  induction n with
  | zero => exact fun start h => absurd h (Nat.not_lt_zero _)
  | succ n ih =>
      intro start h
      rw [List.replicate_succ, walk]
      split
      · rfl
      · next k hnext => exact ih (some k) (by have := candidates_shrink hkeys hnext; omega)

/-- **Every row once, in order**: what a walk over rows that stay returns. -/
theorem walk_static (hlimit : 0 < limit) (hkeys : (rows.map key).Nodup) {n : Nat}
    (hn : rows.length < n) :
    (walk key limit (List.replicate n rows) none).pending = none
      ∧ (walk key limit (List.replicate n rows) none).pages.flatten.Perm rows
      ∧ (walk key limit (List.replicate n rows) none).pages.flatten.Pairwise
          fun a b => key a < key b := by
  have htables : ∀ rows' ∈ List.replicate n rows, (rows'.map key).Nodup := by
    intro rows' hrows'
    rw [List.eq_of_mem_replicate hrows']
    exact hkeys
  have hends := walk_ends limit hkeys n none (Nat.lt_of_le_of_lt candidates_length_le hn)
  have hpairwise := (walk_pairwise limit _ none htables).1
  refine ⟨hends, ?_, hpairwise⟩
  have hnodup : (walk key limit (List.replicate n rows) none).pages.flatten.Nodup := by
    refine hpairwise.imp fun {a b} hlt => ?_
    rintro rfl
    exact lt_irrefl _ hlt
  refine (List.perm_ext_iff_of_nodup hnodup hkeys.of_map).mpr fun a => ⟨fun ha => ?_, fun ha => ?_⟩
  · obtain ⟨rows', hrows', ha⟩ := mem_walk ha
    exact List.eq_of_mem_replicate hrows' ▸ ha
  · have hcovers := walk_covers hlimit _ none htables a rfl fun rows' hrows' => by
      rw [List.eq_of_mem_replicate (List.mem_of_mem_take hrows')]
      exact ha
    rcases hcovers with hcovers | ⟨next, hpending, -⟩
    · exact hcovers
    · exact nomatch hends.symm.trans hpending

end Keyset
