import Mathlib.Data.List.Perm.Basic
import Mathlib.Data.List.Nodup
import Mathlib.Data.List.Pairwise
import Mathlib.Algebra.Order.Group.Nat
import Mathlib.Algebra.Order.BigOperators.Group.List
import Mathlib.Algebra.GroupWithZero.Nat

/-! # Keyed tables — rows under their unique constraints

    A relational table is a list of rows together with the fact that no two of
    its rows clash on a unique key.  The constraint travels with the rows: a
    table that violates it cannot be built, `INSERT` decides whether the new row
    fits (`insert?_eq_some`), and `UPDATE` is only available for assignments that
    leave the key columns alone (`KeepsKey`).  Rows that share a unique key are one
    row (`eq_of_clash`), so a query by a key finds it (`first?_of_mem`).

    The second half is the bookkeeping every counter proof needs: how the sum of
    a column moves under `INSERT`, `UPDATE … WHERE` and `DELETE … WHERE`
    (`sum_insert`, `sum_update`, `sum_delete`). -/

namespace KeyedTable

variable {α β : Type}

/-- `clash` compares the key columns of two rows: every row clashes with itself,
    and the comparison is symmetric. -/
class UniqueKey (clash : α → α → Bool) : Prop where
  refl : ∀ a, clash a a = true
  comm : ∀ a b, clash a b = clash b a

/-- `f` leaves every column that `clash` compares as it is. -/
def KeepsKey (clash : α → α → Bool) (f : α → α) : Prop :=
  ∀ a b, clash (f a) b = clash a b ∧ clash b (f a) = clash b a

/-- Rows of which no two clash. -/
structure Table (clash : α → α → Bool) where
  rows : List α
  unique : rows.Pairwise fun a b => clash a b = false

namespace Table

variable {clash : α → α → Bool}

/-- The table without rows. -/
def empty : Table clash := ⟨[], .nil⟩

/-- The table of one row. -/
def single (r : α) : Table clash := ⟨[r], List.pairwise_singleton _ r⟩

/-- `SELECT … WHERE p`. -/
def select (t : Table clash) (p : α → Bool) : List α := t.rows.filter p

/-- `SELECT … WHERE p LIMIT 1`. -/
def first? (t : Table clash) (p : α → Bool) : Option α := t.rows.find? p

/-- `SELECT COUNT(*) … WHERE p`. -/
def count (t : Table clash) (p : α → Bool) : Nat := (t.select p).length

/-- `INSERT`: refused when the row clashes with one that is there. -/
def insert? (t : Table clash) (r : α) : Option (Table clash) :=
  if h : ∀ a ∈ t.rows, clash a r = false then
    some ⟨t.rows ++ [r], by
      refine List.pairwise_append.mpr ⟨t.unique, List.pairwise_singleton _ _, ?_⟩
      intro a ha b hb
      rw [List.mem_singleton.mp hb]
      exact h a ha⟩
  else none

/-- An update that keeps the key columns keeps the constraint, whichever rows it meets. -/
private theorem pairwise_updateWhere (t : Table clash) (p : α → Bool) {f : α → α}
    (hf : KeepsKey clash f) :
    (t.rows.map fun r => if p r then f r else r).Pairwise
      fun a b => clash a b = false := by
  refine List.pairwise_map.mpr (t.unique.imp ?_)
  intro a b hab
  by_cases ha : p a <;> by_cases hb : p b <;> simp [ha, hb, hab, hf a, hf b]

/-- `UPDATE … SET f WHERE p`, for assignments that keep the key columns. -/
def updateWhere (t : Table clash) (p : α → Bool) (f : α → α)
    (hf : KeepsKey clash f) : Table clash :=
  ⟨t.rows.map fun r => if p r then f r else r, pairwise_updateWhere t p hf⟩

/-- `DELETE … WHERE p`. -/
def deleteWhere (t : Table clash) (p : α → Bool) : Table clash :=
  ⟨t.rows.filter fun r => !p r, t.unique.filter _⟩

/-! ## What each statement leaves in the table -/

/-- Tables with the same rows are equal: the constraint is a proof. -/
theorem ext_rows {t u : Table clash} (h : t.rows = u.rows) : t = u := by
  cases t; cases u; simp_all

@[simp] theorem rows_empty : (empty : Table clash).rows = [] := rfl

@[simp] theorem mem_select {t : Table clash} {p : α → Bool} {r : α} :
    r ∈ t.select p ↔ r ∈ t.rows ∧ p r = true := List.mem_filter

/-- `INSERT` succeeds when no row clashes with the new one, which then comes last. -/
theorem insert?_eq_some {t u : Table clash} {r : α} :
    t.insert? r = some u ↔
      (∀ a ∈ t.rows, clash a r = false) ∧ u.rows = t.rows ++ [r] := by
  unfold insert?
  constructor
  · intro h
    split at h
    · next hfit =>
        cases h
        exact ⟨hfit, rfl⟩
    · exact nomatch h
  · rintro ⟨hfit, hrows⟩
    rw [dif_pos hfit]
    exact congrArg some (ext_rows hrows.symm)

@[simp] theorem rows_updateWhere (t : Table clash) (p : α → Bool) (f : α → α)
    (hf : KeepsKey clash f) :
    (t.updateWhere p f hf).rows = t.rows.map fun r => if p r then f r else r := rfl

/-- After an update a row is the image of one that met the condition, or one that did not. -/
theorem mem_updateWhere (t : Table clash) (p : α → Bool) (f : α → α)
    (hf : KeepsKey clash f) {r : α} :
    r ∈ (t.updateWhere p f hf).rows ↔
      (∃ a ∈ t.rows, p a = true ∧ r = f a) ∨ (r ∈ t.rows ∧ p r = false) := by
  rw [rows_updateWhere, List.mem_map]
  constructor
  · rintro ⟨a, ha, rfl⟩
    cases hp : p a with
    | true => exact Or.inl ⟨a, ha, hp, by simp⟩
    | false => exact Or.inr ⟨by simpa using ha, by simpa using hp⟩
  · rintro (⟨a, ha, hp, rfl⟩ | ⟨hr, hp⟩)
    · exact ⟨a, ha, by simp [hp]⟩
    · exact ⟨r, hr, by simp [hp]⟩

@[simp] theorem rows_deleteWhere (t : Table clash) (p : α → Bool) :
    (t.deleteWhere p).rows = t.rows.filter fun r => !p r := rfl

theorem mem_deleteWhere {t : Table clash} {p : α → Bool} {r : α} :
    r ∈ (t.deleteWhere p).rows ↔ r ∈ t.rows ∧ p r = false := by
  simp

/-- What a query of one row finds is a row of the table that meets the condition. -/
theorem first?_eq_some {t : Table clash} {p : α → Bool} {r : α}
    (h : t.first? p = some r) : r ∈ t.rows ∧ p r = true :=
  ⟨List.mem_of_find?_eq_some h, List.find?_some h⟩

/-- It finds nothing exactly when no row meets the condition. -/
theorem first?_eq_none {t : Table clash} {p : α → Bool} :
    t.first? p = none ↔ ∀ r ∈ t.rows, p r = false := by
  simp [first?]

/-- In a list without two equal keys a lookup by key finds the entry itself. -/
theorem find?_of_nodup {k : α → β} {xs : List α} (hnd : (xs.map k).Nodup) {a : α} (ha : a ∈ xs)
    {p : α → Bool} (hp : p a = true) (hone : ∀ x, p x = true → k x = k a) :
    xs.find? p = some a := by
  cases hf : xs.find? p with
  | none => exact absurd hp (List.find?_eq_none.mp hf a ha)
  | some x =>
      have hx := List.mem_of_find?_eq_some hf
      rw [List.inj_on_of_nodup_map hnd hx ha (hone x (List.find?_some hf))]

/-! ## Rows that clash are one row -/

section Unique

variable [UniqueKey clash]

/-- No row stands twice: it would clash with itself. -/
theorem rows_nodup (t : Table clash) : t.rows.Nodup :=
  t.unique.imp fun {a b} hab he => by
    rw [he, @UniqueKey.refl _ clash _] at hab
    exact Bool.noConfusion hab

/-- Rows that share a unique key are one row. -/
theorem eq_of_clash (t : Table clash) {a b : α} (ha : a ∈ t.rows) (hb : b ∈ t.rows)
    (h : clash a b = true) : a = b := by
  by_contra hne
  have : Std.Symm fun x y => clash x y = false :=
    ⟨fun x y hxy => (UniqueKey.comm y x).trans hxy⟩
  have hfree := t.unique.forall ha hb hne
  rw [h] at hfree
  exact Bool.noConfusion hfree

/-- A condition that only clashing rows share selects at most one row. -/
theorem select_eq_singleton (t : Table clash) {p : α → Bool} {r : α} (hr : r ∈ t.rows)
    (hp : p r = true) (hone : ∀ a, p a = true → clash a r = true) :
    t.select p = [r] := by
  have hmem : ∀ a, a ∈ t.select p ↔ a ∈ [r] := by
    intro a
    rw [mem_select, List.mem_singleton]
    constructor
    · rintro ⟨ha, hpa⟩
      exact t.eq_of_clash ha hr (hone a hpa)
    · rintro rfl
      exact ⟨hr, hp⟩
  have hperm := (List.perm_ext_iff_of_nodup (t.rows_nodup.filter p)
    (List.nodup_singleton r)).mpr hmem
  exact List.perm_singleton.mp hperm

/-- A condition on a unique key finds the row that has the key. -/
theorem first?_of_mem (t : Table clash) {p : α → Bool} {r : α} (hr : r ∈ t.rows)
    (hp : p r = true) (hone : ∀ a, p a = true → clash a r = true) :
    t.first? p = some r := by
  cases hf : t.first? p with
  | none => exact absurd hp (by simp [first?_eq_none.mp hf r hr])
  | some a =>
      obtain ⟨ha, hpa⟩ := first?_eq_some hf
      rw [t.eq_of_clash ha hr (hone a hpa)]

/-- `WHERE k IN ks AND …` selects exactly the rows found for the distinct keys
    `ks`, when all of them meet the rest of the condition. -/
theorem select_perm_found (t : Table clash) {p : α → Bool} {k : α → β} {ks : List β}
    {found : List α} (hfound : ∀ r ∈ found, r ∈ t.rows ∧ p r = true)
    (hkeys : found.map k = ks) (hks : ks.Nodup)
    (hp : ∀ r, p r = true → k r ∈ ks)
    (hone : ∀ a b, k a = k b → clash a b = true) :
    (t.select p).Perm found := by
  have hnd : found.Nodup := List.Nodup.of_map k (hkeys ▸ hks)
  refine (List.perm_ext_iff_of_nodup (t.rows_nodup.filter _) hnd).mpr ?_
  intro a
  constructor
  · intro ha
    obtain ⟨ha, hpa⟩ := mem_select.mp ha
    obtain ⟨b, hb, hk⟩ := List.mem_map.mp (hkeys ▸ hp a hpa)
    rw [t.eq_of_clash ha (hfound b hb).1 (hone a b hk.symm)]
    exact hb
  · intro ha
    exact mem_select.mpr (hfound a ha)

end Unique

/-! ## Column sums

    A column may hold numbers or bags: the sums live in any commutative monoid. -/

section Sums

variable {M : Type} [AddCommMonoid M] {t u : Table clash}

/-- `SELECT SUM(w)`. -/
def sum (t : Table clash) (w : α → M) : M := (t.rows.map w).sum

@[simp] theorem sum_empty (w : α → M) : (empty : Table clash).sum w = 0 := rfl

/-- `INSERT` adds the new row's share of the sum. -/
theorem sum_insert {r : α} (hu : u.rows = t.rows ++ [r]) (w : α → M) :
    u.sum w = t.sum w + w r := by
  rw [sum, hu, List.map_append, List.sum_append, List.map_singleton, List.sum_singleton, sum]

/-- `UPDATE` moves the sum by what it changes on the selected rows. -/
theorem sum_update {p : α → Bool} {f : α → α}
    (hu : u.rows = t.rows.map fun r => if p r then f r else r) (w : α → M) :
    u.sum w + ((t.select p).map w).sum = t.sum w + ((t.select p).map fun r => w (f r)).sum := by
  rw [sum, hu, sum, select]
  induction t.rows with
  | nil => rfl
  | cons a rest ih =>
      cases hp : p a with
      | true =>
          simp only [List.map_cons, List.filter_cons, hp, if_true, List.sum_cons]
          rw [add_add_add_comm, ih, add_comm (w (f a)), add_add_add_comm]
      | false =>
          simp only [List.map_cons, List.filter_cons, hp, Bool.false_eq_true, if_false,
            List.sum_cons]
          rw [add_assoc, ih, add_assoc]

/-- Two conditions that no row meets together share the sum out. -/
theorem sum_select_or (t : Table clash) {p q : α → Bool}
    (hdisj : ∀ r ∈ t.rows, p r = true → q r = false) (w : α → M) :
    ((t.select fun r => p r || q r).map w).sum
      = ((t.select p).map w).sum + ((t.select q).map w).sum := by
  rw [select, select, select]
  generalize t.rows = rows at hdisj
  induction rows with
  | nil => exact (add_zero _).symm
  | cons a rest ih =>
      have ih := ih fun r hr => hdisj r (List.mem_cons_of_mem _ hr)
      -- a row is counted on the left once and on the right in at most one of the sums
      cases hp : p a with
      | true =>
          have hq := hdisj a List.mem_cons_self hp
          simp only [List.filter_cons, hp, hq, Bool.true_or, Bool.false_eq_true, if_true, if_false,
            List.map_cons, List.sum_cons, ih]
          rw [add_assoc]
      | false =>
          cases hq : q a with
          | true =>
              simp only [List.filter_cons, hp, hq, Bool.false_or, Bool.false_eq_true, if_true,
                if_false, List.map_cons, List.sum_cons, ih]
              rw [add_left_comm]
          | false =>
              simp only [List.filter_cons, hp, hq, Bool.false_or, Bool.false_eq_true, if_false, ih]

/-- An `UPDATE` that does not touch `w` keeps the sum. -/
theorem sum_map_eq {g : α → α} (hu : u.rows = t.rows.map g) {w : α → M}
    (hw : ∀ r ∈ t.rows, w (g r) = w r) : u.sum w = t.sum w := by
  rw [sum, hu, sum, List.map_map]
  exact congrArg List.sum (List.map_congr_left hw)

/-- `DELETE` takes the selected rows out of the sum. -/
theorem sum_delete {p : α → Bool} (hu : u.rows = t.rows.filter fun r => !p r) (w : α → M) :
    u.sum w + ((t.select p).map w).sum = t.sum w := by
  rw [sum, hu, sum, select]
  induction t.rows with
  | nil => exact add_zero _
  | cons a rest ih =>
      cases hp : p a with
      | true =>
          simp only [List.map_cons, List.filter_cons, hp, Bool.not_true, Bool.false_eq_true,
            if_false, if_true, List.sum_cons]
          rw [← ih, add_left_comm]
      | false =>
          simp only [List.map_cons, List.filter_cons, hp, Bool.not_false, Bool.false_eq_true,
            if_false, if_true, List.sum_cons]
          rw [add_assoc, ih]

end Sums

end Table

end KeyedTable
