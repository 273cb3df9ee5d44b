import LightOss.StepSystem
import Mathlib.Data.Finset.Card
import Mathlib.Data.List.Nodup
import Mathlib.Order.Basic

/-! # Recency lists — a bounded cache ordered by last use

    Rows stand least recently seen first.  A key that is asked for is moved behind
    the others and stamped; rows that are no longer live are dropped from the front;
    and the front row makes room when the table is full.  Dropping from the front
    loses nothing because the stamps increase along the list (`purge_eq_filter`).

    Two invariants carry the results.  `Bounded` says that the keys are distinct, the
    stamps in order and the rows at most as many as places; every step keeps it
    (`Bounded.step`).  `Kept` says that a key still has its value and that the rows
    behind it have keys seen since; it survives a run (`Kept.run`) because a row is only
    in danger once as many other keys as the table holds have been seen after it. -/

namespace RecencyList

open StepSystem

variable {κ β τ : Type}

/-- A key, what it stands for, and when it was last seen. -/
structure Row (κ β τ : Type) where
  key : κ
  value : β
  seen : τ

/-- Each key once, the stamps in order and none after the clock. -/
structure Ordered [LE τ] (clock : τ) (rows : List (Row κ β τ)) : Prop where
  keys_nodup : (rows.map Row.key).Nodup
  sorted : rows.Pairwise fun a b => a.seen ≤ b.seen
  past : ∀ r ∈ rows, r.seen ≤ clock

/-- Drop rows from the front up to the first live one. -/
def purge (live : τ → Bool) (rows : List (Row κ β τ)) : List (Row κ β τ) :=
  rows.dropWhile fun r => !live r.seen

/-- The front row goes when the table is full. -/
def makeRoom (limit : Int) (rows : List (Row κ β τ)) : List (Row κ β τ) :=
  if limit ≤ rows.length then rows.tail else rows

section Access

variable [DecidableEq κ]

/-- The rows of other keys. -/
def forget (k : κ) (rows : List (Row κ β τ)) : List (Row κ β τ) :=
  rows.filter fun r => decide (r.key ≠ k)

/-- The live row of a key. -/
def hit (live : τ → Bool) (k : κ) (rows : List (Row κ β τ)) : Option (Row κ β τ) :=
  rows.find? fun r => decide (r.key = k) && live r.seen

/-- Ask for a key: its value while it is live, else a fresh one that may cost the
    front row its place. -/
def access (live : τ → Bool) (limit : Int) (k : κ) (fresh : β) (now : τ)
    (rows : List (Row κ β τ)) : β × List (Row κ β τ) :=
  match hit live k rows with
  | some r => (r.value, forget k rows ++ [⟨k, r.value, now⟩])
  | none => (fresh, makeRoom limit (forget k rows) ++ [⟨k, fresh, now⟩])

end Access

/-! ## Forgetting and dropping -/

section Rows

variable [DecidableEq κ] {rows : List (Row κ β τ)} {k : κ} {live : τ → Bool}

@[simp] theorem mem_forget {r : Row κ β τ} : r ∈ forget k rows ↔ r ∈ rows ∧ r.key ≠ k := by
  rw [forget, List.mem_filter, decide_eq_true_iff]

theorem forget_append (xs ys : List (Row κ β τ)) :
    forget k (xs ++ ys) = forget k xs ++ forget k ys := List.filter_append _ _

theorem forget_cons_ne {r : Row κ β τ} (h : r.key ≠ k) :
    forget k (r :: rows) = r :: forget k rows := by
  rw [forget, List.filter_cons_of_pos (by simpa using h), forget]

/-- A key that is not there is forgotten already. -/
theorem forget_of_notMem (h : ∀ r ∈ rows, r.key ≠ k) : forget k rows = rows :=
  List.filter_eq_self.mpr fun r hr => decide_eq_true (h r hr)

/-- Of distinct keys, forgetting the front one leaves the rest. -/
theorem forget_head {r : Row κ β τ} (h : ((r :: rows).map Row.key).Nodup) :
    forget r.key (r :: rows) = rows := by
  rw [List.map_cons, List.nodup_cons] at h
  rw [forget, List.filter_cons_of_neg (by simp)]
  refine forget_of_notMem fun x hx heq => h.1 ?_
  rw [← heq]
  exact List.mem_map_of_mem hx

/-- What is hit has the key and is live. -/
theorem hit_eq_some {r : Row κ β τ} (h : hit live k rows = some r) :
    r ∈ rows ∧ r.key = k ∧ live r.seen = true := by
  have hp := List.find?_some h
  rw [Bool.and_eq_true, decide_eq_true_iff] at hp
  exact ⟨List.mem_of_find?_eq_some h, hp⟩

/-- Nothing is hit exactly when no row of the key is live. -/
theorem hit_eq_none : hit live k rows = none ↔ ∀ r ∈ rows, r.key = k → live r.seen = false := by
  rw [hit, List.find?_eq_none]
  refine forall₂_congr fun r _ => ?_
  rw [Bool.and_eq_true, decide_eq_true_iff, not_and, Bool.not_eq_true]

/-- A live row with one of the distinct keys is the hit. -/
theorem hit_of_mem (hnd : (rows.map Row.key).Nodup) {r : Row κ β τ} (hr : r ∈ rows)
    (hlive : live r.seen = true) : hit live r.key rows = some r := by
  cases hf : hit live r.key rows with
  | none => exact absurd (hit_eq_none.mp hf r hr rfl) (by rw [hlive]; nofun)
  | some x =>
      obtain ⟨hx, hkey, -⟩ := hit_eq_some hf
      rw [List.inj_on_of_nodup_map hnd hx hr hkey]

end Rows

/-! ## The order is kept -/

section Order

variable [Preorder τ] {clock now : τ} {rows : List (Row κ β τ)} {live : τ → Bool}

theorem Ordered.sublist (h : Ordered clock rows) {rows' : List (Row κ β τ)}
    (hs : rows'.Sublist rows) : Ordered clock rows' where
  keys_nodup := h.keys_nodup.sublist (hs.map Row.key)
  sorted := h.sorted.sublist hs
  past r hr := h.past r (hs.subset hr)

theorem Ordered.later (h : Ordered clock rows) (hnow : clock ≤ now) : Ordered now rows :=
  { h with past := fun r hr => (h.past r hr).trans hnow }

omit [Preorder τ] in
theorem purge_sublist : (purge live rows).Sublist rows := List.dropWhile_sublist _

omit [Preorder τ] in
theorem makeRoom_sublist {limit : Int} : (makeRoom limit rows).Sublist rows := by
  rw [makeRoom]
  split
  · exact List.tail_sublist _
  · exact List.Sublist.refl _

/-- A stamp that is live stays so when it is renewed, and was so before. -/
structure Liveness (live : τ → τ → Bool) : Prop where
  renewed : ∀ now s t, s ≤ t → live now s = true → live now t = true
  before : ∀ s now later, now ≤ later → live later s = true → live now s = true

/-- **Stopping at the first live row loses nothing**: behind it all are live. -/
theorem purge_eq_filter (hlive : ∀ s t, s ≤ t → live s = true → live t = true)
    (h : rows.Pairwise fun a b => a.seen ≤ b.seen) :
    purge live rows = rows.filter fun r => live r.seen := by
  induction rows with
  | nil => rfl
  | cons r rest ih =>
      obtain ⟨hfirst, hrest⟩ := List.pairwise_cons.mp h
      cases hr : live r.seen with
      | false =>
          rw [purge, List.dropWhile_cons_of_pos (by rw [hr]; rfl),
            List.filter_cons_of_neg (by rw [hr]; nofun)]
          exact ih hrest
      | true =>
          rw [purge, List.dropWhile_cons_of_neg (by rw [hr]; nofun)]
          refine (List.filter_eq_self.mpr fun x hx => ?_).symm
          rcases List.mem_cons.mp hx with rfl | hx
          · exact hr
          · exact hlive _ _ (hfirst x hx) hr

/-- The front row is the least recently seen one. -/
theorem Ordered.head_le {r x : Row κ β τ} (h : Ordered clock (r :: rows)) (hx : x ∈ r :: rows) :
    r.seen ≤ x.seen := by
  rcases List.mem_cons.mp hx with rfl | hx
  · exact le_refl _
  · exact (List.pairwise_cons.mp h.sorted).1 x hx

variable [DecidableEq κ] {k : κ} {v fresh : β} {limit : Int}

omit [Preorder τ] in
theorem forget_sublist : (forget k rows).Sublist rows := List.filter_sublist

/-- A new stamp goes behind rows that do not have the key. -/
theorem Ordered.stamp (h : Ordered clock rows) (hnow : clock ≤ now) {rows' : List (Row κ β τ)}
    (hs : rows'.Sublist (forget k rows)) : Ordered now (rows' ++ [⟨k, v, now⟩]) where
  keys_nodup := by
    rw [List.map_append]
    refine List.Nodup.append (h.sublist (hs.trans forget_sublist)).keys_nodup
      (List.nodup_singleton _) ?_
    intro x hx hk
    obtain ⟨r, hr, rfl⟩ := List.mem_map.mp hx
    exact (mem_forget.mp (hs.subset hr)).2 (List.mem_singleton.mp hk)
  sorted := by
    refine List.pairwise_append.mpr
      ⟨(h.sublist (hs.trans forget_sublist)).sorted, List.pairwise_singleton _ _, ?_⟩
    intro a ha b hb
    rw [List.mem_singleton.mp hb]
    exact (h.past a (forget_sublist.subset (hs.subset ha))).trans hnow
  past r hr := by
    rcases List.mem_append.mp hr with hr | hr
    · exact (h.past r (forget_sublist.subset (hs.subset hr))).trans hnow
    · rw [List.mem_singleton.mp hr]

omit [Preorder τ] in
/-- What stands in the table after an access was there before, or is the answer. -/
theorem mem_access {alive : τ → Bool} {r : Row κ β τ}
    (h : r ∈ (access alive limit k fresh now rows).2) :
    r ∈ rows ∨ r.value = (access alive limit k fresh now rows).1 := by
  rw [RecencyList.access] at h ⊢
  split at h
  · rcases List.mem_append.mp h with h | h
    · exact Or.inl (mem_forget.mp h).1
    · rw [List.mem_singleton.mp h]
      exact Or.inr rfl
  · rcases List.mem_append.mp h with h | h
    · exact Or.inl (mem_forget.mp (makeRoom_sublist.subset h)).1
    · rw [List.mem_singleton.mp h]
      exact Or.inr rfl

/-- The row that was asked for is the latest. -/
theorem Ordered.access (h : Ordered clock rows) (hnow : clock ≤ now) :
    Ordered now (access live limit k fresh now rows).2 := by
  rw [RecencyList.access]
  split
  · exact h.stamp hnow (List.Sublist.refl _)
  · exact h.stamp hnow makeRoom_sublist

omit [Preorder τ] in
/-- Forgetting a key that is there makes the list shorter. -/
theorem length_forget_lt {r : Row κ β τ} (hr : r ∈ rows) (hk : r.key = k) :
    (forget k rows).length < rows.length := by
  refine List.length_filter_lt_length_iff_exists.mpr ⟨r, hr, ?_⟩
  simp [hk]

omit [Preorder τ] [DecidableEq κ] in
theorem length_makeRoom (hlimit : 0 < limit) (h : rows.length ≤ limit) :
    ((makeRoom limit rows).length : Int) < limit := by
  rw [makeRoom]
  split
  · rw [List.length_tail]
    omega
  · omega

omit [Preorder τ] in
/-- The table never outgrows its limit. -/
theorem length_access (hlimit : 0 < limit) (h : (rows.length : Int) ≤ limit) :
    ((access live limit k fresh now rows).2.length : Int) ≤ limit := by
  rw [access]
  split
  · next r hhit =>
      obtain ⟨hr, hk, -⟩ := hit_eq_some hhit
      have hlt := length_forget_lt hr hk
      rw [List.length_append, List.length_singleton]
      omega
  · have hle : ((forget k rows).length : Int) ≤ limit :=
      (Int.ofNat_le.mpr (List.length_filter_le _ _)).trans h
    have hroom := length_makeRoom hlimit hle
    rw [List.length_append, List.length_singleton]
    omega

end Order

/-! ## The cache and its runs -/

/-- An access, a sweep, or only time. -/
inductive Event (κ β τ : Type) where
  | access (k : κ) (now : τ) (given : β)
  | sweep (now : τ)
  | wait (now : τ)

/-- The key that is asked for. -/
def Event.key? : Event κ β τ → Option κ
  | .access k _ _ => some k
  | .sweep _ | .wait _ => none

/-- The rows and the clock. -/
structure Cache (κ β τ : Type) where
  rows : List (Row κ β τ)
  clock : τ

section Runs

variable [Preorder τ] [DecidableEq κ] {live : τ → τ → Bool} {limit : Int}

/-- Keys are asked for, dead rows dropped or left, at times that never go back. -/
def cache (live : τ → τ → Bool) (limit : Int) : System (Cache κ β τ) (Event κ β τ) where
  start c := c.rows = []
  step c event c' :=
    match event with
    | .access k now given => c.clock ≤ now ∧ c'.clock = now ∧
        ∃ fresh, access (live now) limit k fresh now c.rows = (given, c'.rows)
    | .sweep now => c.clock ≤ now ∧ c'.clock = now ∧ c'.rows = purge (live now) c.rows
    | .wait now => c.clock ≤ now ∧ c'.clock = now ∧ c'.rows = c.rows

/-- What every reachable table is. -/
structure Bounded (limit : Int) (c : Cache κ β τ) : Prop where
  ordered : Ordered c.clock c.rows
  length : (c.rows.length : Int) ≤ limit

/-- An access keeps the bound: it makes room before it places a row. -/
theorem Bounded.step (hlimit : 0 < limit) {c c' : Cache κ β τ} {event : Event κ β τ}
    (h : Bounded limit c) (hs : (cache live limit).step c event c') : Bounded limit c' := by
  cases event with
  | access k now given =>
      obtain ⟨hnow, hclock, fresh, hrows⟩ := hs
      have hrows : c'.rows = (access (live now) limit k fresh now c.rows).2 := by rw [hrows]
      refine ⟨?_, ?_⟩
      · rw [hrows, hclock]
        exact h.ordered.access hnow
      · rw [hrows]
        exact length_access hlimit h.length
  | sweep now =>
      obtain ⟨hnow, hclock, hrows⟩ := hs
      refine ⟨?_, ?_⟩
      · rw [hrows, hclock]
        exact (h.ordered.sublist purge_sublist).later hnow
      · rw [hrows]
        exact (Int.ofNat_le.mpr purge_sublist.length_le).trans h.length
  | wait now =>
      obtain ⟨hnow, hclock, hrows⟩ := hs
      refine ⟨?_, hrows.symm ▸ h.length⟩
      rw [hrows, hclock]
      exact h.ordered.later hnow

/-- **The bound**: in every run the table holds at most its capacity. -/
theorem bounded (hlimit : 0 < limit) {c : Cache κ β τ} (h : Reachable (cache live limit) c) :
    Bounded limit c := by
  refine h.invariant (fun c hc => ?_) fun c _ c' _ hb hs => hb.step hlimit hs
  have hrows : c.rows = [] := hc
  refine ⟨⟨?_, ?_, ?_⟩, ?_⟩ <;> rw [hrows]
  · exact List.nodup_nil
  · exact List.Pairwise.nil
  · nofun
  · exact hlimit.le

theorem step_clock {c c' : Cache κ β τ} {event : Event κ β τ}
    (hs : (cache live limit).step c event c') : c.clock ≤ c'.clock := by
  cases event with
  | access k now given => exact hs.2.1.symm ▸ hs.1
  | sweep now => exact hs.2.1.symm ▸ hs.1
  | wait now => exact hs.2.1.symm ▸ hs.1

theorem run_clock {c c' : Cache κ β τ} {events : List (Event κ β τ)}
    (hrun : Run (cache live limit) c events c') : c.clock ≤ c'.clock := by
  induction hrun with
  | nil c => exact le_refl _
  | cons hs _ ih => exact (step_clock hs).trans ih

/-! ## A row that few other keys have passed -/

/-- The key still has this value and stamp; the rows behind it are of keys in `since`. -/
def Kept (k : κ) (v : β) (t : τ) (since : Finset κ) (rows : List (Row κ β τ)) : Prop :=
  ∃ front back, rows = front ++ ⟨k, v, t⟩ :: back ∧ ∀ r ∈ back, r.key ∈ since

variable {k : κ} {v : β} {t : τ} {since : Finset κ} {rows : List (Row κ β τ)}

omit [Preorder τ] [DecidableEq κ] in
theorem Kept.purge {alive : τ → Bool} (halive : alive t = true) (h : Kept k v t since rows) :
    Kept k v t since (purge alive rows) := by
  obtain ⟨front, back, rfl, hback⟩ := h
  induction front with
  | nil =>
      refine ⟨[], back, ?_, hback⟩
      exact List.dropWhile_cons_of_neg (by simp [halive])
  | cons r front ih =>
      rw [List.cons_append, RecencyList.purge, List.dropWhile_cons]
      split
      · exact ih
      · exact ⟨r :: front, back, rfl, hback⟩

omit [Preorder τ] in
/-- Making room for a key takes another row, while there are fewer keys than places. -/
theorem Kept.makeRoom {k' : κ} (hkeys : (rows.map Row.key).Nodup)
    (hroom : ((insert k' since).card : Int) < limit)
    (hother : ∀ r ∈ rows, r.key ≠ k') (h : Kept k v t since rows) :
    Kept k v t since (makeRoom limit rows) := by
  obtain ⟨front, back, rfl, hback⟩ := h
  rw [RecencyList.makeRoom]
  split
  · next hfull =>
      cases front with
      | cons r front => exact ⟨front, back, rfl, hback⟩
      | nil =>
          -- the row itself is at the front: those behind it have keys of `since` but not `k'`
          exfalso
          have hnd : (back.map Row.key).Nodup := (List.nodup_cons.mp hkeys).2
          have hsub : (back.map Row.key).toFinset ⊆ since.erase k' := by
            intro x hx
            obtain ⟨r, hr, rfl⟩ := List.mem_map.mp (List.mem_toFinset.mp hx)
            exact Finset.mem_erase.mpr ⟨hother r (List.mem_cons_of_mem _ hr), hback r hr⟩
          have hcard := Finset.card_le_card hsub
          rw [List.toFinset_card_of_nodup hnd, List.length_map] at hcard
          have hinsert : (insert k' since).card = (since.erase k').card + 1 := by
            rw [← Finset.insert_erase (Finset.mem_insert_self k' since),
              Finset.card_insert_of_notMem (Finset.notMem_erase _ _), Finset.erase_insert_eq_erase]
          rw [List.nil_append, List.length_cons] at hfull
          omega
  · exact ⟨front, back, rfl, hback⟩

omit [Preorder τ] in
/-- A live row survives an access to another key, while few others were asked for since. -/
theorem Kept.access {alive : τ → Bool} {k' : κ} {fresh : β} {now : τ}
    (hkeys : (rows.map Row.key).Nodup) (hroom : ((insert k' since).card : Int) < limit)
    (hne : k ≠ k') (h : Kept k v t since rows) :
    Kept k v t (insert k' since) (access alive limit k' fresh now rows).2 := by
  -- the other key's row goes first, which moves nothing past the kept one
  have hforget : Kept k v t since (forget k' rows) := by
    obtain ⟨front, back, rfl, hback⟩ := h
    refine ⟨forget k' front, forget k' back, ?_, fun r hr => hback r (mem_forget.mp hr).1⟩
    rw [forget_append, forget_cons_ne hne]
  -- and comes back behind the kept row, with its key among those seen since
  have hstamp : ∀ {rows' : List (Row κ β τ)} (v' : β), Kept k v t since rows' →
      Kept k v t (insert k' since) (rows' ++ [⟨k', v', now⟩]) := by
    rintro _ v' ⟨front, back, rfl, hback⟩
    refine ⟨front, back ++ [⟨k', v', now⟩], by rw [List.append_assoc, List.cons_append], ?_⟩
    intro r hr
    rcases List.mem_append.mp hr with hr | hr
    · exact Finset.mem_insert_of_mem (hback r hr)
    · rw [List.mem_singleton.mp hr]
      exact Finset.mem_insert_self _ _
  rw [RecencyList.access]
  split
  · exact hstamp _ hforget
  · refine hstamp _ (hforget.makeRoom ?_ hroom fun r hr => (mem_forget.mp hr).2)
    exact hkeys.sublist (forget_sublist.map Row.key)

/-- **A key is kept** while it is live and fewer other keys than places are asked for. -/
theorem Kept.run (hlive : Liveness live) (hlimit : 0 < limit) {later : τ}
    {c c' : Cache κ β τ} {events : List (Event κ β τ)}
    (hrun : Run (cache live limit) c events c') (halive : live later t = true)
    (hlater : c'.clock ≤ later) (hother : ∀ e ∈ events, e.key? ≠ some k) :
    Bounded limit c → ∀ since,
      ((since ∪ (events.filterMap Event.key?).toFinset).card : Int) < limit →
      Kept k v t since c.rows →
      Kept k v t (since ∪ (events.filterMap Event.key?).toFinset) c'.rows := by
  induction hrun with
  | nil c =>
      intro _ since _ h
      rw [List.filterMap_nil, List.toFinset_nil, Finset.union_empty]
      exact h
  | @cons c₁ c₂ c₃ event events hs hrest ih =>
      intro hb since hroom h
      have hb₂ := hb.step hlimit hs
      have hrest' := ih hlater (fun e he => hother e (List.mem_cons_of_mem _ he)) hb₂
      have hnow : c₂.clock ≤ later := (run_clock hrest).trans hlater
      have hne := hother event List.mem_cons_self
      cases event with
      | sweep now =>
          obtain ⟨-, hclock, hrows⟩ := hs
          refine hrest' since hroom ?_
          rw [hrows]
          exact h.purge (hlive.before t now later (hclock ▸ hnow) halive)
      | wait now => exact hrest' since hroom (hs.2.2.symm ▸ h)
      | access k' now given =>
          obtain ⟨-, -, fresh, haccess⟩ := hs
          have hrows : c₂.rows
            = (RecencyList.access (live now) limit k' fresh now c₁.rows).2 := by rw [haccess]
          -- the set of keys grows by the one that was asked for
          have hsince :
            since ∪ ((Event.access k' now given :: events).filterMap Event.key?).toFinset
              = insert k' since ∪ (events.filterMap Event.key?).toFinset := by
            show since ∪ (k' :: events.filterMap Event.key?).toFinset = _
            rw [List.toFinset_cons, Finset.union_insert, Finset.insert_union]
          rw [hsince] at hroom ⊢
          refine hrest' (insert k' since) hroom ?_
          rw [hrows]
          refine h.access hb.ordered.keys_nodup ?_ fun heq => hne (congrArg some heq.symm)
          exact lt_of_le_of_lt
            (Int.ofNat_le.mpr (Finset.card_le_card Finset.subset_union_left)) hroom

/-- A key that has just been asked for is kept, with nothing behind it. -/
theorem kept_of_access {c c' : Cache κ β τ} {now : τ}
    (hs : (cache live limit).step c (.access k now v) c') : Kept k v now ∅ c'.rows := by
  obtain ⟨-, -, fresh, haccess⟩ := hs
  rw [access] at haccess
  split at haccess
  · obtain ⟨rfl, hrows⟩ := Prod.mk.inj haccess
    exact ⟨_, [], hrows.symm, nofun⟩
  · obtain ⟨rfl, hrows⟩ := Prod.mk.inj haccess
    exact ⟨_, [], hrows.symm, nofun⟩

/-- A kept key that is live is answered with its value. -/
theorem Kept.answer {c c' : Cache κ β τ} {now : τ} {given : β} (hb : Bounded limit c)
    (h : Kept k v t since c.rows) (halive : live now t = true)
    (hs : (cache live limit).step c (.access k now given) c') : given = v := by
  obtain ⟨-, -, fresh, haccess⟩ := hs
  obtain ⟨front, back, hrows, -⟩ := h
  have hmem : (⟨k, v, t⟩ : Row κ β τ) ∈ c.rows := by
    rw [hrows]
    exact List.mem_append_right _ List.mem_cons_self
  have hhit : hit (live now) k c.rows = some ⟨k, v, t⟩ :=
    hit_of_mem hb.ordered.keys_nodup hmem halive
  rw [RecencyList.access, hhit] at haccess
  exact (congrArg Prod.fst haccess).symm

end Runs

end RecencyList
