import Mathlib.Algebra.Order.Field.Basic
import Mathlib.Algebra.Order.Group.MinMax
import Mathlib.Tactic.Linarith
import Mathlib.Tactic.Ring

/-! # Token buckets — how many requests pass in a window

    A bucket of some capacity fills at a constant rate; a request passes when it
    finds a whole token, and takes it.  Whatever the times of the requests, what
    passes in a window is at most the capacity and what flows in meanwhile
    (`inWindow_le`).

    Both bounds go by induction on the requests, from any level: what passes from now
    on was there or flows in (`inWindow_le_level`), since each request adds at most
    itself (`inWindow_cons`) and takes a token for it; and the first request of the
    window finds at most a full bucket. -/

namespace TokenBucket

variable {K : Type} [Field K] [LinearOrder K]

/-- How much a bucket holds, and what flows in in a unit of time. -/
structure Policy (K : Type) where
  capacity : K
  rate : K

/-- The tokens at the time of the last request. -/
structure Level (K : Type) where
  tokens : K
  since : K

variable (p : Policy K)

/-- The tokens a request at `t` finds. -/
def available (s : Level K) (t : K) : K := min p.capacity (s.tokens + p.rate * (t - s.since))

/-- A whole token is there. -/
def admits (s : Level K) (t : K) : Bool := decide (1 ≤ available p s t)

/-- The level after a request at `t`, passed or not. -/
def take (s : Level K) (t : K) : Level K :=
  ⟨available p s t - if admits p s t then 1 else 0, t⟩

/-- A full bucket at the time `t`. -/
def full (t : K) : Level K := ⟨p.capacity, t⟩

/-- Which of the requests at these times pass. -/
def decisions (s : Level K) : List K → List Bool
  | [] => []
  | t :: rest => admits p s t :: decisions (take p s t) rest

/-- The level after all of them. -/
def after (s : Level K) (times : List K) : Level K := times.foldl (take p) s

/-- The times of the requests that pass. -/
def admitted (s : Level K) : List K → List K
  | [] => []
  | t :: rest =>
      if admits p s t then t :: admitted (take p s t) rest else admitted (take p s t) rest

variable {p} {s : Level K} {t : K}

theorem available_le_capacity (s : Level K) (t : K) : available p s t ≤ p.capacity :=
  min_le_left _ _

/-- Refilling adds at most the rate for the time that passed. -/
theorem available_le_refill (s : Level K) (t : K) :
    available p s t ≤ s.tokens + p.rate * (t - s.since) := min_le_right _ _

/-- What was let through had been asked for. -/
theorem mem_of_admitted {times : List K} : ∀ {s : Level K}, t ∈ admitted p s times → t ∈ times := by
  induction times with
  | nil => exact fun h => h
  | cons u rest ih =>
      intro s h
      rw [admitted] at h
      split at h
      · rcases List.mem_cons.mp h with rfl | h
        · exact List.mem_cons_self
        · exact List.mem_cons_of_mem _ (ih h)
      · exact List.mem_cons_of_mem _ (ih h)

/-- Records whose verdicts are the bucket's decisions: the passed ones are the admitted. -/
theorem admitted_of_decisions {α : Type} (time : α → K) (allowed : α → Bool) :
    ∀ (log : List α) {s : Level K}, log.map allowed = decisions p s (log.map time) →
      (log.filter allowed).map time = admitted p s (log.map time) := by
  intro log
  induction log with
  | nil => exact fun _ => rfl
  | cons d rest ih =>
      intro s h
      rw [List.map_cons, List.map_cons, decisions, List.cons.injEq] at h
      rw [List.map_cons, admitted, ← h.1, List.filter_cons]
      split
      · rw [List.map_cons, ih h.2]
      · exact ih h.2

/-- The last decision is made in the state the others left. -/
theorem decisions_append : ∀ (times : List K) {s : Level K},
    decisions p s (times ++ [t]) = decisions p s times ++ [admits p (after p s times) t] := by
  intro times
  induction times with
  | nil => exact fun {s} => rfl
  | cons u rest ih =>
      intro s
      rw [List.cons_append, decisions, decisions, ih]
      rfl

/-- The last call is made in the state the others left. -/
theorem after_append (s : Level K) (times : List K) :
    after p s (times ++ [t]) = take p (after p s times) t := by
  rw [after, after, List.foldl_append]
  rfl

/-! ## Refill -/

section Refill

variable [IsStrictOrderedRing K]

/-- A full bucket stays full. -/
theorem available_full {since : K} (hrate : 0 ≤ p.rate) (h : since ≤ t) :
    available p (full p since) t = p.capacity := by
  refine min_eq_left ?_
  have hflow := mul_nonneg hrate (sub_nonneg.mpr h)
  show p.capacity ≤ p.capacity + p.rate * (t - since)
  linarith

/-- What a request leaves is never negative and never above the capacity. -/
theorem take_tokens (hrate : 0 ≤ p.rate) (hcapacity : 0 ≤ p.capacity) (htokens : 0 ≤ s.tokens)
    (h : s.since ≤ t) : 0 ≤ (take p s t).tokens ∧ (take p s t).tokens ≤ p.capacity := by
  have hflow := mul_nonneg hrate (sub_nonneg.mpr h)
  have hle := available_le_capacity (p := p) s t
  have hnonneg : 0 ≤ available p s t := le_min hcapacity (add_nonneg htokens hflow)
  rw [take]
  dsimp only
  split
  · next hadmits =>
      have hone : 1 ≤ available p s t := of_decide_eq_true hadmits
      exact ⟨by linarith, by linarith⟩
  · exact ⟨by linarith, by linarith⟩

/-- A request that does not pass changes nothing for any later one. -/
theorem available_take_of_denied (hrate : 0 ≤ p.rate) (hdenied : admits p s t = false)
    {u : K} (htu : t ≤ u) : available p (take p s t) u = available p s u := by
  have hflow := mul_nonneg hrate (sub_nonneg.mpr htu)
  have hsplit : s.tokens + p.rate * (u - s.since)
      = (s.tokens + p.rate * (t - s.since)) + p.rate * (u - t) := by ring
  have htake : take p s t = ⟨available p s t, t⟩ := by
    rw [take, hdenied]
    simp
  rw [htake, available, available, available, hsplit]
  -- the cap at `t` is absorbed by the cap at `u`
  rcases le_total p.capacity (s.tokens + p.rate * (t - s.since)) with hfull | hbelow
  · rw [min_eq_left hfull, min_eq_left (by linarith), min_eq_left (by linarith)]
  · rw [min_eq_right hbelow]

/-- The level stays between nothing and the capacity. -/
theorem after_tokens (hrate : 0 ≤ p.rate) (hcapacity : 0 ≤ p.capacity) :
    ∀ (times : List K) {s : Level K}, times.Pairwise (· ≤ ·) → (∀ t ∈ times, s.since ≤ t) →
      0 ≤ s.tokens → s.tokens ≤ p.capacity →
        0 ≤ (after p s times).tokens ∧ (after p s times).tokens ≤ p.capacity := by
  intro times
  induction times with
  | nil => exact fun _ _ hlow hhigh => ⟨hlow, hhigh⟩
  | cons t rest ih =>
      intro s hsorted hlater hlow _
      obtain ⟨hle, hsorted⟩ := List.pairwise_cons.mp hsorted
      obtain ⟨hlow, hhigh⟩ := take_tokens hrate hcapacity hlow (hlater t List.mem_cons_self)
      exact ih hsorted hle hlow hhigh

end Refill

/-! ## Windows -/

/-- The passed requests of the window from `a` to `b`. -/
def inWindow (p : Policy K) (a b : K) (s : Level K) (times : List K) : Nat :=
  ((admitted p s times).filter fun t => decide (a ≤ t ∧ t ≤ b)).length

/-- Nothing passes in a window that lies before all requests. -/
theorem inWindow_late {a b : K} {times : List K} (h : ∀ t ∈ times, b < t) :
    inWindow p a b s times = 0 := by
  rw [inWindow, List.length_eq_zero_iff, List.filter_eq_nil_iff]
  intro t ht hin
  exact absurd (of_decide_eq_true hin).2 (not_le.mpr (h t (mem_of_admitted ht)))

/-- A call outside the window counts nothing, but it changes the bucket. -/
theorem inWindow_skip {a b : K} {rest : List K} (h : ¬ (a ≤ t ∧ t ≤ b)) :
    inWindow p a b s (t :: rest) = inWindow p a b (take p s t) rest := by
  rw [inWindow, inWindow, admitted]
  split
  · rw [List.filter_cons, if_neg (by simpa using h)]
  · rfl

variable [IsStrictOrderedRing K]

/-- One more request adds at most itself. -/
theorem inWindow_cons (a b : K) (rest : List K) :
    (inWindow p a b s (t :: rest) : K)
      ≤ (if admits p s t then 1 else 0) + inWindow p a b (take p s t) rest := by
  have hle : inWindow p a b s (t :: rest)
      ≤ (if admits p s t then 1 else 0) + inWindow p a b (take p s t) rest := by
    rw [inWindow, inWindow, admitted]
    split
    · rw [List.filter_cons]
      split
      · rw [List.length_cons, Nat.add_comm]
      · exact Nat.le_add_left _ _
    · exact Nat.le_add_left _ _
  exact_mod_cast hle

/-- What passes up to `b` was there or flowed in. -/
theorem inWindow_le_level (hrate : 0 ≤ p.rate) (hcapacity : 0 ≤ p.capacity) (a : K) {b : K} :
    ∀ (times : List K) {s : Level K}, times.Pairwise (· ≤ ·) → (∀ t ∈ times, s.since ≤ t) →
      0 ≤ s.tokens → s.since ≤ b →
        (inWindow p a b s times : K) ≤ s.tokens + p.rate * (b - s.since) := by
  intro times
  induction times with
  | nil =>
      intro s _ _ htokens hb
      have hflow := mul_nonneg hrate (sub_nonneg.mpr hb)
      rw [inWindow, admitted, List.filter_nil, List.length_nil, Nat.cast_zero]
      linarith
  | cons t rest ih =>
      intro s hsorted hlater htokens hb
      obtain ⟨hle, hsorted⟩ := List.pairwise_cons.mp hsorted
      have hst := hlater t List.mem_cons_self
      have hflow := mul_nonneg hrate (sub_nonneg.mpr hb)
      by_cases htb : t ≤ b
      -- the token that this request takes is the one it adds to the count
      · have hrest := ih (s := take p s t) hsorted hle
          (take_tokens hrate hcapacity htokens hst).1 htb
        have hcons := inWindow_cons (p := p) (s := s) (t := t) a b rest
        have havail := available_le_refill (p := p) s t
        have htake : (take p s t).tokens
            = available p s t - if admits p s t then 1 else 0 := rfl
        have hsince : (take p s t).since = t := rfl
        have hring : p.rate * (b - s.since) = p.rate * (t - s.since) + p.rate * (b - t) := by ring
        rw [htake, hsince] at hrest
        linarith
      · -- this request and all later ones come after the window
        have hlate : ∀ u ∈ t :: rest, b < u := by
          intro u hu
          rcases List.mem_cons.mp hu with rfl | hu
          · exact not_le.mp htb
          · exact lt_of_lt_of_le (not_le.mp htb) (hle u hu)
        rw [inWindow_late hlate, Nat.cast_zero]
        linarith

/-- **The window bound.** -/
theorem inWindow_le (hrate : 0 ≤ p.rate) (hcapacity : 0 ≤ p.capacity) {a b : K} (hab : a ≤ b) :
    ∀ (times : List K) {s : Level K}, times.Pairwise (· ≤ ·) → (∀ t ∈ times, s.since ≤ t) →
      0 ≤ s.tokens → (inWindow p a b s times : K) ≤ p.capacity + p.rate * (b - a) := by
  have hwindow := mul_nonneg hrate (sub_nonneg.mpr hab)
  intro times
  induction times with
  | nil =>
      intro s _ _ _
      rw [inWindow, admitted, List.filter_nil, List.length_nil, Nat.cast_zero]
      linarith
  | cons t rest ih =>
      intro s hsorted hlater htokens
      obtain ⟨hle, hsorted⟩ := List.pairwise_cons.mp hsorted
      have htake := (take_tokens hrate hcapacity htokens (hlater t List.mem_cons_self)).1
      by_cases hin : a ≤ t ∧ t ≤ b
      · -- the first request of the window finds at most a full bucket
        have hrest := inWindow_le_level hrate hcapacity a rest (s := take p s t) hsorted hle htake
          hin.2
        have hcons := inWindow_cons (p := p) (s := s) (t := t) a b rest
        have hfull := available_le_capacity (p := p) s t
        have htokens : (take p s t).tokens
            = available p s t - if admits p s t then 1 else 0 := rfl
        have hsince : (take p s t).since = t := rfl
        have hflow := mul_le_mul_of_nonneg_left (sub_le_sub_left hin.1 b) hrate
        rw [htokens, hsince] at hrest
        linarith
      · rw [inWindow_skip hin]
        exact ih hsorted hle htake

end TokenBucket
