import Mathlib.Data.List.Basic

/-! # Fallible steps — code that returns early

    A fallible computation is an `Except`; an error leaves no result, so a caller
    that keeps its old state on an error is exactly a transaction that rolls back
    (`commitOr`).  The lemmas peel a successful `do` block apart statement by
    statement (`bind_eq_ok`, `ensure_eq_ok`), and `batches` is the loop that walks a
    slice in pieces of bounded size.

    A loop is reasoned about by one rule: a relation between the elements already
    visited and the state (`foldlM_along`).  The loop over batches is the loop over the
    slice (`foldlM_batches`), and `foldlM_runs` is the converse, that a loop whose body
    runs does run. -/

namespace Fallible

variable {ε α β γ : Type}

/-- A successful `do` block: its first statement succeeded and so did the rest. -/
theorem bind_eq_ok {x : Except ε α} {f : α → Except ε β} {b : β} :
    (x >>= f) = .ok b ↔ ∃ a, x = .ok a ∧ f a = .ok b := by
  cases x with
  | error e =>
      constructor
      · intro h
        exact nomatch h
      · rintro ⟨a, ha, -⟩
        exact nomatch ha
  | ok a =>
      constructor
      · intro h
        exact ⟨a, rfl, h⟩
      · rintro ⟨a', ha, h⟩
        cases ha
        exact h

/-- A run that succeeds has a result. -/
theorem exists_of_isOk {x : Except ε α} (h : x.isOk = true) : ∃ a, x = .ok a := by
  cases x with
  | ok a => exact ⟨a, rfl⟩
  | error e => exact nomatch h

theorem pure_eq_ok {a b : α} : (pure a : Except ε α) = .ok b ↔ a = b := by
  constructor
  · intro h
    cases h
    rfl
  · rintro rfl
    rfl

/-- `if !c { return err }`. -/
def ensure (c : Prop) [Decidable c] (err : ε) : Except ε Unit :=
  if c then .ok () else .error err

/-- A check passes exactly when its condition holds. -/
theorem ensure_eq_ok {c : Prop} [Decidable c] {err : ε} {u : Unit} :
    ensure c err = .ok u ↔ c := by
  by_cases hc : c <;> simp [ensure, hc]

/-- `x, err := …; if err != nil { return wrapped }` for a lookup. -/
def orElseThrow (x : Option α) (err : ε) : Except ε α :=
  match x with
  | some a => .ok a
  | none => .error err

/-- A lookup passes exactly when it finds something. -/
theorem orElseThrow_eq_ok {x : Option α} {err : ε} {a : α} :
    orElseThrow x err = .ok a ↔ x = some a := by
  cases x <;> simp [orElseThrow]

/-- A successful map comes from a success. -/
theorem map_eq_ok {x : Except ε α} {f : α → β} {b : β} :
    x.map f = .ok b ↔ ∃ a, x = .ok a ∧ f a = b := by
  cases x with
  | error e =>
      constructor
      · exact nofun
      · rintro ⟨_, h, -⟩
        exact nomatch h
  | ok a =>
      constructor
      · intro h
        cases h
        exact ⟨a, rfl, rfl⟩
      · rintro ⟨a', h, rfl⟩
        cases h
        rfl

/-- Wrapping the error leaves the successes alone. -/
theorem mapError_eq_ok {x : Except ε α} {f : ε → γ} {a : α} :
    x.mapError f = .ok a ↔ x = .ok a := by
  cases x with
  | error e => exact ⟨nofun, nofun⟩
  | ok a' =>
      constructor <;> intro h <;> cases h <;> rfl

/-- The state after a transaction: the new one on success, else the old one. -/
def commitOr (old : α) : Except ε α → α
  | .ok a => a
  | .error _ => old

@[simp] theorem commitOr_ok (old a : α) : commitOr old (.ok a : Except ε α) = a := rfl

@[simp] theorem commitOr_error (old : α) (e : ε) : commitOr old (.error e) = old := rfl

/-- `for start := 0; start < len(l); start += n { batch := l[start:min(start+n, len(l))] }`,
    with the length as fuel. -/
def batchesFuel (n : Nat) : Nat → List α → List (List α)
  | 0, _ => []
  | fuel + 1, l => if l.isEmpty then [] else l.take n :: batchesFuel n fuel (l.drop n)

/-- The batches of at most `n` elements that the loop visits. -/
def batches (n : Nat) (l : List α) : List (List α) := batchesFuel n l.length l

/-- With fuel for every element the batches hold the whole list. -/
private theorem flatten_batchesFuel {n : Nat} (hn : 0 < n) :
    ∀ (fuel : Nat) (l : List α), l.length ≤ fuel → (batchesFuel n fuel l).flatten = l := by
  intro fuel
  induction fuel with
  | zero =>
      intro l hl
      rw [List.length_eq_zero_iff.mp (Nat.le_zero.mp hl)]
      rfl
  | succ fuel ih =>
      intro l hl
      cases l with
      | nil => rfl
      | cons a rest =>
          have hdrop : ((a :: rest).drop n).length ≤ fuel := by
            rw [List.length_drop]
            simp only [List.length_cons] at hl ⊢
            omega
          simp only [batchesFuel, List.isEmpty_cons, List.flatten_cons, ih _ hdrop,
            Bool.false_eq_true, if_false, List.take_append_drop]

/-- The loop visits every element once, in order. -/
theorem flatten_batches {n : Nat} (hn : 0 < n) (l : List α) : (batches n l).flatten = l :=
  flatten_batchesFuel hn l.length l (Nat.le_refl _)

/-- A loop over the batches whose body walks the batch is the loop over the slice. -/
theorem foldlM_batches {f : β → α → Except ε β} {n : Nat} (hn : 0 < n) (l : List α) (b : β) :
    (batches n l).foldlM (fun b batch => batch.foldlM f b) b = l.foldlM f b := by
  have hflat : ∀ (bs : List (List α)) (b : β),
      bs.foldlM (fun b batch => batch.foldlM f b) b = bs.flatten.foldlM f b := by
    intro bs
    induction bs with
    | nil => intro b; rfl
    | cons batch rest ih =>
        intro b
        rw [List.foldlM_cons, List.flatten_cons, List.foldlM_append]
        exact bind_congr ih
  rw [hflat, flatten_batches hn]

/-- The rule below, from the middle of the list on: `done` is behind the loop, `todo` before
    it. -/
private theorem foldlM_along_from {f : β → α → Except ε β} {P : List α → β → Prop} {l : List α}
    (hstep : ∀ xs a b c, (xs ++ [a]) <+: l → P xs b → f b a = .ok c → P (xs ++ [a]) c) :
    ∀ (todo done : List α) {b c : β}, done ++ todo = l → P done b →
      todo.foldlM f b = .ok c → P l c := by
  intro todo
  induction todo with
  | nil =>
      intro done b c hl hb h
      rw [List.foldlM_nil, pure_eq_ok] at h
      rw [List.append_nil] at hl
      exact hl ▸ h ▸ hb
  | cons a rest ih =>
      intro done b c hl hb h
      rw [List.foldlM_cons, bind_eq_ok] at h
      obtain ⟨b', hb', hrest⟩ := h
      have hpre : done ++ [a] ++ rest = l := by rw [← hl, List.append_assoc]; rfl
      exact ih (done ++ [a]) hpre (hstep done a b b' ⟨rest, hpre⟩ hb hb') hrest

/-- **The loop rule.**  `P` relates the elements already visited to the state. -/
theorem foldlM_along {f : β → α → Except ε β} {P : List α → β → Prop} {l : List α} {b c : β}
    (hnil : P [] b)
    (hstep : ∀ xs a b c, (xs ++ [a]) <+: l → P xs b → f b a = .ok c → P (xs ++ [a]) c)
    (h : l.foldlM f b = .ok c) : P l c :=
  foldlM_along_from hstep l [] rfl hnil h

/-- The loop rule for a loop over the batches. -/
theorem foldlM_batches_along {f : β → List α → Except ε β} {P : List α → β → Prop} {n : Nat}
    (hn : 0 < n) {l : List α} {b c : β} (hnil : P [] b)
    (hstep : ∀ xs ys b c, (xs ++ ys) <+: l → P xs b → f b ys = .ok c → P (xs ++ ys) c)
    (h : (batches n l).foldlM f b = .ok c) : P l c := by
  have := foldlM_along (P := fun bs b => P bs.flatten b) hnil ?_ h
  · rwa [flatten_batches hn] at this
  · intro bs batch b c hpre hb hf
    obtain ⟨rest, hrest⟩ := hpre
    have hl : (bs.flatten ++ batch) <+: l := by
      refine ⟨rest.flatten, ?_⟩
      rw [← flatten_batches hn l, ← hrest]
      simp
    show P (bs ++ [batch]).flatten c
    rw [List.flatten_append, List.flatten_singleton]
    exact hstep _ _ _ _ hl hb hf

/-- An invariant of the body is one of the loop. -/
theorem foldlM_invariant {f : β → α → Except ε β} {I : β → Prop}
    (hstep : ∀ b a c, I b → f b a = .ok c → I c) :
    ∀ (l : List α) {b c : β}, I b → l.foldlM f b = .ok c → I c := by
  intro l
  induction l with
  | nil =>
      intro b c hb h
      rw [List.foldlM_nil, pure_eq_ok] at h
      exact h ▸ hb
  | cons a rest ih =>
      intro b c hb h
      rw [List.foldlM_cons, bind_eq_ok] at h
      obtain ⟨b', hb', hrest⟩ := h
      exact ih (hstep _ _ _ hb hb') hrest

/-- A loop whose body succeeds under an invariant succeeds. -/
theorem foldlM_runs {f : β → α → Except ε β} {I : β → Prop} :
    ∀ (l : List α), (∀ a ∈ l, ∀ b, I b → ∃ c, f b a = .ok c ∧ I c) → ∀ {b : β}, I b →
      ∃ c, l.foldlM f b = .ok c ∧ I c := by
  intro l
  induction l with
  | nil => exact fun _ b hb => ⟨b, rfl, hb⟩
  | cons a rest ih =>
      intro hstep b hb
      obtain ⟨c, hc, hI⟩ := hstep a List.mem_cons_self b hb
      obtain ⟨d, hd, hI⟩ := ih (fun x hx => hstep x (List.mem_cons_of_mem _ hx)) hI
      refine ⟨d, ?_, hI⟩
      rw [List.foldlM_cons, hc]
      exact hd

/-- A loop over the batches whose body succeeds on every next batch succeeds. -/
theorem foldlM_batches_runs {f : β → List α → Except ε β} {P : List α → β → Prop} {n : Nat}
    (hn : 0 < n) {l : List α} {b : β} (hnil : P [] b)
    (hstep : ∀ xs ys b, (xs ++ ys) <+: l → P xs b → ∃ c, f b ys = .ok c ∧ P (xs ++ ys) c) :
    ∃ c, (batches n l).foldlM f b = .ok c ∧ P l c := by
  have hloop : ∀ (todo : List (List α)) (done : List α) (b : β), done ++ todo.flatten = l →
      P done b → ∃ c, todo.foldlM f b = .ok c ∧ P l c := by
    intro todo
    induction todo with
    | nil =>
        intro done b hl hb
        rw [List.flatten_nil, List.append_nil] at hl
        exact ⟨b, rfl, hl ▸ hb⟩
    | cons batch rest ih =>
        intro done b hl hb
        rw [List.flatten_cons, ← List.append_assoc] at hl
        obtain ⟨m, hm, hP⟩ := hstep done batch b ⟨_, hl⟩ hb
        obtain ⟨c, hc, hP⟩ := ih (done ++ batch) m hl hP
        exact ⟨c, bind_eq_ok.mpr ⟨m, hm, hc⟩, hP⟩
  exact hloop (batches n l) [] b (flatten_batches hn l) hnil

/-- A loop of checks that all pass. -/
theorem forM_ok {f : α → Except ε Unit} : ∀ (l : List α), (∀ a ∈ l, f a = .ok ()) →
    l.forM f = .ok () := by
  intro l
  induction l with
  | nil => intro _; rfl
  | cons a rest ih =>
      intro h
      have hrest := ih fun b hb => h b (List.mem_cons_of_mem _ hb)
      exact bind_eq_ok.mpr ⟨(), h a List.mem_cons_self, hrest⟩

/-- A loop of checks passes when each of them does. -/
theorem forM_eq_ok {f : α → Except ε Unit} {l : List α} :
    l.forM f = .ok () ↔ ∀ a ∈ l, f a = .ok () := by
  refine ⟨fun h => ?_, forM_ok l⟩
  induction l with
  | nil => exact nofun
  | cons b rest ih =>
      obtain ⟨_, hb, hrest⟩ := bind_eq_ok.mp h
      intro a ha
      rcases List.mem_cons.mp ha with rfl | ha
      · exact hb
      · exact ih hrest a ha

/-! ## Which errors can come out -/

/-- Every error of `x` satisfies `P`. -/
def FailsOnly (P : ε → Prop) (x : Except ε α) : Prop := ∀ e, x = .error e → P e

variable {P Q : ε → Prop}

theorem failsOnly_ok (a : α) : FailsOnly P (.ok a : Except ε α) := nofun

theorem failsOnly_error {e : ε} (h : P e) : FailsOnly P (.error e : Except ε α) := by
  intro e' he
  cases he
  exact h

/-- A sequence fails only so when both of its parts do. -/
theorem failsOnly_bind {x : Except ε α} {f : α → Except ε β} (hx : FailsOnly P x)
    (hf : ∀ a, x = .ok a → FailsOnly P (f a)) : FailsOnly P (x >>= f) := by
  cases x with
  | error e => exact failsOnly_error (hx e rfl)
  | ok a => exact hf a rfl

theorem failsOnly_ensure {c : Prop} [Decidable c] {err : ε} (h : P err) :
    FailsOnly P (ensure c err) := by
  rw [ensure]
  split
  · exact failsOnly_ok ()
  · exact failsOnly_error h

theorem failsOnly_orElseThrow {x : Option α} {err : ε} (h : P err) :
    FailsOnly P (orElseThrow x err) := by
  cases x with
  | some a => exact failsOnly_ok a
  | none => exact failsOnly_error h

theorem failsOnly_foldlM {f : β → α → Except ε β} (h : ∀ b a, FailsOnly P (f b a)) :
    ∀ (l : List α) (b : β), FailsOnly P (l.foldlM f b) := by
  intro l
  induction l with
  | nil => intro b; exact failsOnly_ok b
  | cons a rest ih =>
      intro b
      rw [List.foldlM_cons]
      exact failsOnly_bind (h b a) fun b' _ => ih b'

/-- Mapping the result does not touch the error. -/
theorem failsOnly_map {x : Except ε α} {f : α → β} (h : FailsOnly P x) : FailsOnly P (x.map f) := by
  cases x with
  | error e => exact failsOnly_error (h e rfl)
  | ok a => exact failsOnly_ok (f a)

/-- Mapping the error maps the kind of error. -/
theorem FailsOnly.mapError {R : γ → Prop} {x : Except ε α} {f : ε → γ} (h : FailsOnly P x)
    (hf : ∀ e, P e → R (f e)) : FailsOnly R (x.mapError f) := by
  cases x with
  | error e => exact failsOnly_error (hf e (h e rfl))
  | ok a => exact failsOnly_ok a

/-- What every error is mapped to is all that is left. -/
theorem failsOnly_mapError {R : γ → Prop} {x : Except ε α} {f : ε → γ} (h : ∀ e, R (f e)) :
    FailsOnly R (x.mapError f) :=
  FailsOnly.mapError (P := fun _ => True) (fun _ _ => trivial) fun e _ => h e

theorem FailsOnly.mono {x : Except ε α} (h : FailsOnly P x) (hpq : ∀ e, P e → Q e) :
    FailsOnly Q x := fun e he => hpq e (h e he)

end Fallible
