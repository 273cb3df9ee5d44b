/-! # Step systems — invariants over whole runs

    A system is a set of start states and a labelled step relation.  Safety
    arguments only ever use three rules, proved once here: an invariant that holds
    initially and is kept by every step holds of every reachable state
    (`Reachable.invariant`); a property that every step keeps is kept by every run
    (`Run.stable`, and `Run.along` where it depends on the labels); and a simulation
    carries reachable states of the detailed system to reachable states of the
    abstract one (`Reachable.simulate`).  A guard takes steps away, and with them only
    reachable states (`Reachable.of_guarded`). -/

namespace StepSystem

/-- Start states and labelled steps. -/
structure System (σ α : Type) where
  start : σ → Prop
  step : σ → α → σ → Prop

variable {σ τ α β : Type}

/-- The states a system can be in. -/
inductive Reachable (S : System σ α) : σ → Prop where
  | start {s : σ} : S.start s → Reachable S s
  | step {s t : σ} {a : α} : Reachable S s → S.step s a t → Reachable S t

/-- A finite run, with the labels of its steps in order. -/
inductive Run (S : System σ α) : σ → List α → σ → Prop where
  | nil (s : σ) : Run S s [] s
  | cons {s t u : σ} {a : α} {as : List α} : S.step s a t → Run S t as u → Run S s (a :: as) u

/-- **The invariant rule.**  The step case may use that the state is reachable. -/
theorem Reachable.invariant {S : System σ α} {I : σ → Prop} (hstart : ∀ s, S.start s → I s)
    (hstep : ∀ s a t, Reachable S s → I s → S.step s a t → I t) {s : σ}
    (h : Reachable S s) : I s := by
  induction h with
  | start h0 => exact hstart _ h0
  | step hr hs ih => exact hstep _ _ _ hr ih hs

/-- A property that every step out of a reachable state keeps is kept by a run. -/
theorem Run.stable {S : System σ α} {P : σ → Prop}
    (hstep : ∀ s a t, Reachable S s → P s → S.step s a t → P t) {s t : σ} {as : List α}
    (hrun : Run S s as t) : Reachable S s → P s → P t := by
  induction hrun with
  | nil s => intro _ hp; exact hp
  | cons hs _ ih =>
      intro hr hp
      exact ih (.step hr hs) (hstep _ _ _ hr hp hs)

/-- A property that the labels of a run keep is kept by the run. -/
theorem Run.along {S : System σ α} {P : σ → Prop} {s t : σ} {as : List α} (hrun : Run S s as t)
    (hstep : ∀ a ∈ as, ∀ s t, P s → S.step s a t → P t) : P s → P t := by
  induction hrun with
  | nil s => exact fun hp => hp
  | cons hs _ ih =>
      intro hp
      refine ih (fun a ha => hstep a (List.mem_cons_of_mem _ ha)) ?_
      exact hstep _ List.mem_cons_self _ _ hp hs

/-- A run from a reachable state ends in one. -/
theorem Run.reachable {S : System σ α} {s t : σ} {as : List α} (hrun : Run S s as t)
    (hr : Reachable S s) : Reachable S t := by
  induction hrun with
  | nil s => exact hr
  | cons hs _ ih => exact ih (.step hr hs)

/-- The runs of a system whose steps also meet a condition on the state before them. -/
def System.guarded (S : System σ α) (ok : σ → α → Prop) : System σ α where
  start := S.start
  step s a t := S.step s a t ∧ ok s a

/-- A guard only takes steps away, so what it lets be reached is reachable without it. -/
theorem Reachable.of_guarded {S : System σ α} {ok : σ → α → Prop} {s : σ}
    (h : Reachable (S.guarded ok) s) : Reachable S s := by
  induction h with
  | start h0 => exact .start h0
  | step _ hs ih => exact .step ih hs.1

/-- A run of the guarded system is a run of the system. -/
theorem Run.of_guarded {S : System σ α} {ok : σ → α → Prop} {s t : σ} {as : List α}
    (h : Run (S.guarded ok) s as t) : Run S s as t := by
  induction h with
  | nil s => exact .nil s
  | cons hs _ ih => exact .cons hs.1 ih

/-- Two runs, the second from where the first ends, are one. -/
theorem Run.append {S : System σ α} {s t u : σ} {as bs : List α} (h₁ : Run S s as t)
    (h₂ : Run S t bs u) : Run S s (as ++ bs) u := by
  induction h₁ with
  | nil s => exact h₂
  | cons hs _ ih => exact .cons hs (ih h₂)

/-- **Simulation.**  Every detailed step is matched by an abstract step or by
    standing still. -/
theorem Reachable.simulate {S : System σ α} {A : System τ β} (abs : σ → τ)
    (hstart : ∀ s, S.start s → A.start (abs s))
    (hstep : ∀ s a t, Reachable S s → Reachable A (abs s) → S.step s a t →
      abs t = abs s ∨ ∃ b, A.step (abs s) b (abs t)) {s : σ}
    (h : Reachable S s) : Reachable A (abs s) := by
  refine Reachable.invariant (I := fun s => Reachable A (abs s)) ?_ ?_ h
  · intro s h0
    exact .start (hstart s h0)
  · intro s a t hr hA hs
    rcases hstep s a t hr hA hs with heq | ⟨b, hb⟩
    · rw [heq]
      exact hA
    · exact .step hA hb

end StepSystem
