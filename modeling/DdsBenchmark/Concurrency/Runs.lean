import Mathlib.Data.List.Count

/-! Runs of a labelled step relation. What every step keeps, a run keeps; a measure that no step
raises, and that the steps of one kind lower, bounds how many steps of that kind a run has. -/

namespace DdsBenchmark.Concurrency

variable {σ κ : Type} (step : σ → κ → σ → Prop)

/-- The finite runs with the labels of their steps, in order. -/
inductive Run : σ → List κ → σ → Prop
  | nil (s : σ) : Run s [] s
  | cons {s t u : σ} {k : κ} {ks : List κ} (first : step s k t) (rest : Run t ks u) :
    Run s (k :: ks) u

variable {step} {s t u : σ} {ks ls : List κ}

theorem Run.append (h : Run step s ks t) (h' : Run step t ls u) : Run step s (ks ++ ls) u := by
  induction h with
  | nil => exact h'
  | cons first _ ih => exact .cons first (ih h')

theorem Run.single {k : κ} (h : step s k t) : Run step s [k] t := .cons h (.nil t)

/-- An invariant of the steps is one of the runs. -/
theorem Run.invariant {I : σ → Prop} (hstep : ∀ s k t, I s → step s k t → I t)
    (h : Run step s ks t) (hs : I s) : I t := by
  induction h with
  | nil => exact hs
  | cons first _ ih => exact ih (hstep _ _ _ hs first)

/-- The steps labelled `p` each lower the measure `m`, the others do not raise it. -/
theorem Run.countP_add_le {I : σ → Prop} (p : κ → Bool) (m : σ → ℕ)
    (hI : ∀ s k t, I s → step s k t → I t)
    (hm : ∀ s k t, I s → step s k t → m t + (if p k then 1 else 0) ≤ m s)
    (h : Run step s ks t) (hs : I s) : ks.countP p + m t ≤ m s := by
  induction h with
  | nil => simp
  | @cons s t u k ks first rest ih =>
    have hrest := ih (hI _ _ _ hs first)
    have hfirst := hm _ _ _ hs first
    rw [List.countP_cons]
    omega

end DdsBenchmark.Concurrency
