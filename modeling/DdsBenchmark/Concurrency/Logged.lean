import Mathlib.Data.List.Basic

/-! Machines that tell what they do. A step takes an operation, changes the state and adds to a
log at most one entry, or ends the run for good. What every step keeps of the state and the log, a
run keeps. An entry may speak of what was told before it; when each is right as it is added, all
of them are. -/

namespace DdsBenchmark.Logged

variable {σ ι ε : Type*}

section Run
variable (step : σ → ι → Option (σ × Option ε))

/-- The operations one after the other. -/
def run (s : σ) (log : List ε) : List ι → Option (σ × List ε)
  | [] => some (s, log)
  | op :: ops => (step s op).bind fun r => run r.1 (log ++ r.2.toList) ops

variable {step}

theorem run_invariant {I : σ → List ε → Prop}
    (hstep : ∀ s log op r, I s log → step s op = some r → I r.1 (log ++ r.2.toList))
    {s : σ} {log : List ε} {ops : List ι} {r : σ × List ε} (h : I s log)
    (hrun : run step s log ops = some r) : I r.1 r.2 := by
  induction ops generalizing s log with
  | nil =>
    obtain rfl := Option.some.inj hrun
    exact h
  | cons op ops ih =>
    obtain ⟨r', hr', hrest⟩ := Option.bind_eq_some_iff.mp hrun
    exact ih (hstep _ _ _ _ h hr') hrest

end Run

/-- Every entry of the log has a property that may depend on what was told before it. -/
def Told (P : List ε → ε → Prop) (log : List ε) : Prop :=
  ∀ before e behind, log = before ++ e :: behind → P before e

theorem told_nil (P : List ε → ε → Prop) : Told P [] := by
  intro before e behind h
  simp at h

theorem Told.concat {P : List ε → ε → Prop} {log : List ε} (h : Told P log) {e : ε}
    (he : P log e) : Told P (log ++ [e]) := by
  intro before e' behind heq
  rcases List.eq_nil_or_concat behind with rfl | ⟨behind, x, rfl⟩
  · obtain ⟨rfl, he'⟩ := List.append_inj' heq rfl
    rwa [← List.singleton_inj.mp he']
  · rw [List.concat_eq_append, ← List.cons_append, ← List.append_assoc] at heq
    exact h before e' behind (List.append_inj' heq rfl).1

/-- What a step adds is right. -/
theorem Told.append {P : List ε → ε → Prop} {log : List ε} (h : Told P log) {o : Option ε}
    (ho : ∀ e, o = some e → P log e) : Told P (log ++ o.toList) := by
  cases o with
  | none => rwa [Option.toList_none, List.append_nil]
  | some e => exact h.concat (ho e rfl)

end DdsBenchmark.Logged
