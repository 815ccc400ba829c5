import Mathlib.Data.List.Basic

/-! Runs of a deterministic system on a list of inputs, kept as the list of the states
visited, each with the input it takes. What a run does at its end is the fold; what it does at
every step is a statement about the visits. -/

namespace DdsBenchmark.Visits

variable {σ ι : Type*}

/-- The states a run goes through, each with the input taken there. -/
def visits (step : σ → ι → σ) (s : σ) : List ι → List (σ × ι)
  | [] => []
  | x :: xs => (s, x) :: visits step (step s x) xs

variable (step : σ → ι → σ)

@[simp] theorem visits_nil (s : σ) : visits step s [] = [] := rfl

@[simp] theorem visits_cons (s : σ) (x : ι) (xs : List ι) :
    visits step s (x :: xs) = (s, x) :: visits step (step s x) xs := rfl

@[simp] theorem length_visits (s : σ) (xs : List ι) : (visits step s xs).length = xs.length := by
  induction xs generalizing s with
  | nil => rfl
  | cons x xs ih => rw [visits_cons, List.length_cons, ih, List.length_cons]

/-- What depends on the input alone is read off the inputs. -/
theorem map_visits_of_input {β : Type*} {f : σ × ι → β} {g : ι → β} (h : ∀ s x, f (s, x) = g x)
    (s : σ) (xs : List ι) : (visits step s xs).map f = xs.map g := by
  induction xs generalizing s with
  | nil => rfl
  | cons x xs ih => rw [visits_cons, List.map_cons, List.map_cons, ih, h]

/-- Visit `k` takes input `k` in the state that the inputs before it lead to. -/
theorem getElem?_visits (s : σ) (xs : List ι) (k : ℕ) :
    (visits step s xs)[k]? = (xs[k]?).map fun x => ((xs.take k).foldl step s, x) := by
  induction xs generalizing s k with
  | nil => rfl
  | cons x xs ih =>
    cases k with
    | zero => rfl
    | succ k => simpa using ih (step s x) k

/-- Two visits in a row. -/
theorem getElem?_visits_succ {s : σ} {xs : List ι} {k : ℕ} {v : σ × ι}
    (h : (visits step s xs)[k + 1]? = some v) :
    ∃ w, (visits step s xs)[k]? = some w ∧ v.1 = step w.1 w.2 := by
  rw [getElem?_visits] at h
  obtain ⟨y, hy, rfl⟩ := Option.map_eq_some_iff.mp h
  have hk := (List.getElem?_eq_some_iff.mp hy).1
  have hx : xs[k]? = some xs[k] := List.getElem?_eq_getElem (by omega)
  refine ⟨((xs.take k).foldl step s, xs[k]), by rw [getElem?_visits, hx]; rfl, ?_⟩
  rw [List.take_succ_eq_append_getElem (by omega), List.foldl_append]
  rfl

/-- A component that some inputs overwrite ends as the last value written. -/
theorem foldl_eq_getLast {β : Type*} {get : σ → β} {f : ι → Option β} {xs : List ι}
    (h : ∀ s, ∀ x ∈ xs, get (step s x) = (f x).getD (get s)) (s : σ) :
    get (xs.foldl step s) = ((xs.filterMap f).getLast?).getD (get s) := by
  induction xs generalizing s with
  | nil => rfl
  | cons x xs ih =>
    have hx := h s x List.mem_cons_self
    rw [List.foldl_cons, ih (fun s y hy => h s y (List.mem_cons_of_mem x hy)), hx]
    cases hf : f x with
    | none => rw [List.filterMap_cons_none hf, Option.getD_none]
    | some b => rw [List.filterMap_cons_some hf, List.getLast?_cons, Option.getD_some,
        Option.getD_some]

end DdsBenchmark.Visits
