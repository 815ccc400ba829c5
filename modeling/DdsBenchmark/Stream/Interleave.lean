import Mathlib.Algebra.BigOperators.Group.Finset.Basic
import Mathlib.Algebra.GroupWithZero.Nat

/-! Streams that share one channel. Each arrival names the stream it belongs to, and each stream
has a machine of its own. Whatever the interleaving, what the machines charge for all arrivals is
the sum of what each charges for its own. -/

namespace DdsBenchmark.Interleave

variable {κ ι σ M : Type*} [DecidableEq κ]

/-- The arrivals of the stream `k`, in order. -/
def own (k : κ) : List (κ × ι) → List ι
  | [] => []
  | x :: xs => if x.1 = k then x.2 :: own k xs else own k xs

@[simp] theorem own_nil (k : κ) : own k ([] : List (κ × ι)) = [] := rfl

@[simp] theorem own_cons_self (k : κ) (i : ι) (xs : List (κ × ι)) :
    own k ((k, i) :: xs) = i :: own k xs := if_pos rfl

theorem own_cons_of_ne {k : κ} {x : κ × ι} (h : x.1 ≠ k) (xs : List (κ × ι)) :
    own k (x :: xs) = own k xs := if_neg h

theorem mem_own {k : κ} {i : ι} {xs : List (κ × ι)} : i ∈ own k xs ↔ (k, i) ∈ xs := by
  induction xs with
  | nil => simp
  | cons x xs ih =>
    obtain ⟨k', i'⟩ := x
    by_cases h : k' = k
    · subst h
      simp [ih]
    · have hne : (k, i) ≠ (k', i') := fun he => h (Prod.mk.inj he).1.symm
      rw [own_cons_of_ne h, ih, List.mem_cons, or_iff_right hne]

theorem length_own_cons (k : κ) (x : κ × ι) (xs : List (κ × ι)) :
    (own k (x :: xs)).length = (own k xs).length + if x.1 = k then 1 else 0 := by
  by_cases h : x.1 = k
  · rw [own, if_pos h, if_pos h, List.length_cons]
  · rw [own_cons_of_ne h, if_neg h, Nat.add_zero]

theorem sum_indicator_le (k : κ) {keys : List κ} (h : keys.Nodup) :
    (keys.map fun j => if k = j then 1 else 0).sum ≤ 1 := by
  induction keys with
  | nil => exact Nat.zero_le 1
  | cons j keys ih =>
    obtain ⟨hj, hkeys⟩ := List.nodup_cons.mp h
    rw [List.map_cons, List.sum_cons]
    by_cases hk : k = j
    · subst hk
      have hzero : (keys.map fun j => if k = j then 1 else 0).sum = 0 := by
        refine List.sum_eq_zero fun n hn => ?_
        obtain ⟨i, hi, rfl⟩ := List.mem_map.mp hn
        exact if_neg fun he : k = i => hj (he ▸ hi)
      rw [hzero, if_pos rfl]
    · rw [if_neg hk, Nat.zero_add]
      exact ih hkeys

/-- Different streams share out the arrivals. -/
theorem sum_length_own_le {keys : List κ} (h : keys.Nodup) (xs : List (κ × ι)) :
    (keys.map fun k => (own k xs).length).sum ≤ xs.length := by
  induction xs with
  | nil => simp
  | cons x xs ih =>
    have hone := sum_indicator_le x.1 h
    simp only [length_own_cons, List.sum_map_add, List.length_cons]
    omega

variable (step : σ → ι → σ)

/-- The machines after the arrivals. -/
def run (s : κ → σ) : List (κ × ι) → κ → σ
  | [] => s
  | x :: xs => run (Function.update s x.1 (step (s x.1) x.2)) xs

section Charge
variable [AddCommMonoid M] (cost : σ → ι → M)

/-- What one machine charges for a stream. -/
def charge (s : σ) : List ι → M
  | [] => 0
  | i :: is => cost s i + charge (step s i) is

/-- What the machines charge for all arrivals. -/
def total (s : κ → σ) : List (κ × ι) → M
  | [] => 0
  | x :: xs => cost (s x.1) x.2 + total (Function.update s x.1 (step (s x.1) x.2)) xs

/-- The charge of all arrivals, stream by stream. -/
theorem total_eq_sum (keys : Finset κ) (s : κ → σ) {xs : List (κ × ι)}
    (h : ∀ x ∈ xs, x.1 ∈ keys) :
    total step cost s xs = ∑ k ∈ keys, charge step cost (s k) (own k xs) := by
  induction xs generalizing s with
  | nil => simp [total, charge]
  | cons x xs ih =>
    obtain ⟨k, i⟩ := x
    have hk : k ∈ keys := h _ List.mem_cons_self
    have hrest := ih (Function.update s k (step (s k) i)) fun y hy =>
      h y (List.mem_cons_of_mem _ hy)
    rw [← Finset.add_sum_erase keys _ hk] at hrest ⊢
    rw [total, hrest, own_cons_self, charge, Function.update_self, add_assoc]
    congr 2
    refine Finset.sum_congr rfl fun j hj => ?_
    have hne : j ≠ k := Finset.ne_of_mem_erase hj
    rw [Function.update_of_ne hne, own_cons_of_ne (Ne.symm hne)]

end Charge

end DdsBenchmark.Interleave
