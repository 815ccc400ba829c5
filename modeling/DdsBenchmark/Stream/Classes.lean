import Mathlib.Algebra.BigOperators.Group.Finset.Basic
import Mathlib.Data.List.MinMax
import Mathlib.Tactic.Ring
import DdsBenchmark.Stream.Gaps
import DdsBenchmark.Stream.Interleave

/-! A stream of numbers dealt out to `K` classes in turn: number `n` is entry `n / K` of class
`n % K`. A receiver that starts at `n₀` expects, class by class, the first entry after `n₀`. When
every class arrives in order, the gaps booked class by class are the numbers skipped, those after
`n₀` that did not arrive although a later number of their class did. -/

namespace DdsBenchmark.Classes

open Interleave

variable {K : ℕ} [NeZero K]

/-- The class of a number. -/
def classOf (K : ℕ) [NeZero K] (n : ℕ) : Fin K := ⟨n % K, Nat.mod_lt n (NeZero.pos K)⟩

/-- The stream with the class and the entry of every number. -/
def deal (K : ℕ) [NeZero K] (ns : List ℕ) : List (Fin K × ℕ) := ns.map fun n => (classOf K n, n / K)

/-- The entries of the class `k` that arrive. -/
def entries (k : Fin K) (ns : List ℕ) : List ℕ := own k (deal K ns)

/-- The first entry of the class `k` behind `n₀`. -/
def after (n₀ : ℕ) (k : Fin K) : ℕ := if k ≤ classOf K n₀ then n₀ / K + 1 else n₀ / K

theorem mul_add_classOf (K : ℕ) [NeZero K] (n : ℕ) : K * (n / K) + classOf K n = n :=
  Nat.div_add_mod n K

omit [NeZero K] in
@[simp] theorem mul_add_mod (j : ℕ) (k : Fin K) : (K * j + k) % K = k := by
  rw [Nat.mul_add_mod, Nat.mod_eq_of_lt k.isLt]

@[simp] theorem classOf_mul_add (j : ℕ) (k : Fin K) : classOf K (K * j + k) = k :=
  Fin.ext (mul_add_mod j k)

@[simp] theorem mul_add_div (j : ℕ) (k : Fin K) : (K * j + k) / K = j := by
  rw [Nat.mul_add_div (NeZero.pos K), Nat.div_eq_of_lt k.isLt, Nat.add_zero]

theorem mem_entries {k : Fin K} {j : ℕ} {ns : List ℕ} : j ∈ entries k ns ↔ K * j + k ∈ ns := by
  simp only [entries, deal, mem_own, List.mem_map, Prod.mk.injEq]
  constructor
  · rintro ⟨n, hn, rfl, rfl⟩
    rwa [mul_add_classOf]
  · intro h
    exact ⟨_, h, classOf_mul_add j k, mul_add_div j k⟩

/-- An entry lies behind `n₀` exactly when its number does. -/
theorem after_le_iff {n₀ : ℕ} {k : Fin K} {j : ℕ} : after n₀ k ≤ j ↔ n₀ < K * j + k := by
  have hn := mul_add_classOf K n₀
  have hmod := (classOf K n₀).isLt
  have hk := k.isLt
  set q := n₀ / K
  unfold after
  simp only [Fin.le_def]
  rcases Nat.lt_trichotomy q j with h | rfl | h
  · have : K * (q + 1) ≤ K * j := Nat.mul_le_mul_left K h
    rw [Nat.mul_succ] at this
    split_ifs <;> omega
  · split_ifs <;> omega
  · have : K * (j + 1) ≤ K * q := Nat.mul_le_mul_left K h
    rw [Nat.mul_succ] at this
    split_ifs <;> omega

/-- Entries of one class are as far apart as `K` times their places. -/
theorem add_mul_lt_iff {k : Fin K} {i j : ℕ} : K * i + k < K * j + k ↔ i < j := by
  rw [Nat.add_lt_add_iff_right, Nat.mul_lt_mul_left (NeZero.pos K)]

/-! ### Skipped numbers -/

/-- The numbers behind `n₀` that did not arrive although a later one of their class did. -/
def skipped (K : ℕ) (n₀ : ℕ) (ns : List ℕ) : Finset ℕ :=
  (Finset.range (ns.foldr max 0)).filter fun m =>
    n₀ < m ∧ m ∉ ns ∧ ∃ n ∈ ns, m < n ∧ n % K = m % K

omit [NeZero K] in
theorem mem_skipped {n₀ m : ℕ} {ns : List ℕ} :
    m ∈ skipped K n₀ ns ↔ n₀ < m ∧ m ∉ ns ∧ ∃ n ∈ ns, m < n ∧ n % K = m % K := by
  rw [skipped, Finset.mem_filter, Finset.mem_range, and_iff_right_iff_imp]
  rintro ⟨-, -, n, hn, hmn, -⟩
  exact hmn.trans_le (List.le_max_of_le' 0 hn le_rfl)

theorem mem_missing {e j : ℕ} {xs : List ℕ} :
    j ∈ Gaps.missing e xs ↔ e ≤ j ∧ j ∉ xs ∧ ∃ x ∈ xs, j < x := by
  have hhigh : j < Gaps.high e xs ↔ ¬ (e ≤ j ∧ ∀ x ∈ xs, x < j) ∧ (j ∉ xs → True) := by
    rw [← Nat.not_le, Gaps.high_le_iff]
    simp
  rw [Gaps.missing, Finset.mem_sdiff, Finset.mem_Ico, List.mem_toFinset, hhigh]
  constructor
  · rintro ⟨⟨he, hn, -⟩, hj⟩
    refine ⟨he, hj, ?_⟩
    by_contra hno
    simp only [not_exists, not_and, not_lt] at hno
    exact hn ⟨he, fun x hx => lt_of_le_of_ne (hno x hx) fun h => hj (h ▸ hx)⟩
  · rintro ⟨he, hj, x, hx, hlt⟩
    exact ⟨⟨he, fun h => absurd (h.2 x hx) (by omega), fun _ => trivial⟩, hj⟩

theorem mem_skipped_iff_mem_missing {n₀ j : ℕ} {k : Fin K} {ns : List ℕ} :
    K * j + k ∈ skipped K n₀ ns ↔ j ∈ Gaps.missing (after n₀ k) (entries k ns) := by
  rw [mem_skipped, mem_missing, after_le_iff, mem_entries, mul_add_mod]
  refine and_congr_right fun _ => and_congr_right fun _ => ⟨?_, ?_⟩
  · rintro ⟨n, hn, hlt, hk⟩
    have hnk : K * (n / K) + k = n := by rw [← hk]; exact Nat.div_add_mod n K
    rw [← hnk] at hn hlt
    exact ⟨n / K, mem_entries.mpr hn, add_mul_lt_iff.mp hlt⟩
  · rintro ⟨i, hi, hlt⟩
    exact ⟨_, mem_entries.mp hi, add_mul_lt_iff.mpr hlt, mul_add_mod i k⟩

/-- The numbers skipped, class by class. -/
theorem card_skipped (n₀ : ℕ) (ns : List ℕ) :
    (skipped K n₀ ns).card = ∑ k : Fin K, (Gaps.missing (after n₀ k) (entries k ns)).card := by
  rw [Finset.card_eq_sum_card_fiberwise (f := classOf K) (t := Finset.univ)
    fun _ _ => Finset.mem_univ _]
  refine Finset.sum_congr rfl fun k _ => ?_
  refine Finset.card_bij' (fun n _ => n / K) (fun j _ => K * j + k) ?_ ?_ ?_ ?_
  · intro n hn
    obtain ⟨hs, rfl⟩ := Finset.mem_filter.mp hn
    rwa [← mem_skipped_iff_mem_missing, mul_add_classOf]
  · intro j hj
    exact Finset.mem_filter.mpr ⟨mem_skipped_iff_mem_missing.mpr hj,
      classOf_mul_add j k⟩
  · intro n hn
    obtain ⟨-, rfl⟩ := Finset.mem_filter.mp hn
    exact mul_add_classOf K n
  · intro j _
    exact mul_add_div j k

end DdsBenchmark.Classes
