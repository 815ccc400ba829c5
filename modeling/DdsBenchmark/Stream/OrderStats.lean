import Mathlib.Data.List.Sort
import Mathlib.Order.Bounds.Basic
import Mathlib.Order.MinMax

/-! Order statistics of a list over a linear order. The `k`-th smallest element, counted from
one, is at most `v` exactly when at least `k` elements are. Ranks, percentiles and the order
between two lists are read off this one rule; sorting does not come up again. -/

namespace DdsBenchmark.OrderStats

variable {α : Type*} [LinearOrder α]

def ascending (xs : List α) : List α := xs.insertionSort (· ≤ ·)

/-- How many elements are at most `v`. -/
def countLE (xs : List α) (v : α) : ℕ := xs.countP (· ≤ v)

@[simp] theorem length_ascending (xs : List α) : (ascending xs).length = xs.length :=
  List.length_insertionSort _ _

theorem ascending_perm (xs : List α) : (ascending xs).Perm xs := List.perm_insertionSort _ _

theorem pairwise_ascending (xs : List α) : (ascending xs).Pairwise (· ≤ ·) :=
  List.pairwise_insertionSort _ _

theorem getElem_le_iff_of_pairwise {xs : List α} (hs : xs.Pairwise (· ≤ ·)) {k : ℕ}
    (hk : k < xs.length) (v : α) : xs[k] ≤ v ↔ k < countLE xs v := by
  induction xs generalizing k with
  | nil => exact absurd hk (Nat.not_lt_zero k)
  | cons x xs ih =>
    obtain ⟨hx, hs⟩ := List.pairwise_cons.mp hs
    by_cases hv : x ≤ v
    · have hc : countLE (x :: xs) v = countLE xs v + 1 := by simp [countLE, hv]
      cases k with
      | zero => simp [hc, hv]
      | succ k => rw [hc, List.getElem_cons_succ, ih hs (by simpa using hk), Nat.succ_lt_succ_iff]
    · -- above `v` from the first element on
      have hlt : ∀ y ∈ x :: xs, ¬ y ≤ v := by
        intro y hy hyv
        rcases List.mem_cons.mp hy with rfl | hy
        · exact hv hyv
        · exact hv ((hx y hy).trans hyv)
      have hc : countLE (x :: xs) v = 0 :=
        List.countP_eq_zero.mpr fun y hy => by simpa using hlt y hy
      rw [hc]
      exact iff_of_false (hlt _ (List.getElem_mem hk)) (Nat.not_lt_zero k)

theorem countLE_ascending (xs : List α) (v : α) : countLE (ascending xs) v = countLE xs v :=
  (ascending_perm xs).countP_eq _

variable [Inhabited α]

/-- The `k`-th smallest element, counted from one. -/
def kth (xs : List α) (k : ℕ) : α := (ascending xs).getD (k - 1) default

section Rank
variable {xs : List α} {k l : ℕ}

theorem kth_eq_getElem (hk : 1 ≤ k) (hn : k ≤ xs.length) :
    ∃ h : k - 1 < (ascending xs).length, kth xs k = (ascending xs)[k - 1] := by
  have h : k - 1 < (ascending xs).length := by
    rw [length_ascending]
    omega
  exact ⟨h, by rw [kth, List.getD_eq_getElem?_getD, List.getElem?_eq_getElem h, Option.getD_some]⟩

theorem kth_mem (hk : 1 ≤ k) (hn : k ≤ xs.length) : kth xs k ∈ xs := by
  obtain ⟨_, hget⟩ := kth_eq_getElem hk hn
  rw [hget]
  exact (ascending_perm xs).mem_iff.mp (List.getElem_mem _)

/-- The rule of the module. -/
theorem kth_le_iff (hk : 1 ≤ k) (hn : k ≤ xs.length) (v : α) :
    kth xs k ≤ v ↔ k ≤ countLE xs v := by
  obtain ⟨_, hget⟩ := kth_eq_getElem hk hn
  rw [hget, getElem_le_iff_of_pairwise (pairwise_ascending xs), countLE_ascending]
  omega

theorem le_countLE_kth (hk : 1 ≤ k) (hn : k ≤ xs.length) : k ≤ countLE xs (kth xs k) :=
  (kth_le_iff hk hn _).mp le_rfl

theorem kth_mono (hk : 1 ≤ k) (hkl : k ≤ l) (hl : l ≤ xs.length) : kth xs k ≤ kth xs l :=
  (kth_le_iff hk (hkl.trans hl) _).mpr (hkl.trans (le_countLE_kth (hk.trans hkl) hl))

theorem le_kth_length {x : α} (hx : x ∈ xs) : x ≤ kth xs xs.length := by
  have hn : 1 ≤ xs.length := List.length_pos_of_mem hx
  have hall : countLE xs (kth xs xs.length) = xs.length :=
    Nat.le_antisymm List.countP_le_length (le_countLE_kth hn le_rfl)
  simpa using List.countP_eq_length.mp hall x hx

end Rank

/-! ### Percentiles -/

/-- The rank of the `p`-th percentile of `n` elements, `p * n / 100` rounded up. -/
def nearestRank (p n : ℕ) : ℕ := (p * n + 99) / 100

theorem nearestRank_le_iff {p n c : ℕ} : nearestRank p n ≤ c ↔ p * n ≤ 100 * c := by
  unfold nearestRank
  omega

theorem nearestRank_le {p : ℕ} (hp : p ≤ 100) (n : ℕ) : nearestRank p n ≤ n :=
  nearestRank_le_iff.mpr (Nat.mul_le_mul_right n hp)

theorem one_le_nearestRank {p n : ℕ} (hp : 0 < p) (hn : 0 < n) : 1 ≤ nearestRank p n := by
  have := Nat.mul_pos hp hn
  unfold nearestRank
  omega

/-- The elements that at least `p` percent of all elements do not exceed. -/
def atLeastPercent (p : ℕ) (xs : List α) : Set α :=
  {v | v ∈ xs ∧ p * xs.length ≤ 100 * countLE xs v}

/-- The element of the nearest rank is the least of them. -/
theorem isLeast_kth_nearestRank {p : ℕ} (hp : 0 < p) (hp' : p ≤ 100) {xs : List α}
    (hne : xs ≠ []) : IsLeast (atLeastPercent p xs) (kth xs (nearestRank p xs.length)) := by
  have hk := one_le_nearestRank hp (List.length_pos_of_ne_nil hne)
  have hn := nearestRank_le hp' xs.length
  constructor
  · exact ⟨kth_mem hk hn, nearestRank_le_iff.mp (le_countLE_kth hk hn)⟩
  · rintro v ⟨-, hv⟩
    exact (kth_le_iff hk hn v).mpr (nearestRank_le_iff.mpr hv)

/-! ### Domination -/

omit [Inhabited α] in
theorem countLE_anti {xs ys : List α} (h : List.Forall₂ (· ≤ ·) xs ys) (v : α) :
    countLE ys v ≤ countLE xs v := by
  induction h with
  | nil => exact le_rfl
  | @cons x y xs ys hxy _ ih =>
    unfold countLE at ih ⊢
    rw [List.countP_cons, List.countP_cons]
    by_cases hy : y ≤ v
    · simpa [hy, hxy.trans hy] using ih
    · rw [if_neg (by simpa using hy)]
      exact ih.trans (Nat.le_add_right _ _)

/-- A list that is below another place by place is below it rank by rank. -/
theorem kth_le_kth {xs ys : List α} (h : List.Forall₂ (· ≤ ·) xs ys) {k : ℕ} (hk : 1 ≤ k)
    (hn : k ≤ xs.length) : kth xs k ≤ kth ys k :=
  (kth_le_iff hk hn _).mpr
    ((le_countLE_kth hk (hn.trans_eq h.length_eq)).trans (countLE_anti h _))

/-! ### Extremes -/

section Extremes
variable {β : Type*} [LinearOrder β] {ts : List β} {b : β}

theorem foldl_min_spec (ts : List β) (b : β) :
    ts.foldl Min.min b ∈ b :: ts ∧ ∀ t ∈ b :: ts, ts.foldl Min.min b ≤ t := by
  induction ts generalizing b with
  | nil => simp
  | cons u us ih =>
    obtain ⟨hmem, hle⟩ := ih (Min.min b u)
    have hmin := hle _ List.mem_cons_self
    constructor
    · rw [List.foldl_cons]
      rcases List.mem_cons.mp hmem with h | h
      · rw [h]
        rcases min_choice b u with h | h <;> simp [h]
      · simp [h]
    · intro t ht
      simp only [List.mem_cons] at ht
      rcases ht with rfl | rfl | ht
      · exact hmin.trans (min_le_left _ _)
      · exact hmin.trans (min_le_right _ _)
      · exact hle t (List.mem_cons_of_mem _ ht)

/-- The minimum over a list, begun with an upper bound. -/
theorem isLeast_foldl_min (hne : ts ≠ []) (hb : ∀ t ∈ ts, t ≤ b) :
    IsLeast {t | t ∈ ts} (ts.foldl Min.min b) := by
  obtain ⟨hmem, hle⟩ := foldl_min_spec ts b
  refine ⟨?_, fun t ht => hle t (List.mem_cons_of_mem _ ht)⟩
  rcases List.mem_cons.mp hmem with h | h
  · obtain ⟨t, ht⟩ := List.exists_mem_of_ne_nil ts hne
    have hbt : b = t := le_antisymm (h ▸ hle t (List.mem_cons_of_mem _ ht)) (hb t ht)
    rw [h, hbt]
    exact ht
  · exact h

/-- Below the maximum the order is turned round. -/
theorem isGreatest_foldl_max (hne : ts ≠ []) (hb : ∀ t ∈ ts, b ≤ t) :
    IsGreatest {t | t ∈ ts} (ts.foldl Max.max b) :=
  @isLeast_foldl_min βᵒᵈ _ ts b hne hb

theorem foldl_max_le {c : β} (hb : b ≤ c) (h : ∀ t ∈ ts, t ≤ c) : ts.foldl Max.max b ≤ c := by
  induction ts generalizing b with
  | nil => exact hb
  | cons u us ih =>
    obtain ⟨hu, hus⟩ := List.forall_mem_cons.mp h
    exact ih (max_le hb hu) hus

end Extremes

end DdsBenchmark.OrderStats
