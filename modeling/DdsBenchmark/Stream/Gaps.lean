import Mathlib.Algebra.Ring.Nat
import Mathlib.Data.Finset.Card
import Mathlib.Data.Finset.Sum
import Mathlib.Order.Interval.Finset.Nat

/-! Gap accounting on a stream of numbers. A receiver expects a number `e`, books
the distance of every jump past it, and then expects the successor of what it got.
Proved for every stream: the balance between skipped numbers and steps back, that no
missing number escapes the booked gaps, and that on a stream in order the two agree. -/

namespace DdsBenchmark.Gaps

/-- The number expected after a stream. -/
def next (e : ℕ) : List ℕ → ℕ
  | [] => e
  | x :: xs => next (x + 1) xs

/-- The numbers skipped by the jumps past the expected one. -/
def gapSum (e : ℕ) : List ℕ → ℕ
  | [] => 0
  | x :: xs => (x - e) + gapSum (x + 1) xs

/-- The distance by which arrivals below the expected number take it back. -/
def rollback (e : ℕ) : List ℕ → ℕ
  | [] => 0
  | x :: xs => (e - x) + rollback (x + 1) xs

/-- The arrivals below the expected number. -/
def late (e : ℕ) : List ℕ → ℕ
  | [] => 0
  | x :: xs => (if x < e then 1 else 0) + late (x + 1) xs

/-- One more than everything expected or seen. -/
def high (e : ℕ) : List ℕ → ℕ
  | [] => e
  | x :: xs => max e (high (x + 1) xs)

/-- The numbers from `e` up to the highest arrival that never arrived. -/
def missing (e : ℕ) (xs : List ℕ) : Finset ℕ := Finset.Ico e (high e xs) \ xs.toFinset

/-- The stream increases strictly and starts no lower than `e`. -/
def InOrder (e : ℕ) (xs : List ℕ) : Prop := (∀ x ∈ xs, e ≤ x) ∧ xs.Pairwise (· < ·)

@[simp] theorem next_append (e : ℕ) (xs ys : List ℕ) : next e (xs ++ ys) = next (next e xs) ys := by
  induction xs generalizing e with
  | nil => rfl
  | cons x xs ih => exact ih (x + 1)

theorem gapSum_append (e : ℕ) (xs ys : List ℕ) :
    gapSum e (xs ++ ys) = gapSum e xs + gapSum (next e xs) ys := by
  induction xs generalizing e with
  | nil => exact (Nat.zero_add _).symm
  | cons x xs ih => exact (congrArg ((x - e) + ·) (ih (x + 1))).trans (Nat.add_assoc _ _ _).symm

/-- The stream ends where the skipped numbers, the arrivals and the steps back put it. -/
theorem balance (e : ℕ) (xs : List ℕ) :
    next e xs + rollback e xs = e + gapSum e xs + xs.length := by
  induction xs generalizing e with
  | nil => simp [next, rollback, gapSum]
  | cons x xs ih =>
    have hh := ih (x + 1)
    simp only [next, rollback, gapSum, List.length_cons]
    omega

theorem le_high (e : ℕ) (xs : List ℕ) : e ≤ high e xs := by
  cases xs with
  | nil => exact le_rfl
  | cons x xs => exact le_max_left _ _

theorem lt_high {e x : ℕ} {xs : List ℕ} (hx : x ∈ xs) : x < high e xs := by
  induction xs generalizing e with
  | nil => simp at hx
  | cons y ys ih =>
    simp only [high]
    rcases List.mem_cons.mp hx with rfl | hy
    · have := le_high (x + 1) ys; omega
    · have := ih (e := y + 1) hy; omega

theorem next_le_high (e : ℕ) (xs : List ℕ) : next e xs ≤ high e xs := by
  induction xs generalizing e with
  | nil => exact le_rfl
  | cons x xs ih => exact (ih (x + 1)).trans (le_max_right _ _)

/-- Every arrival below the expected number is paid for by a step back of its own. -/
theorem high_add_late_le (e : ℕ) (xs : List ℕ) :
    high e xs + late e xs ≤ next e xs + rollback e xs := by
  induction xs generalizing e with
  | nil => simp [high, late, next, rollback]
  | cons x xs ih =>
    have hh := ih (x + 1)
    have hx := le_high (x + 1) xs
    simp only [high, late, next, rollback]
    split_ifs <;> omega

/-! ### Missing numbers -/

/-- No missing number escapes the booked gaps, in any arrival order. -/
theorem card_missing_le (e : ℕ) (xs : List ℕ) : (missing e xs).card ≤ gapSum e xs := by
  induction xs generalizing e with
  | nil => simp [missing, high, gapSum]
  | cons x xs ih =>
    -- a number missing below `x` lies in the gap booked at `x`, any other is missing later
    have hsub : missing e (x :: xs) ⊆ Finset.Ico e x ∪ missing (x + 1) xs := by
      intro k hk
      simp only [missing, high, Finset.mem_sdiff, Finset.mem_Ico, List.mem_toFinset,
        List.mem_cons, Finset.mem_union] at hk ⊢
      obtain ⟨⟨h1, h2⟩, h3⟩ := hk
      rcases lt_trichotomy k x with h | h | h
      · exact Or.inl ⟨h1, h⟩
      · exact absurd (Or.inl h) h3
      · exact Or.inr ⟨⟨h, by omega⟩, fun hm => h3 (Or.inr hm)⟩
    calc (missing e (x :: xs)).card
        ≤ (Finset.Ico e x).card + (missing (x + 1) xs).card :=
          (Finset.card_le_card hsub).trans (Finset.card_union_le _ _)
      _ ≤ (x - e) + gapSum (x + 1) xs := by rw [Nat.card_Ico]; exact Nat.add_le_add_left (ih _) _

/-- Without repetitions every number up to the highest is missing or arrived once. -/
theorem card_missing_of_nodup {e : ℕ} {xs : List ℕ} (hnd : xs.Nodup) (he : ∀ x ∈ xs, e ≤ x) :
    e + (missing e xs).card + xs.length = high e xs := by
  have hsub : xs.toFinset ⊆ Finset.Ico e (high e xs) := by
    intro x hx
    rw [List.mem_toFinset] at hx
    exact Finset.mem_Ico.mpr ⟨he x hx, lt_high hx⟩
  have hc := Finset.card_sdiff_add_card_eq_card hsub
  rw [Nat.card_Ico, List.toFinset_card_of_nodup hnd] at hc
  have hl := le_high e xs
  unfold missing
  omega

/-! ### Streams in order -/

theorem InOrder.tail {e x : ℕ} {xs : List ℕ} (h : InOrder e (x :: xs)) : InOrder (x + 1) xs := by
  obtain ⟨_, hp⟩ := h
  rw [List.pairwise_cons] at hp
  exact ⟨fun y hy => hp.1 y hy, hp.2⟩

theorem InOrder.nodup {e : ℕ} {xs : List ℕ} (h : InOrder e xs) : xs.Nodup :=
  h.2.imp fun hlt => Nat.ne_of_lt hlt

theorem InOrder.sublist {e : ℕ} {xs ys : List ℕ} (h : InOrder e ys) (hs : xs.Sublist ys) :
    InOrder e xs :=
  ⟨fun x hx => h.1 x (hs.subset hx), h.2.sublist hs⟩

theorem rollback_of_inOrder {e : ℕ} {xs : List ℕ} (h : InOrder e xs) : rollback e xs = 0 := by
  induction xs generalizing e with
  | nil => rfl
  | cons x xs ih =>
    have hx := h.1 x (by simp)
    rw [rollback, ih h.tail]
    omega

/-- A stream in order ends after the skipped numbers and the arrivals. -/
theorem InOrder.next_eq {e : ℕ} {xs : List ℕ} (h : InOrder e xs) :
    next e xs = e + gapSum e xs + xs.length := by
  have hb := balance e xs
  rw [rollback_of_inOrder h] at hb
  exact hb

theorem InOrder.high_eq {e : ℕ} {xs : List ℕ} (h : InOrder e xs) : high e xs = next e xs := by
  have hl := high_add_late_le e xs
  rw [rollback_of_inOrder h] at hl
  have := next_le_high e xs
  omega

/-- In order, the last arrival closes the count of the arrivals and the skipped numbers. -/
theorem InOrder.last_eq {e last : ℕ} {xs : List ℕ} (h : InOrder e (xs ++ [last])) :
    last + 1 = e + gapSum e (xs ++ [last]) + (xs ++ [last]).length := by
  have hnext := h.next_eq
  rwa [next_append] at hnext

theorem InOrder.high_append_singleton {e last : ℕ} {xs : List ℕ} (h : InOrder e (xs ++ [last])) :
    high e (xs ++ [last]) = last + 1 := by
  rw [h.high_eq, next_append]
  rfl

/-- In order, the booked gaps are exactly the missing numbers. -/
theorem InOrder.gapSum_eq {e : ℕ} {xs : List ℕ} (h : InOrder e xs) :
    gapSum e xs = (missing e xs).card := by
  have hm := card_missing_of_nodup h.nodup h.1
  rw [h.high_eq, h.next_eq] at hm
  omega

/-- The stream is in order exactly when nothing arrives late. -/
theorem late_eq_zero_iff (e : ℕ) (xs : List ℕ) : late e xs = 0 ↔ InOrder e xs := by
  induction xs generalizing e with
  | nil => simp [late, InOrder]
  | cons x xs ih =>
    constructor
    · intro h
      rw [late, Nat.add_eq_zero_iff, ih] at h
      have hx : e ≤ x := by by_contra hlt; simp [Nat.lt_of_not_le hlt] at h
      refine ⟨fun y hy => ?_, List.pairwise_cons.mpr ⟨fun y hy => h.2.1 y hy, h.2.2⟩⟩
      rcases List.mem_cons.mp hy with rfl | hy
      · exact hx
      · have := h.2.1 y hy; omega
    · intro h
      have hx := h.1 x (by simp)
      rw [late, (ih (x + 1)).mpr h.tail, if_neg (by omega)]

/-- Each late arrival books at least one number beyond the missing ones. -/
theorem card_missing_add_late_le {e : ℕ} {xs : List ℕ} (hnd : xs.Nodup) (he : ∀ x ∈ xs, e ≤ x) :
    (missing e xs).card + late e xs ≤ gapSum e xs := by
  have hm := card_missing_of_nodup hnd he
  have hl := high_add_late_le e xs
  have hb := balance e xs
  omega

/-- Without repetitions the booked gaps are the missing numbers only in order. -/
theorem gapSum_eq_iff_inOrder {e : ℕ} {xs : List ℕ} (hnd : xs.Nodup) (he : ∀ x ∈ xs, e ≤ x) :
    gapSum e xs = (missing e xs).card ↔ InOrder e xs := by
  refine ⟨fun h => ?_, fun h => h.gapSum_eq⟩
  have hl := card_missing_add_late_le hnd he
  rw [← late_eq_zero_iff]
  omega

/-! ### Arrival order -/

theorem high_le_iff {e k : ℕ} {xs : List ℕ} : high e xs ≤ k ↔ e ≤ k ∧ ∀ x ∈ xs, x < k := by
  induction xs generalizing e with
  | nil => simp [high]
  | cons x xs ih => rw [high, max_le_iff, ih, List.forall_mem_cons, Nat.succ_le_iff]

/-- What is missing does not depend on the arrival order. -/
theorem missing_perm (e : ℕ) {xs ys : List ℕ} (h : xs.Perm ys) : missing e xs = missing e ys := by
  have hh : high e xs = high e ys := by
    refine Nat.le_antisymm (high_le_iff.mpr ⟨le_high e ys, fun x hx => lt_high (h.mem_iff.mp hx)⟩)
      (high_le_iff.mpr ⟨le_high e xs, fun y hy => lt_high (h.mem_iff.mpr hy)⟩)
  rw [missing, missing, hh, List.toFinset_eq_of_perm _ _ h]

/-- Two orders of one stream book the same gaps exactly when the last number and the steps
back add up to the same. -/
theorem gapSum_eq_iff_of_perm (e : ℕ) {xs ys : List ℕ} (h : xs.Perm ys) :
    gapSum e xs = gapSum e ys ↔ next e xs + rollback e xs = next e ys + rollback e ys := by
  have hl := h.length_eq
  rw [balance, balance]
  omega

theorem gapSum_le {e b : ℕ} {xs : List ℕ} (he : 1 ≤ e) (hb : ∀ x ∈ xs, x ≤ b) :
    gapSum e xs ≤ xs.length * (b - 1) := by
  induction xs generalizing e with
  | nil => simp [gapSum]
  | cons x xs ih =>
    have hx := hb x (by simp)
    have hh := ih (e := x + 1) (by omega) (fun y hy => hb y (by simp [hy]))
    simp only [gapSum, List.length_cons, Nat.add_mul, Nat.one_mul]
    omega

/-! ### Windows -/

theorem InOrder.append_left {e : ℕ} {xs ys : List ℕ} (h : InOrder e (xs ++ ys)) : InOrder e xs :=
  h.sublist (List.sublist_append_left xs ys)

theorem InOrder.append_right {e : ℕ} {xs ys : List ℕ} (h : InOrder e (xs ++ ys)) : InOrder e ys :=
  h.sublist (List.sublist_append_right xs ys)

theorem InOrder.lt_next {e : ℕ} {xs : List ℕ} (h : InOrder e xs) (hne : xs ≠ []) :
    e < next e xs := by
  have hl := List.length_pos_of_ne_nil hne
  have := h.next_eq
  omega

/-- Restarting at a later base does not change what a nonempty stream ends on. -/
theorem next_eq_of_ne_nil (d e : ℕ) {xs : List ℕ} (h : xs ≠ []) : next d xs = next e xs := by
  cases xs with
  | nil => exact absurd rfl h
  | cons x xs => rfl

/-- The distance from `e` to the end of the stream. -/
def span (e : ℕ) (xs : List ℕ) : ℕ := next e xs - e

theorem InOrder.span_eq {e : ℕ} {xs : List ℕ} (h : InOrder e xs) :
    span e xs = gapSum e xs + xs.length := by
  rw [span, h.next_eq]
  omega

theorem span_append_of_ne_nil (e : ℕ) (xs : List ℕ) {ys : List ℕ} (h : ys ≠ []) :
    span e (xs ++ ys) = span e ys := by
  rw [span, span, next_append, next_eq_of_ne_nil _ e h]

/-- Windows that each restart at `e` cover at least the distance of the whole stream. -/
theorem span_flatten_le (e : ℕ) {ws : List (List ℕ)} (h : InOrder e ws.flatten) :
    span e ws.flatten ≤ (ws.map (span e)).sum := by
  induction ws with
  | nil => simp [span, next]
  | cons w ws ih =>
    rw [List.flatten_cons] at h ⊢
    rw [List.map_cons, List.sum_cons]
    have hh := ih h.append_right
    by_cases hw : ws.flatten = []
    · rw [hw, List.append_nil]
      omega
    · rw [span_append_of_ne_nil e w hw]
      omega

theorem filter_ne_nil_eq_nil {ws : List (List ℕ)} :
    ws.filter (· ≠ []) = [] ↔ ws.flatten = [] := by
  simp [List.filter_eq_nil_iff, List.flatten_eq_nil_iff]

/-- They cover no more than the stream exactly when one window holds all of it. -/
theorem span_flatten_eq_iff (e : ℕ) {ws : List (List ℕ)} (h : InOrder e ws.flatten) :
    (ws.map (span e)).sum = span e ws.flatten ↔ (ws.filter (· ≠ [])).length ≤ 1 := by
  induction ws with
  | nil => simp [span, next]
  | cons w ws ih =>
    rw [List.flatten_cons] at h ⊢
    rw [List.map_cons, List.sum_cons]
    by_cases hnil : w = []
    · subst hnil
      have h0 : span e [] = 0 := Nat.sub_self e
      rw [h0, Nat.zero_add, List.nil_append, List.filter_cons_of_neg (by simp)]
      exact ih h
    · rw [List.filter_cons_of_pos (by simpa using hnil), List.length_cons]
      have hw := h.append_left.lt_next hnil
      have hle := span_flatten_le e h.append_right
      by_cases hrest : ws.flatten = []
      · rw [filter_ne_nil_eq_nil.mpr hrest, hrest, List.append_nil]
        have hz : (ws.map (span e)).sum = 0 := by
          rw [List.sum_eq_zero_iff_forall_eq_nat]
          intro n hn
          obtain ⟨v, hv, rfl⟩ := List.mem_map.mp hn
          rw [List.flatten_eq_nil_iff.mp hrest v hv]
          exact Nat.sub_self e
        simp [hz]
      · -- both this window and a later one hold numbers: the distance of this one is extra
        rw [span_append_of_ne_nil e w hrest]
        have hpos : 0 < span e w := Nat.sub_pos_of_lt hw
        have hcount := List.length_pos_of_ne_nil (mt filter_ne_nil_eq_nil.mp hrest)
        omega

theorem sum_span_eq {e : ℕ} {ws : List (List ℕ)} (h : InOrder e ws.flatten) :
    (ws.map (span e)).sum = (ws.map (gapSum e)).sum + ws.flatten.length := by
  induction ws with
  | nil => rfl
  | cons w ws ih =>
    rw [List.flatten_cons] at h
    simp only [List.map_cons, List.sum_cons, List.flatten_cons, List.length_append,
      h.append_left.span_eq, ih h.append_right]
    omega

/-- Counting each window from `e` books the gaps of the stream exactly when one window
holds all of it. -/
theorem sum_gapSum_eq_iff {e : ℕ} {ws : List (List ℕ)} (h : InOrder e ws.flatten) :
    (ws.map (gapSum e)).sum = gapSum e ws.flatten ↔ (ws.filter (· ≠ [])).length ≤ 1 := by
  rw [← span_flatten_eq_iff e h, sum_span_eq h, h.span_eq]
  omega

end DdsBenchmark.Gaps
