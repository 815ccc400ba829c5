import Mathlib.Data.List.Nodup
import DdsBenchmark.Stream.Gaps

/-! A source that numbers what it sends. Everything is numbered in a row from `e`; a channel
hands on part of it, and an operation that fails takes a number all the same. What is handed on
is in order, and it is itself numbered in a row exactly when nothing succeeds after a failure. -/

namespace DdsBenchmark.Sequencing

open Gaps

theorem inOrder_range' (e n : ℕ) : InOrder e (List.range' e n) :=
  ⟨fun _ hx => (List.mem_range'_1.mp hx).1, List.pairwise_lt_range'⟩

/-- Nothing is missing from numbers in a row. -/
theorem gapSum_range' (e n : ℕ) : gapSum e (List.range' e n) = 0 := by
  induction n generalizing e with
  | zero => rfl
  | succ n ih => rw [List.range'_succ, gapSum, ih, Nat.sub_self]

/-- What was numbered below the last arrival and did not arrive is what is missing. -/
theorem length_filter_eq_card_missing {e n last : ℕ} {xs : List ℕ}
    (h : (xs ++ [last]).Sublist (List.range' e n)) :
    ((List.range' e n).filter fun k => k < last ∧ k ∉ xs ++ [last]).length =
      (missing e (xs ++ [last])).card := by
  have hin := (inOrder_range' e n).sublist h
  have hlast := (List.mem_range'_1.mp (h.subset (by simp : last ∈ xs ++ [last]))).2
  rw [← List.toFinset_card_of_nodup (List.Nodup.filter _ (inOrder_range' e n).nodup)]
  congr 1
  ext k
  rw [List.mem_toFinset, List.mem_filter, List.mem_range'_1, missing,
    hin.high_append_singleton, Finset.mem_sdiff,
    Finset.mem_Ico, List.mem_toFinset, decide_eq_true_iff]
  constructor
  · rintro ⟨⟨h₁, h₂⟩, h₃, h₄⟩
    exact ⟨⟨h₁, by omega⟩, h₄⟩
  · rintro ⟨⟨h₁, h₂⟩, h₃⟩
    have hne : k ≠ last := by
      rintro rfl
      exact h₃ (by simp)
    exact ⟨⟨h₁, by omega⟩, by omega, h₃⟩

/-! ### Operations that fail -/

/-- The numbers, from `e` on, of the operations that succeed. -/
def picked (e : ℕ) : List Bool → List ℕ
  | [] => []
  | true :: oks => e :: picked (e + 1) oks
  | false :: oks => picked (e + 1) oks

theorem length_picked (e : ℕ) (oks : List Bool) : (picked e oks).length = oks.count true := by
  induction oks generalizing e with
  | nil => rfl
  | cons ok oks ih => cases ok <;> simp [picked, ih]

theorem le_of_mem_picked {e x : ℕ} {oks : List Bool} (h : x ∈ picked e oks) : e ≤ x := by
  induction oks generalizing e with
  | nil => simp [picked] at h
  | cons ok oks ih =>
    cases ok with
    | true =>
      rcases List.mem_cons.mp h with rfl | h
      · exact le_rfl
      · exact (Nat.le_succ e).trans (ih h)
    | false => exact (Nat.le_succ e).trans (ih h)

/-- The operations that succeed are numbered in a row exactly when none follows a failure. -/
theorem picked_eq_range'_iff (e : ℕ) (oks : List Bool) :
    picked e oks = List.range' e (oks.count true) ↔
      oks.Pairwise fun ok ok' => ok' = true → ok = true := by
  induction oks generalizing e with
  | nil => simp [picked]
  | cons ok oks ih =>
    cases ok with
    | true => simp [picked, List.range'_succ, ih]
    | false =>
      rw [picked, List.count_cons_of_ne (by decide), List.pairwise_cons]
      by_cases hmem : true ∈ oks
      · refine iff_of_false (fun heq => ?_) fun hp => absurd (hp.1 true hmem rfl) (by decide)
        -- the first number is taken by the failure, so it is not picked
        have hhead : e ∈ picked (e + 1) oks := by
          have hpos := List.count_pos_iff.mpr hmem
          rw [heq]
          exact List.mem_range'_1.mpr ⟨le_rfl, Nat.lt_add_of_pos_right hpos⟩
        exact absurd (le_of_mem_picked hhead) (Nat.not_succ_le_self e)
      · have hcount := List.count_eq_zero.mpr hmem
        have hnil : picked (e + 1) oks = [] := by
          rw [← List.length_eq_zero_iff, length_picked, hcount]
        refine iff_of_true (by rw [hnil, hcount]; rfl) ⟨fun ok hok ht => ?_, ?_⟩
        · exact absurd (ht ▸ hok) hmem
        · exact List.pairwise_of_forall_mem_list fun a _ b hb ht => absurd (ht ▸ hb) hmem

/-- The numbers of those that succeed, read off the operations themselves. -/
theorem map_filter_eq_picked {α : Type*} (number : α → ℕ) (ok : α → Bool) {e : ℕ} {ops : List α}
    (h : ops.map number = List.range' e ops.length) :
    (ops.filter ok).map number = picked e (ops.map ok) := by
  induction ops generalizing e with
  | nil => rfl
  | cons op ops ih =>
    rw [List.map_cons, List.length_cons, List.range'_succ] at h
    obtain ⟨hop, hops⟩ := List.cons.inj h
    rw [List.map_cons, List.filter_cons]
    cases hok : ok op with
    | true => simp [picked, hop, ih hops]
    | false => simp [picked, ih hops]

end DdsBenchmark.Sequencing
