import Mathlib.Algebra.Order.Group.Basic
import Mathlib.Algebra.BigOperators.Group.List.Basic
import Mathlib.Data.List.ReduceOption
import Mathlib.Tactic.Abel
import Mathlib.Tactic.GCongr

/-! Growth of a counter that is seen only now and then. Between two observations in a row the
counter grows by their difference; an observation that follows a gap counts for nothing. When
the values seen never decrease, the growth counted is at most the last value less the first. -/

namespace DdsBenchmark.Growth

variable {α : Type*}

/-- The last value seen, `a` when there is none. -/
def lastSeen (a : α) (os : List (Option α)) : α := os.reduceOption.getLastD a

theorem lastSeen_some (a b : α) (os : List (Option α)) :
    lastSeen a (some b :: os) = lastSeen b os := by
  rw [lastSeen, lastSeen, List.reduceOption_cons_of_some, List.getLastD_cons]

section Group
variable [AddCommGroup α]

/-- The growth from one observation to the next. -/
def increment : Option α → Option α → α
  | some a, some b => b - a
  | _, _ => 0

/-- The growth between observations in a row, `prev` being the one before the list. -/
def growth (prev : Option α) : List (Option α) → α
  | [] => 0
  | o :: os => increment prev o + growth o os

end Group

section Order
variable [AddCommGroup α] [PartialOrder α] [IsOrderedAddMonoid α]

/-- Above `a` the growth is counted at most once, whether `a` itself was seen or not. -/
theorem growth_le {a : α} {os : List (Option α)} (h : (a :: os.reduceOption).Pairwise (· ≤ ·)) :
    growth (some a) os ≤ lastSeen a os - a ∧ growth none os ≤ lastSeen a os - a := by
  induction os generalizing a with
  | nil => simp [growth, lastSeen]
  | cons o os ih =>
    cases o with
    | none =>
      have hh := (ih h).2
      simp only [growth, increment, zero_add]
      exact ⟨hh, hh⟩
    | some b =>
      rw [List.reduceOption_cons_of_some, List.pairwise_cons] at h
      have hab : a ≤ b := h.1 b (by simp)
      have hb := (ih h.2).1
      simp only [growth, increment, zero_add, lastSeen_some]
      constructor
      · calc (b - a) + growth (some b) os ≤ (b - a) + (lastSeen b os - b) := by gcongr
          _ = lastSeen b os - a := by abel
      · exact hb.trans (sub_le_sub_left hab _)

/-- The growth counted is at most the last value seen less the first. -/
theorem growth_none_le {os : List (Option α)} (h : os.reduceOption.Pairwise (· ≤ ·)) {first : α}
    (hf : os.reduceOption.head? = some first) : growth none os ≤ lastSeen first os - first := by
  refine (growth_le ?_).2
  obtain ⟨rest, hr⟩ := List.head?_eq_some_iff.mp hf
  rw [hr] at h ⊢
  rw [List.pairwise_cons] at h
  refine List.pairwise_cons.mpr ⟨fun b hb => ?_, List.pairwise_cons.mpr h⟩
  rcases List.mem_cons.mp hb with rfl | hb
  · exact le_rfl
  · exact h.1 b hb

end Order

end DdsBenchmark.Growth
