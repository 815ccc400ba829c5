import Mathlib.Algebra.Group.Fin.Basic
import Mathlib.Tactic.Abel

/-! A ring of the last `N` snapshots. The next cell to be written holds the oldest of them, the
one before it the latest. Filled with a blank value at first, the ring agrees with the whole
history of snapshots, read backwards and followed by blanks. -/

namespace DdsBenchmark.Snapshots

variable {α : Type*} {N : ℕ} [NeZero N]

structure Ring (N : ℕ) (α : Type*) where
  cells : Fin N → α
  idx : Fin N

namespace Ring

/-- Overwrite the oldest snapshot. -/
def push (r : Ring N α) (a : α) : Ring N α := ⟨Function.update r.cells r.idx a, r.idx + 1⟩

/-- The snapshot taken `i` snapshots before the latest. -/
def back (r : Ring N α) (i : Fin N) : α := r.cells (r.idx - 1 - i)

/-- The cell to be written next. -/
theorem cells_idx (r : Ring N α) : r.cells r.idx = r.back (-1) := by simp [back]

theorem back_push_zero (r : Ring N α) (a : α) : (r.push a).back 0 = a := by simp [push, back]

theorem back_push_succ (r : Ring N α) (a : α) {i : Fin N} (h : i + 1 ≠ 0) :
    (r.push a).back (i + 1) = r.back i := by
  have hidx : r.idx + 1 - 1 - (i + 1) = r.idx - 1 - i := by abel
  have hne : r.idx - 1 - i ≠ r.idx := by
    intro he
    apply h
    have hz : r.idx - 1 - i - r.idx = 0 := sub_eq_zero.mpr he
    rw [← neg_eq_zero, ← hz]
    abel
  show Function.update r.cells r.idx a (r.idx + 1 - 1 - (i + 1)) = r.cells (r.idx - 1 - i)
  rw [hidx, Function.update_of_ne hne]

end Ring

/-- A history, latest first, seen `i` entries back. -/
def ago (blank : α) (history : List α) (i : Fin N) : α := history.getD i blank

theorem ago_cons_zero (blank a : α) (history : List α) :
    ago (N := N) blank (a :: history) 0 = a := by simp [ago]

theorem ago_cons_succ (blank a : α) (history : List α) {i : Fin N} (h : i + 1 ≠ 0) :
    ago blank (a :: history) (i + 1) = ago blank history i := by
  have hval : (i + 1).val = i.val + 1 := Fin.val_add_one_of_lt' (by
    have hi := i.isLt
    by_contra hlast
    have hN : i.val + 1 = N := by omega
    apply h
    rw [Fin.ext_iff, Fin.val_add, Fin.val_one', Fin.val_zero, Nat.add_mod_mod, hN, Nat.mod_self])
  rw [ago, hval, List.getD_cons_succ]
  rfl

/-- Every place but the first is behind another. -/
theorem eq_zero_or_succ (i : Fin N) : i = 0 ∨ ∃ j, i = j + 1 ∧ j + 1 ≠ 0 := by
  rcases eq_or_ne i 0 with h | h
  · exact Or.inl h
  · exact Or.inr ⟨i - 1, (sub_add_cancel i 1).symm, by rwa [sub_add_cancel]⟩

end DdsBenchmark.Snapshots
