import Mathlib.Algebra.Order.Field.Basic
import Mathlib.Algebra.Order.Monoid.NatCast
import Mathlib.Data.List.Basic
import Mathlib.Data.Nat.Cast.Order.Ring

/-! Events that keep a distance. When each event comes at least `d` after all before it, a row
of `k + 1` events spans at least `k • d`, and a window holds at most one event more than it has
room for distances. -/

namespace DdsBenchmark.Pacing

variable {α : Type*}

/-- Every entry exceeds the entries before it by `d` or more. -/
def Spaced [Add α] [LE α] (d : α) (xs : List α) : Prop := xs.Pairwise fun x y => x + d ≤ y

/-- The distance does not depend on the numbers it is measured in. -/
theorem Spaced.natCast [Semiring α] [PartialOrder α] [IsOrderedRing α] {d : ℕ} {xs : List ℕ}
    (h : Spaced d xs) : Spaced (d : α) (xs.map Nat.cast) :=
  List.pairwise_map.mpr (h.imp fun {x y} hxy => by
    have hc : ((x + d : ℕ) : α) ≤ y := Nat.mono_cast hxy
    rwa [Nat.cast_add] at hc)

theorem Spaced.sublist [Add α] [LE α] {d : α} {xs ys : List α} (h : Spaced d ys)
    (hs : xs.Sublist ys) : Spaced d xs :=
  List.Pairwise.sublist hs h

section Monoid
variable [AddCommMonoid α] [PartialOrder α] [IsOrderedAddMonoid α] {d : α} {xs : List α}

theorem Spaced.mono {d' : α} (h : Spaced d xs) (hd : d' ≤ d) : Spaced d' xs :=
  h.imp fun {x _} hxy => (add_le_add_right hd x).trans hxy

/-- A row of `k + 1` entries spans `k` distances. -/
theorem Spaced.spread (h : Spaced d xs) {i k : ℕ} {first last : α} (hi : xs[i]? = some first)
    (hk : xs[i + k]? = some last) : first + k • d ≤ last := by
  induction k generalizing last with
  | zero =>
    rw [Nat.add_zero, hi] at hk
    rw [zero_nsmul, add_zero, Option.some.inj hk]
  | succ k ih =>
    obtain ⟨hlt, rfl⟩ := List.getElem?_eq_some_iff.mp hk
    have hmid : xs[i + k]? = some xs[i + k] := List.getElem?_eq_getElem (by omega)
    calc first + (k + 1) • d = first + k • d + d := by rw [succ_nsmul, add_assoc]
      _ ≤ xs[i + k] + d := add_le_add_left (ih hmid) d
      _ ≤ xs[i + (k + 1)] :=
        List.pairwise_iff_getElem.mp h (i + k) (i + (k + 1)) (by omega) hlt (by omega)

end Monoid

section Field
variable [Field α] [LinearOrder α] [IsStrictOrderedRing α] {d a b : α} {xs : List α}

/-- A window holds at most one entry more than it has room for distances. -/
theorem Spaced.length_filter_le (h : Spaced d xs) (hd : 0 < d) (hab : a ≤ b) :
    ((xs.filter fun x => a ≤ x ∧ x ≤ b).length : α) ≤ 1 + (b - a) / d := by
  have hs : Spaced d (xs.filter fun x => a ≤ x ∧ x ≤ b) := h.sublist List.filter_sublist
  have hmem : ∀ x ∈ xs.filter (fun x => a ≤ x ∧ x ≤ b), a ≤ x ∧ x ≤ b := by
    intro x hx
    simpa using (List.mem_filter.mp hx).2
  generalize xs.filter (fun x => a ≤ x ∧ x ≤ b) = ys at hs hmem
  cases hlen : ys.length with
  | zero =>
    rw [Nat.cast_zero]
    exact add_nonneg zero_le_one (div_nonneg (sub_nonneg.mpr hab) hd.le)
  | succ k =>
    have hfirst : ys[0]? = some ys[0] := List.getElem?_eq_getElem (by omega)
    have hlast : ys[0 + k]? = some ys[0 + k] := List.getElem?_eq_getElem (by omega)
    have hspread := hs.spread hfirst hlast
    have h₁ := (hmem _ (List.mem_of_getElem? hfirst)).1
    have h₂ := (hmem _ (List.mem_of_getElem? hlast)).2
    rw [Nat.cast_succ, add_comm, add_le_add_iff_left, le_div_iff₀ hd, le_sub_iff_add_le',
      ← nsmul_eq_mul]
    exact (add_le_add_left h₁ _).trans (hspread.trans h₂)

end Field

end DdsBenchmark.Pacing
