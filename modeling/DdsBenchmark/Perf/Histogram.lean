import DdsBenchmark.Stream.OrderStats
import Mathlib.Algebra.BigOperators.Fin
import Mathlib.Algebra.BigOperators.Group.Finset.Piecewise
import Mathlib.Tactic.Ring

/-! The histogram of write times of the performance tool: equal bins from `bin0` on, what lies
below and above them counted apart. A histogram is built with its upper bound, so that a value
between the bounds always has a bin. -/

namespace DdsBenchmark.Perf

/-- The bins `[bin0, bin0 + binwidth)` and so on up to `binN`. -/
structure Bins (nbins : ℕ) where
  binwidth : UInt64
  bin0 : UInt64
  binN : UInt64
  bounds : binN.toNat = bin0.toNat + nbins * binwidth.toNat

structure Hist (nbins : ℕ) extends Bins nbins where
  min : UInt64
  max : UInt64
  cntUnder : UInt64
  cntOver : UInt64
  bins : Fin nbins → UInt64

variable {nbins : ℕ}

/-- A value between the bounds has a bin. -/
theorem Bins.lt (b : Bins nbins) {x : UInt64} (h0 : ¬ x < b.bin0) (hN : ¬ x ≥ b.binN) :
    ((x - b.bin0) / b.binwidth).toNat < nbins := by
  have hle : b.bin0 ≤ x := UInt64.not_lt.mp h0
  have hle' := UInt64.le_iff_toNat_le.mp hle
  have hlt : x.toNat < b.binN.toNat := UInt64.lt_iff_toNat_lt.mp (UInt64.not_le.mp hN)
  rw [b.bounds] at hlt
  rw [UInt64.toNat_div, UInt64.toNat_sub_of_le _ _ hle, Nat.div_lt_iff_lt_mul]
  · omega
  · by_contra hz
    rw [Nat.eq_zero_of_not_pos hz, Nat.mul_zero] at hlt
    omega

/-- The values that fall into bin `i`. -/
def Bins.InBin (b : Bins nbins) (i : Fin nbins) (x : UInt64) : Prop :=
  b.bin0.toNat + i * b.binwidth.toNat ≤ x.toNat ∧
    x.toNat < b.bin0.toNat + (i + 1) * b.binwidth.toNat

instance (b : Bins nbins) (i : Fin nbins) (x : UInt64) : Decidable (b.InBin i x) :=
  instDecidableAnd

theorem Bins.inBin_iff {b : Bins nbins} {x : UInt64} (h0 : ¬ x < b.bin0) (hN : ¬ x ≥ b.binN)
    {i : Fin nbins} : b.InBin i x ↔ ((x - b.bin0) / b.binwidth).toNat = i := by
  have hle : b.bin0 ≤ x := UInt64.not_lt.mp h0
  have hle' := UInt64.le_iff_toNat_le.mp hle
  have hw : 0 < b.binwidth.toNat := by
    have hlt : x.toNat < b.binN.toNat := UInt64.lt_iff_toNat_lt.mp (UInt64.not_le.mp hN)
    by_contra hz
    rw [b.bounds, Nat.eq_zero_of_not_pos hz, Nat.mul_zero] at hlt
    omega
  rw [UInt64.toNat_div, UInt64.toNat_sub_of_le _ _ hle, Nat.div_eq_iff hw, InBin, Nat.succ_mul]
  omega

/-- What lies below the bins or above them is in none. -/
theorem Bins.InBin.between {b : Bins nbins} {i : Fin nbins} {x : UInt64} (hx : b.InBin i x) :
    ¬ x < b.bin0 ∧ ¬ x ≥ b.binN := by
  have hi : (i + 1) * b.binwidth.toNat ≤ nbins * b.binwidth.toNat :=
    Nat.mul_le_mul_right _ i.isLt
  obtain ⟨h1, h2⟩ := hx
  rw [UInt64.lt_iff_toNat_lt, ge_iff_le, UInt64.le_iff_toNat_le, b.bounds]
  omega

/-- How many of the values lie below the bins. -/
def Bins.below (b : Bins nbins) (xs : List UInt64) : ℕ := xs.countP (· < b.bin0)

/-- How many of the values lie above the bins. -/
def Bins.above (b : Bins nbins) (xs : List UInt64) : ℕ :=
  xs.countP fun x => ¬ x < b.bin0 ∧ x ≥ b.binN

/-- How many of the values fall into bin `i`. -/
def Bins.count (b : Bins nbins) (xs : List UInt64) (i : Fin nbins) : ℕ := xs.countP (b.InBin i ·)

theorem Bins.below_le (b : Bins nbins) (xs : List UInt64) : b.below xs ≤ xs.length :=
  List.countP_le_length

theorem Bins.above_le (b : Bins nbins) (xs : List UInt64) : b.above xs ≤ xs.length :=
  List.countP_le_length

theorem Bins.count_le (b : Bins nbins) (xs : List UInt64) (i : Fin nbins) :
    b.count xs i ≤ xs.length :=
  List.countP_le_length

/-- Every value is counted once. -/
theorem Bins.sum_count (b : Bins nbins) (xs : List UInt64) :
    b.below xs + b.above xs + ∑ i, b.count xs i = xs.length := by
  unfold below above count
  induction xs with
  | nil => simp
  | cons x xs ih =>
    have hone : (if x < b.bin0 then 1 else 0) + (if ¬ x < b.bin0 ∧ x ≥ b.binN then 1 else 0) +
        ∑ i, (if b.InBin i x then 1 else 0) = 1 := by
      by_cases h0 : x < b.bin0
      · have hnone : ∀ i, ¬ b.InBin i x := fun i hx => hx.between.1 h0
        simp [h0, hnone]
      · by_cases hN : x ≥ b.binN
        · have hnone : ∀ i, ¬ b.InBin i x := fun i hx => hx.between.2 hN
          simp [h0, hN, hnone]
        · have hbin : ∀ i : Fin nbins, b.InBin i x ↔ ⟨_, b.lt h0 hN⟩ = i := fun i => by
            rw [inBin_iff h0 hN, Fin.ext_iff]
          simp [h0, hN, hbin]
    simp only [List.countP_cons, decide_eq_true_eq, Finset.sum_add_distrib, List.length_cons]
    omega

namespace Hist

/-- `hist_reset`, with `hist_reset_minmax`. -/
def reset (h : Hist nbins) : Hist nbins :=
  { h with min := -1, max := 0, cntUnder := 0, cntOver := 0, bins := fun _ => 0 }

/-- `hist_new`, for bins that do not run past the largest value. -/
def new (nbins : ℕ) (binwidth bin0 : UInt64)
    (h : (bin0 + UInt64.ofNat nbins * binwidth).toNat =
      bin0.toNat + nbins * binwidth.toNat) : Hist nbins :=
  reset ⟨⟨binwidth, bin0, bin0 + UInt64.ofNat nbins * binwidth, h⟩, 0, 0, 0, 0, fun _ => 0⟩

def record (h : Hist nbins) (x weight : UInt64) : Hist nbins :=
  let min := if x < h.min then x else h.min
  let max := if x > h.max then x else h.max
  if h0 : x < h.bin0 then
    { h with min, max, cntUnder := h.cntUnder + weight }
  else if hN : x ≥ h.binN then
    { h with min, max, cntOver := h.cntOver + weight }
  else
    let i : Fin nbins := ⟨((x - h.bin0) / h.binwidth).toNat, h.lt h0 hN⟩
    { h with min, max, bins := Function.update h.bins i (h.bins i + weight) }

@[simp] theorem toBins_record (h : Hist nbins) (x w : UInt64) :
    (h.record x w).toBins = h.toBins := by
  unfold record
  dsimp only
  split_ifs <;> rfl

theorem record_min (h : Hist nbins) (x w : UInt64) :
    (h.record x w).min = if x < h.min then x else h.min := by
  unfold record
  dsimp only
  split_ifs <;> rfl

theorem record_max (h : Hist nbins) (x w : UInt64) :
    (h.record x w).max = if x > h.max then x else h.max := by
  unfold record
  dsimp only
  split_ifs <;> rfl

/-- One more in the bin of the value, and the other bins as they were. -/
theorem record_bins (h : Hist nbins) (x w : UInt64) (i : Fin nbins) :
    (h.record x w).bins i = h.bins i + if h.InBin i x then w else 0 := by
  unfold record
  dsimp only
  by_cases h0 : x < h.bin0
  · rw [dif_pos h0, if_neg fun hx : h.InBin i x => hx.between.1 h0]
    simp
  · by_cases hN : x ≥ h.binN
    · rw [dif_neg h0, dif_pos hN, if_neg fun hx : h.InBin i x => hx.between.2 hN]
      simp
    · rw [dif_neg h0, dif_neg hN]
      dsimp only
      by_cases hi : h.InBin i x
      · have he : (⟨((x - h.bin0) / h.binwidth).toNat, h.lt h0 hN⟩ : Fin nbins) = i :=
          Fin.ext ((Bins.inBin_iff h0 hN).mp hi)
        rw [he, Function.update_self, if_pos hi]
      · rw [Function.update_of_ne, if_neg hi, UInt64.add_zero]
        rintro rfl
        exact hi ((Bins.inBin_iff h0 hN).mpr rfl)

theorem record_under (h : Hist nbins) (x w : UInt64) :
    (h.record x w).cntUnder = h.cntUnder + if x < h.bin0 then w else 0 := by
  unfold record
  dsimp only
  split_ifs <;> simp

theorem record_over (h : Hist nbins) (x w : UInt64) :
    (h.record x w).cntOver = h.cntOver + if ¬ x < h.bin0 ∧ x ≥ h.binN then w else 0 := by
  unfold record
  dsimp only
  split_ifs <;> simp_all

/-! ### Counting values -/

/-- The histogram of the values `xs` recorded since the last reset. -/
structure Holds (h : Hist nbins) (xs : List UInt64) : Prop where
  min : h.min.toNat = (xs.map UInt64.toNat).foldl Min.min (2 ^ 64 - 1)
  max : h.max.toNat = (xs.map UInt64.toNat).foldl Max.max 0
  cntUnder : h.cntUnder = UInt64.ofNat (h.below xs)
  cntOver : h.cntOver = UInt64.ofNat (h.above xs)
  bins : ∀ i, h.bins i = UInt64.ofNat (h.count xs i)

theorem holds_reset (h : Hist nbins) : Holds h.reset [] := ⟨rfl, rfl, rfl, rfl, fun _ => rfl⟩

theorem ofNat_countP_append (p : UInt64 → Bool) (xs : List UInt64) (x : UInt64) :
    UInt64.ofNat ((xs ++ [x]).countP p) = UInt64.ofNat (xs.countP p) + if p x then 1 else 0 := by
  rw [List.countP_append, List.countP_singleton, UInt64.ofNat_add]
  split_ifs <;> rfl

theorem toNat_ite_lt (a b : UInt64) : (if a < b then a else b).toNat = Min.min b.toNat a.toNat := by
  by_cases h : a < b
  · rw [if_pos h, min_eq_right (UInt64.lt_iff_toNat_lt.mp h).le]
  · rw [if_neg h, min_eq_left (UInt64.le_iff_toNat_le.mp (UInt64.not_lt.mp h))]

theorem toNat_ite_gt (a b : UInt64) : (if a > b then a else b).toNat = Max.max b.toNat a.toNat := by
  by_cases h : a > b
  · rw [if_pos h, max_eq_right (UInt64.lt_iff_toNat_lt.mp h).le]
  · rw [if_neg h, max_eq_left (UInt64.le_iff_toNat_le.mp (UInt64.not_lt.mp h))]

theorem Holds.record {h : Hist nbins} {xs : List UInt64} (hh : Holds h xs) (x : UInt64) :
    Holds (h.record x 1) (xs ++ [x]) where
  min := by
    rw [record_min, List.map_append, List.foldl_append, ← hh.min]
    exact toNat_ite_lt x h.min
  max := by
    rw [record_max, List.map_append, List.foldl_append, ← hh.max]
    exact toNat_ite_gt x h.max
  cntUnder := by
    rw [record_under, hh.cntUnder, Bins.below, Bins.below, ofNat_countP_append, toBins_record]
    simp
  cntOver := by
    rw [record_over, hh.cntOver, Bins.above, Bins.above, ofNat_countP_append, toBins_record]
    simp
  bins i := by
    rw [record_bins, hh.bins, Bins.count, Bins.count, ofNat_countP_append, toBins_record]
    simp

/-! ### The printed line -/

/-- The bar of a bin beside the largest one. -/
def bar (peak bin : UInt64) : Char :=
  if bin = 0 then ' '
  else if bin ≤ peak / 100 then '.'
  else if bin ≤ peak / 10 then '_'
  else if bin ≤ 1 * peak / 5 then '-'
  else if bin ≤ 2 * peak / 5 then '='
  else if bin ≤ 3 * peak / 5 then 'x'
  else if bin ≤ 4 * peak / 5 then 'X'
  else '@'

/-- The figures of one line. Values and shares are not yet rendered as text. -/
structure Line (nbins : ℕ) where
  cnt : UInt64
  min : UInt64
  underPct : Option ℕ
  bars : Fin nbins → Char
  overPct : ℕ
  max : UInt64

/-- The printed share of the values that lie outside on one side. -/
def pct (outside cnt : UInt64) : ℕ := if cnt = 0 then 0 else 100 * ((outside + cnt / 2) / cnt).toNat

/-- `hist_print` without the division by the time, which needs `cnt` alone. -/
def print (h : Hist nbins) : Line nbins :=
  let cnt := (List.ofFn h.bins).foldl (· + ·) (h.cntUnder + h.cntOver)
  let peak := (List.ofFn h.bins).foldl (fun peak b => if b > peak then b else peak) 0
  { cnt
    min := h.min
    underPct := if h.bin0 > 0 then some (pct h.cntUnder cnt) else none
    bars := fun i => bar peak (h.bins i)
    overPct := pct h.cntOver cnt
    max := h.max }

theorem foldl_add_ofNat (cells : List ℕ) (a : ℕ) :
    (cells.map UInt64.ofNat).foldl (· + ·) (UInt64.ofNat a) = UInt64.ofNat (a + cells.sum) := by
  induction cells generalizing a with
  | nil => rfl
  | cons c cells ih =>
    rw [List.map_cons, List.foldl_cons, ← UInt64.ofNat_add, ih, List.sum_cons, Nat.add_assoc]

theorem foldl_max_ofNat {cells : List ℕ} {a : ℕ} (ha : a < 2 ^ 64) (hc : ∀ c ∈ cells, c < 2 ^ 64) :
    (cells.map UInt64.ofNat).foldl (fun peak b => if b > peak then b else peak) (UInt64.ofNat a) =
      UInt64.ofNat (cells.foldl Max.max a) := by
  induction cells generalizing a with
  | nil => rfl
  | cons c cells ih =>
    obtain ⟨hlt, hcells⟩ := List.forall_mem_cons.mp hc
    have hnext : (if UInt64.ofNat c > UInt64.ofNat a then UInt64.ofNat c else UInt64.ofNat a) =
        UInt64.ofNat (Max.max a c) := by
      rw [← UInt64.toNat_inj, toNat_ite_gt, UInt64.toNat_ofNat_of_lt' ha,
        UInt64.toNat_ofNat_of_lt' hlt, UInt64.toNat_ofNat_of_lt' (max_lt ha hlt)]
    rw [List.map_cons, List.foldl_cons, List.foldl_cons, hnext, ih (max_lt ha hlt) hcells]

/-- The share is rounded before it is scaled, so that only 0 and 100 are ever printed. -/
theorem pct_eq {outside cnt : ℕ} (hle : outside ≤ cnt) (hlt : cnt < 2 ^ 63) :
    pct (UInt64.ofNat outside) (UInt64.ofNat cnt) =
      if 0 < cnt ∧ cnt ≤ 2 * outside then 100 else 0 := by
  have hcnt : (UInt64.ofNat cnt).toNat = cnt :=
    UInt64.toNat_ofNat_of_lt' (show cnt < 2 ^ 64 by omega)
  have hout : (UInt64.ofNat outside).toNat = outside :=
    UInt64.toNat_ofNat_of_lt' (show outside < 2 ^ 64 by omega)
  have hzero : UInt64.ofNat cnt = 0 ↔ cnt = 0 := by
    rw [← UInt64.toNat_inj, hcnt, UInt64.toNat_zero]
  simp only [pct, hzero]
  rcases Nat.eq_zero_or_pos cnt with rfl | hpos
  · simp
  · have hsum : (UInt64.ofNat outside + UInt64.ofNat cnt / 2).toNat = outside + cnt / 2 := by
      rw [UInt64.toNat_add, UInt64.toNat_div, hcnt, hout]
      exact Nat.mod_eq_of_lt (by show outside + cnt / 2 < 2 ^ 64; omega)
    rw [if_neg (by omega), UInt64.toNat_div, hsum, hcnt]
    by_cases hhalf : cnt ≤ 2 * outside
    · rw [if_pos ⟨hpos, hhalf⟩, Nat.div_eq_of_lt_le (k := 1) (by omega) (by omega)]
    · rw [if_neg (by omega), Nat.div_eq_of_lt (by omega)]

/-- The bar of a bin with `c` of the values, when the fullest bin has `peak`. -/
def barOf (peak c : ℕ) : Char :=
  if c = 0 then ' '
  else if 100 * c ≤ peak then '.'
  else if 10 * c ≤ peak then '_'
  else if 5 * c ≤ peak then '-'
  else if 5 * c ≤ 2 * peak then '='
  else if 5 * c ≤ 3 * peak then 'x'
  else if 5 * c ≤ 4 * peak then 'X'
  else '@'

theorem bar_ofNat {peak c : ℕ} (hc : c < 2 ^ 61) (hpeak : peak < 2 ^ 61) :
    bar (UInt64.ofNat peak) (UInt64.ofNat c) = barOf peak c := by
  have hword : ∀ {n : ℕ}, n < 2 ^ 61 → (UInt64.ofNat n).toNat = n := fun hn =>
    UInt64.toNat_ofNat_of_lt' (by show _ < 2 ^ 64; omega)
  have hzero : UInt64.ofNat c = 0 ↔ c = 0 := by
    rw [← UInt64.toNat_inj, hword hc, UInt64.toNat_zero]
  have hmul : ∀ k : ℕ, k ≤ 4 → (UInt64.ofNat k * UInt64.ofNat peak).toNat = k * peak := by
    intro k hk
    have hlt : k * peak < 2 ^ 64 := by
      calc k * peak ≤ 4 * peak := Nat.mul_le_mul_right _ hk
        _ < 2 ^ 64 := by omega
    rw [UInt64.toNat_mul, hword (by omega), hword hpeak, Nat.mod_eq_of_lt hlt]
  have h1 := hmul 1 (by omega)
  have h2 := hmul 2 (by omega)
  have h3 := hmul 3 (by omega)
  have h4 := hmul 4 (by omega)
  have hdiv : ∀ (a : UInt64) (d : ℕ), 0 < d → d < 2 ^ 61 →
      (UInt64.ofNat c ≤ a / UInt64.ofNat d ↔ d * c ≤ a.toNat) := by
    intro a d hd hlt
    rw [UInt64.le_iff_toNat_le, UInt64.toNat_div, hword hc, hword hlt, Nat.le_div_iff_mul_le hd,
      Nat.mul_comm]
  have e100 := hdiv (UInt64.ofNat peak) 100 (by omega) (by omega)
  have e10 := hdiv (UInt64.ofNat peak) 10 (by omega) (by omega)
  have e1 := hdiv (1 * UInt64.ofNat peak) 5 (by omega) (by omega)
  have e2 := hdiv (2 * UInt64.ofNat peak) 5 (by omega) (by omega)
  have e3 := hdiv (3 * UInt64.ofNat peak) 5 (by omega) (by omega)
  have e4 := hdiv (4 * UInt64.ofNat peak) 5 (by omega) (by omega)
  rw [hword hpeak] at e100 e10
  rw [show (1 * UInt64.ofNat peak).toNat = 1 * peak from h1, Nat.one_mul] at e1
  rw [show (2 * UInt64.ofNat peak).toNat = 2 * peak from h2] at e2
  rw [show (3 * UInt64.ofNat peak).toNat = 3 * peak from h3] at e3
  rw [show (4 * UInt64.ofNat peak).toNat = 4 * peak from h4] at e4
  unfold bar barOf
  simp only [hzero]
  simp only [show (UInt64.ofNat 100) = 100 from rfl, show (UInt64.ofNat 10) = 10 from rfl,
    show (UInt64.ofNat 5) = 5 from rfl] at e100 e10 e1 e2 e3 e4
  simp only [e100, e10, e1, e2, e3, e4]

/-- The line is about the values `xs`. -/
structure Describes (b : Bins nbins) (l : Line nbins) (xs : List UInt64) : Prop where
  cnt : l.cnt.toNat = xs.length
  min : xs ≠ [] → IsLeast {n | n ∈ xs.map UInt64.toNat} l.min.toNat
  max : xs ≠ [] → IsGreatest {n | n ∈ xs.map UInt64.toNat} l.max.toNat
  bars : ∀ i, l.bars i = barOf ((List.ofFn (b.count xs)).foldl Max.max 0) (b.count xs i)
  underPct : l.underPct = if b.bin0 > 0 then
    some (if 0 < xs.length ∧ xs.length ≤ 2 * b.below xs then 100 else 0) else none
  overPct : l.overPct = if 0 < xs.length ∧ xs.length ≤ 2 * b.above xs then 100 else 0

theorem Holds.print {h : Hist nbins} {xs : List UInt64} (hh : Holds h xs)
    (hlen : xs.length < 2 ^ 61) : Describes h.toBins h.print xs := by
  have hbins : List.ofFn h.bins = (List.ofFn (h.count xs)).map UInt64.ofNat := by
    rw [List.map_ofFn]
    exact congrArg List.ofFn (funext hh.bins)
  have hcnt : h.print.cnt = UInt64.ofNat xs.length := by
    show (List.ofFn h.bins).foldl (· + ·) (h.cntUnder + h.cntOver) = _
    rw [hbins, hh.cntUnder, hh.cntOver, ← UInt64.ofNat_add, foldl_add_ofNat, List.sum_ofFn,
      h.sum_count]
  have hpeak : (List.ofFn (h.count xs)).foldl Max.max 0 ≤ xs.length := by
    refine OrderStats.foldl_max_le (Nat.zero_le _) fun c hc => ?_
    obtain ⟨i, rfl⟩ := List.mem_ofFn.mp hc
    exact h.count_le xs i
  constructor
  · rw [hcnt]
    exact UInt64.toNat_ofNat_of_lt' (show xs.length < 2 ^ 64 by omega)
  · intro hne
    show IsLeast _ h.min.toNat
    rw [hh.min]
    refine OrderStats.isLeast_foldl_min (by simpa using hne) fun n hn => ?_
    obtain ⟨x, -, rfl⟩ := List.mem_map.mp hn
    exact Nat.le_pred_of_lt x.toNat_lt
  · intro hne
    show IsGreatest _ h.max.toNat
    rw [hh.max]
    exact OrderStats.isGreatest_foldl_max (by simpa using hne) fun n _ => Nat.zero_le n
  · intro i
    show bar ((List.ofFn h.bins).foldl _ 0) (h.bins i) = _
    rw [hbins, show (0 : UInt64) = UInt64.ofNat 0 from rfl,
      foldl_max_ofNat (by norm_num) fun c hc => ?_, hh.bins,
      bar_ofNat (by have := h.count_le xs i; omega) (by omega)]
    obtain ⟨j, rfl⟩ := List.mem_ofFn.mp hc
    have := h.count_le xs j
    omega
  · show (if h.bin0 > 0 then some (pct h.cntUnder h.print.cnt) else none) = _
    rw [hcnt, hh.cntUnder, pct_eq (h.below_le xs) (by omega)]
  · show pct h.cntOver h.print.cnt = _
    rw [hcnt, hh.cntOver, pct_eq (h.above_le xs) (by omega)]

end Hist

end DdsBenchmark.Perf
