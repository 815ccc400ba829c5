import Mathlib.Algebra.Order.BigOperators.Group.List
import Mathlib.Algebra.Order.Field.Rat
import Mathlib.Data.List.TakeWhile
import Mathlib.Tactic.Linarith
import Mathlib.Tactic.Positivity
import DdsBenchmark.Netload.Latency
import DdsBenchmark.Stream.OrderStats

/-! The figures of a latency report as order statistics. The percentile `p` of `n` samples is
read one place beyond `p * n / 100` rounded down, which is its nearest rank except at the
multiples of a hundred: there it is the next one. Slower samples report slower figures, and
the figures of one report are in order up to the truncation to microseconds. -/

namespace DdsBenchmark.Netload

open OrderStats

inductive Percentile where
  | p50
  | p90
  | p99
  deriving DecidableEq

def Percentile.percent : Percentile → ℕ
  | .p50 => 50
  | .p90 => 90
  | .p99 => 99

def LatencyStats.percentileUs {F : Type*} (stats : LatencyStats F) : Percentile → ℤ
  | .p50 => stats.p50Us
  | .p90 => stats.p90Us
  | .p99 => stats.p99Us

/-- The report on samples added in this order. -/
def latencyReport {F : Type*} (fp : DoubleOps F) (samples : List ℤ) : LatencyStats F :=
  (runLatency (samples.map .addSample)).compute fp

section Report
variable {F : Type*} (fp : DoubleOps F) {samples : List ℤ}

theorem sinceReset_addSample (samples : List ℤ) :
    sinceReset (samples.map .addSample) = samples := by
  have hall : ∀ op ∈ (samples.map LatencyOp.addSample).reverse, decide (op ≠ .reset) = true := by
    simp
  rw [sinceReset, List.takeWhile_eq_self_iff.mpr hall, ← List.map_reverse, List.filterMap_map]
  change (List.filterMap some samples.reverse).reverse = samples
  rw [List.filterMap_some, List.reverse_reverse]

theorem samples_runLatency (samples : List ℤ) :
    (runLatency (samples.map .addSample)).samples = samples :=
  (runLatency_samples _).trans (sinceReset_addSample samples)

/-- The places of the sorted copy that a report reads. -/
theorem percentileUs_report (hne : samples ≠ []) (p : Percentile) :
    (latencyReport fp samples).percentileUs p =
      (kth samples (percentileIndex p.percent samples.length + 1)).tdiv 1000 := by
  have hempty : samples.isEmpty = false := by simpa using hne
  cases p <;>
    simp [latencyReport, LatencyCalculator.compute, samples_runLatency, hempty,
      LatencyStats.percentileUs, Percentile.percent, kth, ascending]

theorem maxUs_report (hne : samples ≠ []) :
    (latencyReport fp samples).maxUs = (kth samples samples.length).tdiv 1000 := by
  have hempty : samples.isEmpty = false := by simpa using hne
  simp [latencyReport, LatencyCalculator.compute, samples_runLatency, hempty, kth, ascending,
    List.getLastD_eq_getLast?, List.getLast?_eq_getElem?]

theorem foldl_add_intCast (xs : List ℤ) (q : ℚ) :
    xs.foldl (fun (sum : ℚ) (s : ℤ) => sum + s) q = q + (xs.sum : ℤ) := by
  induction xs generalizing q with
  | nil => simp
  | cons x xs ih => rw [List.foldl_cons, ih, List.sum_cons, Int.cast_add, add_assoc]

theorem meanUs_report (hne : samples ≠ []) :
    (latencyReport DoubleOps.exact samples).meanUs =
      ((ascending samples).sum : ℚ) / samples.length / 1000 := by
  have hempty : samples.isEmpty = false := by simpa using hne
  simp [latencyReport, LatencyCalculator.compute, samples_runLatency, hempty, ascending,
    DoubleOps.exact, foldl_add_intCast]

end Report

/-! ### Nearest ranks -/

/-- The place a report reads lies in the sorted copy, also when the product wraps. -/
theorem percentileIndex_lt (p : Percentile) {n : ℕ} (hn : 0 < n) :
    percentileIndex p.percent n < n := by
  have hle := Nat.mod_le (n * p.percent) (2 ^ 64)
  unfold percentileIndex
  cases p <;> simp only [Percentile.percent] at hle ⊢ <;> omega

/-- One place too far: the place with this index is the next rank. -/
theorem percentileIndex_of_dvd {p n : ℕ} (hlt : n * p < 2 ^ 64) (hd : 100 ∣ p * n) :
    percentileIndex p n = nearestRank p n := by
  rw [percentileIndex, Nat.mod_eq_of_lt hlt, nearestRank, Nat.mul_comm n p]
  omega

theorem percentileIndex_of_not_dvd {p n : ℕ} (hlt : n * p < 2 ^ 64) (hd : ¬ 100 ∣ p * n) :
    percentileIndex p n + 1 = nearestRank p n := by
  rw [percentileIndex, Nat.mod_eq_of_lt hlt, nearestRank, Nat.mul_comm n p]
  omega

/-- The samples of two ranks have the same number of whole microseconds. -/
def SameMicros (samples : List ℤ) (k l : ℕ) : Prop :=
  (kth samples k).tdiv 1000 = (kth samples l).tdiv 1000

/-- Where `p` percent of the samples is a whole number, the sample of that rank and the next
agree to the microsecond. Once the product exceeds a `size_t`, the rank agrees with the place
that the remainder of the product falls on. -/
def RankRead (p : ℕ) (samples : List ℤ) : Prop :=
  let n := samples.length
  if n * p < 2 ^ 64 then 100 ∣ p * n → SameMicros samples (p * n / 100) (p * n / 100 + 1)
  else SameMicros samples (nearestRank p n) (n * p % 2 ^ 64 / 100 + 1)

theorem rankRead_iff (p : ℕ) (samples : List ℤ) :
    RankRead p samples ↔ SameMicros samples (nearestRank p samples.length)
      (percentileIndex p samples.length + 1) := by
  unfold RankRead
  dsimp only
  split_ifs with hlt
  · by_cases hd : 100 ∣ p * samples.length
    · have hrank : nearestRank p samples.length = p * samples.length / 100 := by
        unfold nearestRank
        omega
      rw [percentileIndex_of_dvd hlt hd, hrank]
      exact imp_iff_right hd
    · rw [percentileIndex_of_not_dvd hlt hd]
      exact iff_of_true (fun h => absurd h hd) rfl
  · rfl

instance (p : ℕ) (samples : List ℤ) : Decidable (RankRead p samples) :=
  decidable_of_iff (_ = _) (rankRead_iff p samples).symm

/-- The nearest-rank percentile is the least sample that enough samples do not exceed, and it
is what is reported exactly under `RankRead`. -/
theorem percentileUs_eq_nearestRank_iff {F : Type*} (fp : DoubleOps F) (samples : List ℤ)
    (hne : samples ≠ []) (p : Percentile) :
    IsLeast (atLeastPercent p.percent samples)
        (kth samples (nearestRank p.percent samples.length)) ∧
      ((latencyReport fp samples).percentileUs p =
          (kth samples (nearestRank p.percent samples.length)).tdiv 1000 ↔
        RankRead p.percent samples) := by
  constructor
  · exact isLeast_kth_nearestRank (by cases p <;> decide) (by cases p <;> decide) hne
  · rw [percentileUs_report fp hne, rankRead_iff]
    exact eq_comm

/-- Three samples: the second is the median. -/
theorem percentileUs_three :
    (latencyReport DoubleOps.exact [3000, 1000, 2000]).percentileUs .p50 =
      (kth ([3000, 1000, 2000] : List ℤ) (nearestRank 50 3)).tdiv 1000 :=
  (percentileUs_eq_nearestRank_iff DoubleOps.exact [3000, 1000, 2000] (by decide) .p50).2.mpr
    (by decide)

/-- Of two samples the first is the median, and the second is reported. -/
theorem not_percentileUs_nearestRank :
    ¬ ∀ (samples : List ℤ) (p : Percentile), samples ≠ [] →
      (latencyReport DoubleOps.exact samples).percentileUs p =
        (kth samples (nearestRank p.percent samples.length)).tdiv 1000 := by
  intro h
  exact absurd (h [1000, 2000] .p50 (by decide)) (by decide)

/-! ### Slower samples -/

/-- The figure of a percentile is read from the sorted samples, at an index inside them. -/
structure ReadInside {F : Type*} (fp : DoubleOps F) (samples : List ℤ) (p : Percentile) :
    Prop where
  inside : percentileIndex p.percent samples.length < (ascending samples).length
  read : (latencyReport fp samples).percentileUs p =
    (kth samples (percentileIndex p.percent samples.length + 1)).tdiv 1000

theorem readInside {F : Type*} (fp : DoubleOps F) {samples : List ℤ} (hne : samples ≠ [])
    (p : Percentile) : ReadInside fp samples p where
  inside := by
    rw [length_ascending]
    exact percentileIndex_lt p (List.length_pos_of_ne_nil hne)
  read := percentileUs_report fp hne p

/-- The exact mean is the sum of the sorted samples by their number, in microseconds. -/
def SumBehindMean (samples : List ℤ) : Prop :=
  (latencyReport DoubleOps.exact samples).meanUs =
    ((ascending samples).sum : ℚ) / samples.length / 1000

/-- Samples that are larger one by one are reported as at least as large in every figure. -/
theorem slower_reports_slower {F : Type*} (fp : DoubleOps F) (a b : List ℤ) (hne : a ≠ [])
    (hab : List.Forall₂ (· ≤ ·) a b) :
    (∀ p : Percentile, ReadInside fp a p ∧ ReadInside fp b p ∧
        (latencyReport fp a).percentileUs p ≤ (latencyReport fp b).percentileUs p) ∧
      (latencyReport fp a).maxUs ≤ (latencyReport fp b).maxUs ∧
      SumBehindMean a ∧ SumBehindMean b ∧ (ascending a).sum ≤ (ascending b).sum := by
  have hlen := hab.length_eq
  have hn : 0 < a.length := List.length_pos_of_ne_nil hne
  have hne' : b ≠ [] := List.ne_nil_of_length_pos (hlen ▸ hn)
  refine ⟨fun p => ⟨readInside fp hne p, readInside fp hne' p, ?_⟩, ?_, meanUs_report hne,
    meanUs_report hne', ?_⟩
  · have hlt := percentileIndex_lt p hn
    rw [percentileUs_report fp hne, percentileUs_report fp hne', ← hlen]
    exact Int.tdiv_le_tdiv (by decide) (kth_le_kth hab (Nat.succ_pos _) hlt)
  · rw [maxUs_report fp hne, maxUs_report fp hne', ← hlen]
    exact Int.tdiv_le_tdiv (by decide) (kth_le_kth hab hn le_rfl)
  · rw [(ascending_perm a).sum_eq, (ascending_perm b).sum_eq]
    exact hab.sum_le_sum

/-- Skewed clocks: a median of `-1` microsecond against one of `0`. -/
theorem slower_reports_slower_skewed :
    (latencyReport DoubleOps.exact [-1500, -2500]).percentileUs .p50 ≤
      (latencyReport DoubleOps.exact [-1500, 999]).percentileUs .p50 :=
  ((slower_reports_slower DoubleOps.exact [-1500, -2500] [-1500, 999] (by decide)
    (by simp)).1 .p50).2.2

/-! ### One report -/

section Coherence
variable {F : Type*} (fp : DoubleOps F) {samples : List ℤ}

theorem percentileUs_mono (hne : samples ≠ []) (hn : samples.length * 99 < 2 ^ 64)
    {p q : Percentile} (hpq : p.percent ≤ q.percent) :
    (latencyReport fp samples).percentileUs p ≤ (latencyReport fp samples).percentileUs q := by
  have hq : q.percent ≤ 99 := by cases q <;> decide
  have hmul := Nat.mul_le_mul_left samples.length hpq
  have hmul' := Nat.mul_le_mul_left samples.length hq
  have hindex : percentileIndex p.percent samples.length ≤
      percentileIndex q.percent samples.length := by
    unfold percentileIndex
    rw [Nat.mod_eq_of_lt (by omega), Nat.mod_eq_of_lt (by omega)]
    exact Nat.div_le_div_right hmul
  rw [percentileUs_report fp hne, percentileUs_report fp hne]
  exact Int.tdiv_le_tdiv (by decide) (kth_mono (Nat.succ_pos _) (Nat.succ_le_succ hindex)
    (percentileIndex_lt q (List.length_pos_of_ne_nil hne)))

theorem percentileUs_le_maxUs (hne : samples ≠ []) (p : Percentile) :
    (latencyReport fp samples).percentileUs p ≤ (latencyReport fp samples).maxUs := by
  rw [percentileUs_report fp hne, maxUs_report fp hne]
  exact Int.tdiv_le_tdiv (by decide) (kth_mono (Nat.succ_pos _)
    (percentileIndex_lt p (List.length_pos_of_ne_nil hne)) le_rfl)

theorem sum_ascending_le (samples : List ℤ) :
    (ascending samples).sum ≤ samples.length * kth samples samples.length := by
  rw [(ascending_perm samples).sum_eq]
  exact (List.sum_le_card_nsmul samples _ fun s hs => le_kth_length hs).trans_eq
    (nsmul_eq_mul _ _)

theorem meanUs_le (hne : samples ≠ []) :
    (latencyReport DoubleOps.exact samples).meanUs ≤
      ((kth samples samples.length : ℤ) : ℚ) / 1000 := by
  have hn : (0 : ℚ) < samples.length := by exact_mod_cast List.length_pos_of_ne_nil hne
  have hsum : ((ascending samples).sum : ℚ) ≤
      ((kth samples samples.length : ℤ) : ℚ) * samples.length := by
    exact_mod_cast (sum_ascending_le samples).trans_eq (mul_comm _ _)
  rw [meanUs_report hne]
  exact div_le_div_of_nonneg_right ((div_le_iff₀ hn).mpr hsum) (by norm_num)

/-- Truncation does not lower a negative value, nor a whole number of microseconds. -/
theorem le_tdiv_mul {m : ℤ} (h : m < 0 ∨ 1000 ∣ m) : m ≤ m.tdiv 1000 * 1000 := by
  rw [Int.tdiv_eq_ediv, Int.sign_eq_one_of_pos (by decide)]
  split_ifs with hc <;> omega

theorem div_lt_tdiv_add_one (m : ℤ) : (m : ℚ) / 1000 < (m.tdiv 1000 : ℤ) + 1 := by
  rw [div_lt_iff₀ (by norm_num)]
  exact_mod_cast Int.lt_tdiv_add_one_mul_self m (by decide)

end Coherence

/-- The figures of a report, against the exact maximum in nanoseconds: the mean is at most that
maximum, so it is less than one microsecond above the figure reported for it, and not above it
at all when the maximum is negative or a whole number of microseconds. -/
def Coherent (stats : LatencyStats ℚ) (maxNs : ℤ) : Prop :=
  stats.p50Us ≤ stats.p90Us ∧ stats.p90Us ≤ stats.p99Us ∧ stats.p99Us ≤ stats.maxUs ∧
    stats.meanUs ≤ (maxNs : ℚ) / 1000 ∧ stats.meanUs < stats.maxUs + 1 ∧
    (maxNs < 0 ∨ 1000 ∣ maxNs → stats.meanUs ≤ stats.maxUs)

theorem report_coherent (samples : List ℤ) (hne : samples ≠ [])
    (hn : samples.length * 99 < 2 ^ 64) :
    Coherent (latencyReport DoubleOps.exact samples) (kth samples samples.length) := by
  have hmean := meanUs_le hne
  have hmax := maxUs_report DoubleOps.exact hne
  have h₁ := percentileUs_mono DoubleOps.exact hne hn (show Percentile.p50.percent ≤
    Percentile.p90.percent by decide)
  have h₂ := percentileUs_mono DoubleOps.exact hne hn (show Percentile.p90.percent ≤
    Percentile.p99.percent by decide)
  refine ⟨h₁, h₂, percentileUs_le_maxUs DoubleOps.exact hne .p99, hmean, ?_, fun hm => ?_⟩
  · rw [hmax]
    exact hmean.trans_lt (div_lt_tdiv_add_one _)
  · refine hmean.trans ((div_le_iff₀ (by norm_num)).mpr ?_)
    rw [hmax]
    exact_mod_cast le_tdiv_mul hm

/-- A whole maximum: the mean is below it. -/
theorem report_coherent_whole :
    (latencyReport DoubleOps.exact [2000, -700, 1999]).meanUs ≤
      (latencyReport DoubleOps.exact [2000, -700, 1999]).maxUs :=
  (report_coherent [2000, -700, 1999] (by decide) (by decide)).2.2.2.2.2 (by decide)

/-- A single sample of `1500` nanoseconds: the mean is above the truncated maximum. -/
theorem not_report_coherent :
    ¬ ∀ samples : List ℤ, samples ≠ [] → samples.length * 99 < 2 ^ 64 →
      let stats := latencyReport DoubleOps.exact samples
      stats.p50Us ≤ stats.p90Us ∧ stats.p90Us ≤ stats.p99Us ∧ stats.p99Us ≤ stats.maxUs ∧
        stats.meanUs ≤ stats.maxUs := by
  intro h
  exact absurd (h [1500] (by decide) (by decide)).2.2.2 (by decide +kernel)

end DdsBenchmark.Netload
