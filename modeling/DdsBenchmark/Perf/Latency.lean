import DdsBenchmark.Stream.OrderStats
import Mathlib.Algebra.Order.Ring.Int
import Mathlib.Data.List.Infix
import Mathlib.Data.Rat.Defs

/-! The latency statistics of the performance tool. The figures printed in microseconds stay in
nanoseconds. The buffer of raw values holds a fixed number of them; when more arrive before the
next report the later ones are only counted. -/

namespace DdsBenchmark.Perf

/-- `PINGPONG_RAWSIZE`. -/
def pingpongRawsize : ℕ := 20000

structure Latencystat where
  min : Int64
  max : Int64
  sum : Int64
  cnt : UInt32
  totcnt : UInt64
  /-- The part of the buffer written since it was put in place. -/
  raw : List Int64
  deriving DecidableEq

namespace Latencystat

/-- The bytes that `memset` clears. -/
def zeroed : Latencystat where
  min := 0
  max := 0
  sum := 0
  cnt := 0
  totcnt := 0
  raw := []

/-- `latencystat_init`. The total count keeps the value found in memory. -/
def init (x : Latencystat) : Latencystat :=
  { x with min := Int64.maxValue, max := Int64.minValue, sum := 0, cnt := 0, raw := [] }

/-- `latencystat_reset` with a fresh buffer. -/
def reset (x : Latencystat) : Latencystat :=
  { x with raw := [], min := Int64.maxValue, max := Int64.minValue, sum := 0, cnt := 0 }

/-- Writing cell `i` of a buffer of which an initial part has been written. -/
def store (raw : List Int64) (i : ℕ) (tdelta : Int64) : List Int64 :=
  if i < raw.length then raw.set i tdelta else raw ++ [tdelta]

/-- `latencystat_update`. The sum wraps, where the language leaves open what happens. -/
def update (x : Latencystat) (tdelta : Int64) : Latencystat where
  min := if tdelta < x.min then tdelta else x.min
  max := if tdelta > x.max then tdelta else x.max
  sum := x.sum + tdelta
  raw := if x.cnt.toNat < pingpongRawsize then store x.raw x.cnt.toNat tdelta else x.raw
  cnt := x.cnt + 1
  totcnt := x.totcnt + 1

/-- The figures of one line. -/
structure Report where
  mean : ℚ
  min : ℤ
  p50 : ℤ
  p90 : ℤ
  p99 : ℤ
  max : ℤ
  cnt : UInt32
  deriving DecidableEq

/-- `latencystat_print`, which prints nothing when nothing was counted. -/
def print (y : Latencystat) : Option Report :=
  if y.cnt > 0 then
    let rawcnt := if y.cnt.toNat > pingpongRawsize then pingpongRawsize else y.cnt.toNat
    let raw := OrderStats.ascending (y.raw.map Int64.toInt)
    some
      { mean := (y.sum.toInt : ℚ) / y.cnt.toNat
        min := y.min.toInt
        p50 := raw.getD (rawcnt - (rawcnt + 1) / 2) 0
        p90 := raw.getD (rawcnt - (rawcnt + 9) / 10) 0
        p99 := raw.getD (rawcnt - (rawcnt + 99) / 100) 0
        max := y.max.toInt
        cnt := y.cnt }
  else none

/-! ### What the statistics hold -/

/-- The statistics of the values `ts` counted since the buffer was put in place. -/
structure Holds (x : Latencystat) (ts : List Int64) : Prop where
  min : x.min.toInt = (ts.map Int64.toInt).foldl Min.min (2 ^ 63 - 1)
  max : x.max.toInt = (ts.map Int64.toInt).foldl Max.max (-2 ^ 63)
  sum : x.sum = Int64.ofInt (ts.map Int64.toInt).sum
  cnt : x.cnt = UInt32.ofNat ts.length
  raw : x.raw = ts.take pingpongRawsize

theorem holds_init (x : Latencystat) : Holds x.init [] := ⟨rfl, rfl, rfl, rfl, rfl⟩

theorem holds_reset (x : Latencystat) : Holds x.reset [] := ⟨rfl, rfl, rfl, rfl, rfl⟩

theorem toInt_ite_lt (a b : Int64) : (if a < b then a else b).toInt = Min.min b.toInt a.toInt := by
  by_cases h : a < b
  · rw [if_pos h, min_eq_right (Int64.lt_iff_toInt_lt.mp h).le]
  · rw [if_neg h, min_eq_left (not_lt.mp (mt Int64.lt_iff_toInt_lt.mpr h))]

theorem toInt_ite_gt (a b : Int64) : (if a > b then a else b).toInt = Max.max b.toInt a.toInt := by
  by_cases h : a > b
  · rw [if_pos h, max_eq_right (Int64.lt_iff_toInt_lt.mp h).le]
  · rw [if_neg h, max_eq_left (not_lt.mp (mt Int64.lt_iff_toInt_lt.mpr h))]

theorem Holds.update {x : Latencystat} {ts : List Int64} (h : Holds x ts)
    (hlen : ts.length < 2 ^ 32) (t : Int64) : Holds (x.update t) (ts ++ [t]) where
  min := by
    rw [List.map_append, List.foldl_append, ← h.min]
    exact toInt_ite_lt t x.min
  max := by
    rw [List.map_append, List.foldl_append, ← h.max]
    exact toInt_ite_gt t x.max
  sum := by
    show x.sum + t = _
    rw [h.sum, List.map_append, List.sum_append, List.map_singleton, List.sum_singleton,
      Int64.ofInt_add, Int64.ofInt_toInt]
  cnt := by
    show x.cnt + 1 = _
    rw [h.cnt, List.length_append, List.length_singleton, UInt32.ofNat_add]
    rfl
  raw := by
    have hcnt : x.cnt.toNat = ts.length := by
      rw [h.cnt, UInt32.toNat_ofNat_of_lt' hlen]
    show (if x.cnt.toNat < pingpongRawsize then store x.raw x.cnt.toNat t else x.raw) = _
    rw [hcnt, h.raw]
    by_cases hl : ts.length < pingpongRawsize
    · rw [if_pos hl, List.take_of_length_le hl.le, store, if_neg (Nat.lt_irrefl _),
        List.take_of_length_le]
      rw [List.length_append, List.length_singleton]
      exact hl
    · rw [if_neg hl, List.take_append_of_le_length (Nat.le_of_not_lt hl)]

/-! ### What a line says -/

/-- A value that fewer than one in `q` exceed and at least one in `q` reach. -/
def TopShare (q : ℕ) (ts : List ℤ) (v : ℤ) : Prop :=
  v ∈ ts ∧ q * ts.countP (v < ·) < ts.length ∧ ts.length ≤ q * ts.countP (v ≤ ·)

theorem countP_lt_add_countLE (ts : List ℤ) (v : ℤ) :
    ts.countP (v < ·) + OrderStats.countLE ts v = ts.length := by
  rw [List.length_eq_countP_add_countP (fun t => decide (v < t))]
  simp [OrderStats.countLE]

/-- The cell `n - ⌈n / q⌉` of the sorted values. -/
theorem topShare_getD {q : ℕ} (hq : 1 < q) {ts : List ℤ} (hne : ts ≠ []) :
    TopShare q ts
      ((OrderStats.ascending ts).getD (ts.length - (ts.length + (q - 1)) / q) 0) := by
  have hpos := List.length_pos_of_ne_nil hne
  set c := (ts.length + (q - 1)) / q with hc
  have hc₁ : ts.length ≤ q * c := by
    have := Nat.lt_mul_div_succ (ts.length + (q - 1)) (by omega : 0 < q)
    rw [← hc, Nat.mul_succ] at this
    omega
  have hc₂ : q * c ≤ ts.length + (q - 1) := Nat.mul_div_le _ _
  have hcpos : 1 ≤ c := Nat.one_le_iff_ne_zero.mpr fun h0 => by rw [h0] at hc₁; omega
  have hcle : c ≤ ts.length := by
    have : 2 * c ≤ q * c := Nat.mul_le_mul_right c hq
    rcases Nat.eq_or_lt_of_le hcpos with h1 | h2
    · omega
    · by_contra hgt
      have : q * (c - 1) + q = q * c := by rw [← Nat.mul_succ]; congr 1; omega
      have : q * ts.length ≤ q * (c - 1) := Nat.mul_le_mul_left q (by omega)
      have : 2 * ts.length ≤ q * ts.length := Nat.mul_le_mul_right _ hq
      omega
  -- the cell is the element of rank `n - c + 1`
  have hk : (OrderStats.ascending ts).getD (ts.length - c) 0 =
      OrderStats.kth ts (ts.length - c + 1) := rfl
  rw [hk]
  set v := OrderStats.kth ts (ts.length - c + 1) with hv
  have h1 : 1 ≤ ts.length - c + 1 := Nat.le_add_left _ _
  have hn : ts.length - c + 1 ≤ ts.length := by omega
  have hle : ts.length - c + 1 ≤ OrderStats.countLE ts v := OrderStats.le_countLE_kth h1 hn
  have habove := countP_lt_add_countLE ts v
  have hbelow : ¬ ts.length - c + 1 ≤ OrderStats.countLE ts (v - 1) := by
    rw [← OrderStats.kth_le_iff h1 hn, ← hv]
    omega
  have hreach : ts.countP (v ≤ ·) + OrderStats.countLE ts (v - 1) = ts.length := by
    rw [← countP_lt_add_countLE ts (v - 1)]
    congr 2
    funext t
    exact decide_eq_decide.mpr Int.sub_one_lt_iff.symm
  refine ⟨OrderStats.kth_mem h1 hn, ?_, ?_⟩
  · have : q * ts.countP (v < ·) ≤ q * (c - 1) := Nat.mul_le_mul_left q (by omega)
    have : q * (c - 1) + q = q * c := by rw [← Nat.mul_succ]; congr 1; omega
    omega
  · exact hc₁.trans (Nat.mul_le_mul_left q (by omega))

/-- No running total of the values leaves `int64_t`. -/
def NoOverflow (ts : List ℤ) : Prop := ∀ us ∈ ts.inits, -2 ^ 63 ≤ us.sum ∧ us.sum < 2 ^ 63

/-- The line is about the values `ts`, the shares about those that fit the buffer. -/
structure Describes (r : Report) (ts : List ℤ) : Prop where
  cnt : r.cnt.toNat = ts.length
  mean : r.mean = (ts.sum : ℚ) / ts.length
  min : IsLeast {t | t ∈ ts} r.min
  max : IsGreatest {t | t ∈ ts} r.max
  p50 : TopShare 2 (ts.take pingpongRawsize) r.p50
  p90 : TopShare 10 (ts.take pingpongRawsize) r.p90
  p99 : TopShare 100 (ts.take pingpongRawsize) r.p99

/-- What is printed is about the values counted since the buffer was put in place. -/
theorem Holds.print {x : Latencystat} {ts : List Int64} (h : Holds x ts)
    (hlen : ts.length < 2 ^ 32) (hsum : NoOverflow (ts.map Int64.toInt)) :
    if ts = [] then x.print = none
      else ∃ r, x.print = some r ∧ Describes r (ts.map Int64.toInt) := by
  have hcnt : x.cnt.toNat = ts.length := by rw [h.cnt, UInt32.toNat_ofNat_of_lt' hlen]
  have hpos : x.cnt > 0 ↔ 0 < ts.length := by
    rw [gt_iff_lt, UInt32.lt_iff_toNat_lt, hcnt]
    rfl
  by_cases hts : ts = []
  · rw [if_pos hts, Latencystat.print, if_neg]
    simp [hpos, hts]
  · have hvals : ts.map Int64.toInt ≠ [] := by simpa using hts
    have hraw : x.raw.map Int64.toInt ≠ [] := by
      rw [h.raw]
      simp [hts, pingpongRawsize]
    have hrawcnt : (if x.cnt.toNat > pingpongRawsize then pingpongRawsize else x.cnt.toNat) =
        (x.raw.map Int64.toInt).length := by
      rw [h.raw, List.length_map, List.length_take, hcnt, min_def]
      split_ifs <;> omega
    obtain ⟨hlow, hhigh⟩ := hsum _ ((List.mem_inits _ _).mpr (List.prefix_refl _))
    rw [if_neg hts, Latencystat.print, if_pos (hpos.mpr (List.length_pos_of_ne_nil hts)), hrawcnt]
    refine ⟨_, rfl, ?_⟩
    constructor
    · exact hcnt.trans (List.length_map _).symm
    · show (x.sum.toInt : ℚ) / x.cnt.toNat = _
      rw [h.sum, hcnt, Int64.toInt_ofInt_of_le hlow hhigh, List.length_map]
    · show IsLeast _ x.min.toInt
      rw [h.min]
      exact OrderStats.isLeast_foldl_min hvals fun t ht => by
        obtain ⟨u, -, rfl⟩ := List.mem_map.mp ht
        exact Int.le_sub_one_of_lt u.toInt_lt
    · show IsGreatest _ x.max.toInt
      rw [h.max]
      exact OrderStats.isGreatest_foldl_max hvals fun t ht => by
        obtain ⟨u, -, rfl⟩ := List.mem_map.mp ht
        exact u.le_toInt
    all_goals rw [← List.map_take, ← h.raw]
    · exact topShare_getD (q := 2) (by decide) hraw
    · exact topShare_getD (q := 10) (by decide) hraw
    · exact topShare_getD (q := 100) (by decide) hraw

end Latencystat

end DdsBenchmark.Perf
