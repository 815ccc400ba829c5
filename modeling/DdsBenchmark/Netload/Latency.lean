import Mathlib.Data.List.Sort
import Mathlib.Data.List.Induction
import Mathlib.Data.Rat.Defs
import Mathlib.Algebra.Order.Ring.Int

/-! The latency calculator. Samples are integers, every division of samples truncates as in
C++, and the arithmetic on `double` is a parameter, so that nothing below rests on how it
rounds. A report is a function of the multiset of the samples since the last reset: the sum
behind the mean runs over the sorted copy. -/

namespace DdsBenchmark.Netload

/-- The `double` operations behind the mean. -/
structure DoubleOps (F : Type*) where
  zero : F
  ofInt64 : ℤ → F
  ofSize : ℕ → F
  add : F → F → F
  div : F → F → F
  /-- The literal `1000.0`. -/
  thousand : F

/-- Exact rational arithmetic in the place of `double`. -/
def DoubleOps.exact : DoubleOps ℚ where
  zero := 0
  ofInt64 := fun s => s
  ofSize := fun n => n
  add := (· + ·)
  div := (· / ·)
  thousand := 1000

structure LatencyStats (F : Type*) where
  meanUs : F
  p50Us : ℤ
  p90Us : ℤ
  p99Us : ℤ
  maxUs : ℤ
  count : UInt64
  deriving DecidableEq

structure LatencyCalculator where
  samples : List ℤ
  deriving DecidableEq

/-- The index `n * p / 100` of the sorted copy, in the 64-bit arithmetic of `size_t`. -/
def percentileIndex (p n : ℕ) : ℕ := n * p % 2 ^ 64 / 100

namespace LatencyCalculator

/-- The constructor. -/
def new : LatencyCalculator := ⟨[]⟩

def addSample (c : LatencyCalculator) (latencyNs : ℤ) : LatencyCalculator :=
  { c with samples := c.samples ++ [latencyNs] }

def compute {F : Type*} (fp : DoubleOps F) (c : LatencyCalculator) : LatencyStats F :=
  if c.samples.isEmpty then
    { meanUs := fp.zero, p50Us := 0, p90Us := 0, p99Us := 0, maxUs := 0, count := 0 }
  else
    let sorted := c.samples.insertionSort (· ≤ ·)
    let n := sorted.length
    let sum := sorted.foldl (fun sum s => fp.add sum (fp.ofInt64 s)) fp.zero
    { meanUs := fp.div (fp.div sum (fp.ofSize n)) fp.thousand
      p50Us := (sorted.getD (percentileIndex 50 n) 0).tdiv 1000
      p90Us := (sorted.getD (percentileIndex 90 n) 0).tdiv 1000
      p99Us := (sorted.getD (percentileIndex 99 n) 0).tdiv 1000
      maxUs := (sorted.getLastD 0).tdiv 1000
      count := UInt64.ofNat n }

def reset (c : LatencyCalculator) : LatencyCalculator := { c with samples := [] }

end LatencyCalculator

/-! ### Traces -/

inductive LatencyOp where
  | addSample (latencyNs : ℤ)
  | compute
  | reset
  deriving DecidableEq

/-- One call; `compute` is a `const` member and leaves the calculator as it is. -/
def LatencyOp.apply (c : LatencyCalculator) : LatencyOp → LatencyCalculator
  | .addSample latencyNs => c.addSample latencyNs
  | .compute => c
  | .reset => c.reset

/-- A calculator from its construction through a trace of calls. -/
def runLatency (ops : List LatencyOp) : LatencyCalculator :=
  ops.foldl LatencyOp.apply LatencyCalculator.new

def LatencyOp.sample? : LatencyOp → Option ℤ
  | .addSample latencyNs => some latencyNs
  | _ => none

/-- The samples added after the last reset of a trace, or since construction. -/
def sinceReset (ops : List LatencyOp) : List ℤ :=
  ((ops.reverse.takeWhile (· ≠ .reset)).filterMap LatencyOp.sample?).reverse

/-- The samples held are those since the last reset. -/
theorem runLatency_samples (ops : List LatencyOp) : (runLatency ops).samples = sinceReset ops := by
  induction ops using List.reverseRecOn with
  | nil => rfl
  | append_singleton ops op ih =>
    have hstep : runLatency (ops ++ [op]) = op.apply (runLatency ops) := List.foldl_append
    rw [hstep]
    cases op with
    | addSample latencyNs =>
      simp [LatencyOp.apply, LatencyCalculator.addSample, ih, sinceReset, LatencyOp.sample?]
    | compute => simp [LatencyOp.apply, ih, sinceReset, List.filterMap_cons, LatencyOp.sample?]
    | reset => simp [LatencyOp.apply, LatencyCalculator.reset, sinceReset]

/-- The report reads the samples through their sorted copy only. -/
theorem LatencyCalculator.compute_perm {F : Type*} (fp : DoubleOps F) {c₁ c₂ : LatencyCalculator}
    (h : c₁.samples.Perm c₂.samples) : c₁.compute fp = c₂.compute fp := by
  have hperm : (c₁.samples.insertionSort (· ≤ ·)).Perm (c₂.samples.insertionSort (· ≤ ·)) :=
    (List.perm_insertionSort _ _).trans (h.trans (List.perm_insertionSort _ _).symm)
  have hsort : c₁.samples.insertionSort (· ≤ ·) = c₂.samples.insertionSort (· ≤ ·) :=
    hperm.eq_of_pairwise' (List.pairwise_insertionSort _ _) (List.pairwise_insertionSort _ _)
  have hempty : c₁.samples.isEmpty = c₂.samples.isEmpty := h.isEmpty_eq
  unfold LatencyCalculator.compute
  rw [hsort, hempty]

/-- Two traces whose samples since the last reset are permutations of each other report the
same statistics in every field, whatever the `double` operations compute. -/
theorem compute_of_sinceReset_perm {F : Type*} (fp : DoubleOps F) (ops₁ ops₂ : List LatencyOp)
    (h : (sinceReset ops₁).Perm (sinceReset ops₂)) :
    (runLatency ops₁).compute fp = (runLatency ops₂).compute fp := by
  apply LatencyCalculator.compute_perm
  rwa [runLatency_samples, runLatency_samples]

/-- An earlier report and a sample before a reset change nothing. -/
theorem compute_after_reset :
    (runLatency [.addSample 7000, .reset, .addSample 3000, .compute, .addSample (-1500)]).compute
        DoubleOps.exact =
      (runLatency [.addSample (-1500), .addSample 3000]).compute DoubleOps.exact :=
  compute_of_sinceReset_perm DoubleOps.exact
    [.addSample 7000, .reset, .addSample 3000, .compute, .addSample (-1500)]
    [.addSample (-1500), .addSample 3000] (by decide)

end DdsBenchmark.Netload
