import DdsBenchmark.Perf.Eseq
import Mathlib.Algebra.BigOperators.Group.Finset.Piecewise
import Mathlib.Algebra.BigOperators.Ring.Finset
import Mathlib.Algebra.Order.BigOperators.Group.Finset

/-! What the loss totals of the performance tool mean. The samples of any number of publishers
reach the subscriber in any interleaving. In the order of its keys a publisher is charged `nkeys`
for every sample skipped. Out of order each sample that comes late costs nearly `2 ^ 32`, so that
a total of nothing lost is reported exactly when every key of every publisher arrives in a row. -/

namespace DdsBenchmark.Perf

open Upsert Interleave Classes

/-- Every arrival is behind the first one and behind the earlier ones of its key. -/
def InTurn (K n₀ : ℕ) (ns : List ℕ) : Prop :=
  (∀ n ∈ ns, n₀ < n) ∧ ns.Pairwise fun m n => m % K = n % K → m < n

instance (K n₀ : ℕ) (ns : List ℕ) : Decidable (InTurn K n₀ ns) := instDecidableAnd

/-- Every key of the publisher arrives in a row, from the first entry behind `n₀` on. -/
def Gapless (K : ℕ) [NeZero K] (n₀ : ℕ) (ns : List ℕ) : Prop :=
  ∀ k : Fin K, entries k ns = List.range' (after n₀ k) (entries k ns).length

section Keys
variable {K : ℕ} [NeZero K]

theorem entries_cons (k : Fin K) (n : ℕ) (ns : List ℕ) :
    entries k (n :: ns) = if classOf K n = k then n / K :: entries k ns else entries k ns := rfl

theorem InTurn.inOrder {n₀ : ℕ} {ns : List ℕ} (h : InTurn K n₀ ns) (k : Fin K) :
    Gaps.InOrder (after n₀ k) (entries k ns) := by
  obtain ⟨hbehind, hpair⟩ := h
  refine ⟨fun j hj => after_le_iff.mpr (hbehind _ (mem_entries.mp hj)), ?_⟩
  clear hbehind
  induction ns with
  | nil => exact List.Pairwise.nil
  | cons n ns ih =>
    obtain ⟨hn, hns⟩ := List.pairwise_cons.mp hpair
    rw [entries_cons]
    split_ifs with hk
    · subst hk
      refine List.pairwise_cons.mpr ⟨fun j hj => ?_, ih hns⟩
      have hlt := hn _ (mem_entries.mp hj) (by rw [mul_add_mod]; rfl)
      exact (add_mul_lt_iff (k := classOf K n)).mp (by rwa [mul_add_classOf])
    · exact ih hns

/-- The entries of all keys are the samples. -/
theorem sum_length_entries (K : ℕ) [NeZero K] (ns : List ℕ) :
    ∑ k : Fin K, (entries k ns).length = ns.length := by
  induction ns with
  | nil => simp [entries, deal]
  | cons n ns ih =>
    have hone : ∀ k : Fin K, (entries k (n :: ns)).length =
        (entries k ns).length + if classOf K n = k then 1 else 0 := by
      intro k
      rw [entries_cons]
      split_ifs <;> rfl
    simp only [hone, Finset.sum_add_distrib, ih, Finset.sum_ite_eq, Finset.mem_univ, if_true,
      List.length_cons]

end Keys

/-- No sample is `2 ^ 32` sequence numbers or more away from what its key expects. -/
def NearKeys (K : ℕ) [NeZero K] (n₀ : ℕ) (ns : List ℕ) : Prop :=
  ∀ k : Fin K, Near K (after n₀ k) (entries k ns)

instance (K : ℕ) [NeZero K] (n₀ : ℕ) (ns : List ℕ) : Decidable (NearKeys K n₀ ns) :=
  inferInstanceAs (Decidable (∀ k : Fin K, Near K (after n₀ k) (entries k ns)))

section Totals
variable {nkeys : UInt32} [NeZero nkeys.toNat] (sublatency : Bool) {topicsel : Topicsel}

variable (nkeys) in
/-- What a publisher is charged for the samples behind its first. -/
def lost (n₀ : ℕ) (ns : List ℕ) : ℕ :=
  ∑ k : Fin nkeys.toNat, charge succ (gap32 nkeys.toNat) (after n₀ k) (entries k ns)

variable (topicsel) in
/-- The entry that the samples `d :: ds` of one publisher leave. -/
def left (pubhandle : UInt64) (d : Delivery) (ds : List Delivery) : EseqEntry nkeys :=
  ds.foldl (fun x d => deliver sublatency topicsel d x) (opened sublatency topicsel pubhandle d)

theorem tracks_left (hk : topicsel.keyed = true ∨ nkeys = 1) (pubhandle : UInt64) (d : Delivery)
    (ds : List Delivery) :
    Tracks (left sublatency topicsel pubhandle d ds : EseqEntry nkeys)
      (run succ (after d.n) (deal nkeys.toNat (places ds))) (ds.length + 1)
      (lost nkeys d.n (places ds)) ((d :: ds).map fun d => d.size.toNat).sum := by
  have h := (tracks_opened sublatency hk pubhandle d).deliveries sublatency topicsel ds
  rw [total_eq_sum succ _ Finset.univ _ fun x _ => Finset.mem_univ _, Nat.zero_add,
    Nat.add_comm 1] at h
  exact h

theorem ph_deliver (d : Delivery) (x : EseqEntry nkeys) :
    (deliver sublatency topicsel d x).ph = x.ph := rfl

variable (topicsel) in
/-- The table holds what each publisher's own samples leave, in one entry. -/
structure Filled (ea : EseqAdmin nkeys) (xs : List (UInt64 × Delivery)) : Prop where
  nodup : (ea.map EseqEntry.ph).Nodup
  entry : ∀ p, entry EseqEntry.ph p ea =
    match own p xs with
    | [] => none
    | d :: ds => some (left sublatency topicsel p d ds)

theorem receive_eq (hk : topicsel.keyed = true ∨ nkeys = 1) (xs : List (UInt64 × Delivery)) :
    ∃ ea, receive sublatency (initEseqAdmin nkeys)
        (xs.map fun x => (x.1, x.2.arrival topicsel nkeys)) = some ea ∧
      Filled sublatency topicsel ea xs := by
  refine ⟨_, receive_deliveries sublatency hk _ xs, ?_, fun p => ?_⟩
  · exact nodup_upserts (ph_deliver sublatency) (fun _ _ => rfl) (by simp [initEseqAdmin]) xs
  · rw [initEseqAdmin, entry_upserts_nil (ph_deliver sublatency) (fun _ _ => rfl)]
    cases own p xs <;> rfl

section Filled
variable {ea : EseqAdmin nkeys} {xs : List (UInt64 × Delivery)} {sublatency}
  (h : Filled sublatency topicsel ea xs)
include h

/-- An entry belongs to a publisher that has delivered. -/
theorem Filled.exists_left {x : EseqEntry nkeys} (hx : x ∈ ea) :
    ∃ d ds, own x.ph xs = d :: ds ∧ x = left sublatency topicsel x.ph d ds := by
  have hentry := h.entry x.ph
  rw [entry_of_mem h.nodup hx] at hentry
  cases hown : own x.ph xs with
  | nil => simp [hown] at hentry
  | cons d ds => exact ⟨d, ds, rfl, by simpa [hown] using hentry⟩

theorem Filled.exists_entry {p : UInt64} {d : Delivery} {ds : List Delivery}
    (hown : own p xs = d :: ds) : ∃ x ∈ ea, x.ph = p := by
  have hentry := h.entry p
  simp only [hown] at hentry
  exact ⟨_, mem_of_entry hentry, key_of_entry hentry⟩

end Filled

theorem lost_add_rollback {n₀ : ℕ} {ns : List ℕ} (h : NearKeys nkeys.toNat n₀ ns) :
    lost nkeys n₀ ns +
        nkeys.toNat * ∑ k : Fin nkeys.toNat, Gaps.rollback (after n₀ k) (entries k ns) =
      nkeys.toNat * ∑ k : Fin nkeys.toNat, Gaps.gapSum (after n₀ k) (entries k ns) +
        2 ^ 32 * ∑ k : Fin nkeys.toNat, Gaps.late (after n₀ k) (entries k ns) := by
  rw [lost, Finset.mul_sum, Finset.mul_sum, Finset.mul_sum, ← Finset.sum_add_distrib,
    ← Finset.sum_add_distrib]
  exact Finset.sum_congr rfl fun k _ => charge_gap32 (NeZero.pos _) (h k)

theorem lost_of_inTurn {n₀ : ℕ} {ns : List ℕ} (h : NearKeys nkeys.toNat n₀ ns)
    (ho : InTurn nkeys.toNat n₀ ns) :
    lost nkeys n₀ ns = nkeys.toNat * (skipped nkeys.toNat n₀ ns).card := by
  rw [lost, card_skipped, Finset.mul_sum]
  exact Finset.sum_congr rfl fun k _ =>
    charge_gap32_of_inOrder (NeZero.pos _) (h k) (ho.inOrder k)

theorem lost_eq_zero_iff {n₀ : ℕ} {ns : List ℕ} (h : NearKeys nkeys.toNat n₀ ns) :
    lost nkeys n₀ ns = 0 ↔ Gapless nkeys.toNat n₀ ns := by
  rw [lost, Finset.sum_eq_zero_iff]
  exact forall_congr' fun k => by
    simpa using charge_gap32_eq_zero_iff (NeZero.pos _) (h k)

variable (nkeys) in
theorem lost_le (n₀ : ℕ) (ns : List ℕ) : lost nkeys n₀ ns ≤ (2 ^ 32 - 1) * ns.length := by
  rw [← sum_length_entries nkeys.toNat ns, lost, Finset.mul_sum]
  exact Finset.sum_le_sum fun k _ => charge_gap32_le (entries k ns)

end Totals

instance neZeroTwo : NeZero (UInt32.toNat 2) := ⟨by decide⟩

/-- Two publishers, two keys, and sample 6 of the first publisher missing. -/
def twoPublishers : List (UInt64 × Delivery) :=
  [(7, ⟨4, 12, 0, 1⟩), (9, ⟨0, 12, 0, 2⟩), (7, ⟨5, 12, 0, 1⟩), (7, ⟨8, 12, 0, 1⟩),
    (9, ⟨1, 12, 0, 2⟩)]

end DdsBenchmark.Perf
