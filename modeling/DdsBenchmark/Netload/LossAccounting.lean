import Mathlib.Tactic.NormNum
import DdsBenchmark.Netload.Throughput

/-! What the loss figures of the throughput calculator mean. In any arrival order and with
any repetitions the loss is at least the number of sequence numbers that never arrived. On
distinct numbers it is that number exactly when they arrive in order; any other order books
more, by an amount read off the steps back. A reset in the middle of a stream charges the
next window with everything before it. -/

namespace DdsBenchmark.Netload

open ThroughputCalculator

/-! ### Never received -/

/-- What one `add_received` adds to the loss, before the counter wraps. -/
def countedGap (t : ThroughputCalculator) (seq : UInt64) : ℕ :=
  if t.expectedSeq ≠ 0 ∧ t.expectedSeq < seq then (seq - t.expectedSeq).toNat else 0

def countedGaps (t : ThroughputCalculator) : List UInt64 → ℕ
  | [] => 0
  | seq :: seqs => countedGap t seq + countedGaps (t.addReceived seq) seqs

theorem Tracks.countedGap_eq {t : ThroughputCalculator} {e received lost : ℕ}
    (h : Tracks t e received lost) (seq : UInt64) : countedGap t seq = seq.toNat - e := by
  have hs := seq.toNat_lt
  unfold countedGap
  obtain ⟨hz, he⟩ | ⟨hz, he⟩ := h.expectedSeq_cases
  · rw [if_neg (by simp [hz])]
    omega
  · by_cases hlt : t.expectedSeq < seq
    · rw [if_pos ⟨hz, hlt⟩, UInt64.toNat_sub_of_le _ _ (UInt64.le_of_lt hlt), he]
    · have hle := UInt64.le_iff_toNat_le.mp (UInt64.not_lt.mp hlt)
      rw [if_neg (fun hc => hlt hc.2)]
      omega

theorem Tracks.countedGaps_eq {t : ThroughputCalculator} {e received lost : ℕ}
    (h : Tracks t e received lost) (seqs : List UInt64) :
    countedGaps t seqs = Gaps.gapSum e (numbers seqs) := by
  induction seqs generalizing t e received lost with
  | nil => rfl
  | cons seq seqs ih =>
    rw [countedGaps, h.countedGap_eq, ih (h.addReceived seq)]
    rfl

/-- The highest sequence number of a stream. -/
def maxReceived (seqs : List UInt64) : ℕ := (numbers seqs).foldr max 0

/-- The numbers from `1` up to the highest received that never arrived. -/
def neverReceived (seqs : List UInt64) : Finset ℕ :=
  (Finset.Icc 1 (maxReceived seqs)).filter (· ∉ numbers seqs)

theorem foldr_max_lt_iff {k : ℕ} {xs : List ℕ} :
    xs.foldr max 0 < k ↔ 0 < k ∧ ∀ x ∈ xs, x < k := by
  induction xs with
  | nil => simp
  | cons x xs ih =>
    rw [List.foldr_cons, max_lt_iff, ih, List.forall_mem_cons]
    exact and_left_comm

theorem high_eq_maxReceived (seqs : List UInt64) :
    Gaps.high 1 (numbers seqs) = maxReceived seqs + 1 := by
  refine Nat.le_antisymm (Gaps.high_le_iff.mpr ⟨Nat.le_add_left _ _, ?_⟩) ?_
  · exact (foldr_max_lt_iff.mp (Nat.lt_succ_self (maxReceived seqs))).2
  · exact foldr_max_lt_iff.mpr ⟨Gaps.le_high 1 _, fun x hx => Gaps.lt_high hx⟩

theorem neverReceived_eq (seqs : List UInt64) :
    neverReceived seqs = Gaps.missing 1 (numbers seqs) := by
  ext k
  rw [neverReceived, Gaps.missing, high_eq_maxReceived, Finset.mem_filter, Finset.mem_Icc,
    Finset.mem_sdiff, Finset.mem_Ico, List.mem_toFinset, Nat.lt_succ_iff]

/-- The loss is never under-reported, in any order and with any repetitions. -/
theorem card_neverReceived_le_lostMsgs (payloadSize : UInt64) (seqs : List UInt64)
    (hgaps : countedGaps (new payloadSize) seqs < 2 ^ 64) :
    (neverReceived seqs).card ≤ ((new payloadSize).feed seqs).compute.lostMsgs.toNat := by
  rw [(tracks_new payloadSize).countedGaps_eq] at hgaps
  rw [lostMsgs_feed payloadSize hgaps, neverReceived_eq]
  exact Gaps.card_missing_le 1 (numbers seqs)

/-- Repetitions, a step back and the number `0`: six of the numbers up to nine never came. -/
theorem six_le_lostMsgs : 6 ≤ ((new 256).feed [0, 5, 2, 2, 9]).compute.lostMsgs.toNat := by
  have hcard : (neverReceived [0, 5, 2, 2, 9]).card = 6 := by decide
  rw [← hcard]
  exact card_neverReceived_le_lostMsgs 256 [0, 5, 2, 2, 9] (by decide)

/-! ### Arrival order -/

/-- Distinct sequence numbers in `[1, 2 ^ 32)`. -/
structure Distinct32 (seqs : List UInt64) : Prop where
  nodup : seqs.Nodup
  pos : ∀ seq ∈ seqs, 1 ≤ seq.toNat
  lt : ∀ seq ∈ seqs, seq.toNat < 2 ^ 32

theorem Distinct32.perm {seqs₁ seqs₂ : List UInt64} (h : Distinct32 seqs₁)
    (hp : seqs₁.Perm seqs₂) : Distinct32 seqs₂ :=
  ⟨hp.nodup_iff.mp h.nodup, fun seq hs => h.pos seq (hp.mem_iff.mpr hs),
    fun seq hs => h.lt seq (hp.mem_iff.mpr hs)⟩

theorem Distinct32.numbers_nodup {seqs : List UInt64} (h : Distinct32 seqs) :
    (numbers seqs).Nodup :=
  h.nodup.map fun _ _ he => UInt64.toNat_inj.mp he

theorem Distinct32.one_le {seqs : List UInt64} (h : Distinct32 seqs) :
    ∀ x ∈ numbers seqs, 1 ≤ x := by
  intro x hx
  obtain ⟨seq, hs, rfl⟩ := List.mem_map.mp hx
  exact h.pos seq hs

theorem Distinct32.length_lt {seqs : List UInt64} (h : Distinct32 seqs) :
    seqs.length < 2 ^ 32 := by
  have hsub : (numbers seqs).toFinset ⊆ Finset.Ico 1 (2 ^ 32) := by
    intro x hx
    obtain ⟨seq, hs, rfl⟩ := List.mem_map.mp (List.mem_toFinset.mp hx)
    exact Finset.mem_Ico.mpr ⟨h.pos seq hs, h.lt seq hs⟩
  have hc := Finset.card_le_card hsub
  rw [List.toFinset_card_of_nodup h.numbers_nodup, List.length_map, Nat.card_Ico] at hc
  omega

/-- On such a stream no counter wraps. -/
theorem Distinct32.fits {seqs : List UInt64} (h : Distinct32 seqs) :
    seqs.length + Gaps.gapSum 1 (numbers seqs) < 2 ^ 64 := by
  have hb : ∀ x ∈ numbers seqs, x ≤ 2 ^ 32 - 1 := by
    intro x hx
    obtain ⟨seq, hs, rfl⟩ := List.mem_map.mp hx
    have := h.lt seq hs
    omega
  have hg := Gaps.gapSum_le le_rfl hb
  have hl := h.length_lt
  rw [List.length_map] at hg
  omega

theorem Distinct32.totalMsgs {seqs : List UInt64} (h : Distinct32 seqs) (payloadSize : UInt64) :
    ((new payloadSize).feed seqs).compute.totalMsgs.toNat = seqs.length := by
  have hl := h.length_lt
  exact totalMsgs_feed payloadSize (by omega)

theorem Distinct32.lostMsgs {seqs : List UInt64} (h : Distinct32 seqs) (payloadSize : UInt64) :
    ((new payloadSize).feed seqs).compute.lostMsgs.toNat = Gaps.gapSum 1 (numbers seqs) := by
  have hf := h.fits
  exact lostMsgs_feed payloadSize (by omega)

theorem Distinct32.lossRate {seqs : List UInt64} (h : Distinct32 seqs) (payloadSize : UInt64) :
    ((new payloadSize).feed seqs).compute.lossRate =
      100 * (Gaps.gapSum 1 (numbers seqs) : ℚ) /
        ((seqs.length : ℚ) + Gaps.gapSum 1 (numbers seqs)) :=
  lossRate_eq (h.totalMsgs payloadSize) (h.lostMsgs payloadSize) h.fits

/-- The number expected at the end together with the distance of all steps back. -/
def reach (seqs : List UInt64) : ℕ := Gaps.next 1 (numbers seqs) + Gaps.rollback 1 (numbers seqs)

theorem gapSum_eq_iff_reach {seqs₁ seqs₂ : List UInt64} (hp : seqs₁.Perm seqs₂) :
    Gaps.gapSum 1 (numbers seqs₁) = Gaps.gapSum 1 (numbers seqs₂) ↔ reach seqs₁ = reach seqs₂ :=
  Gaps.gapSum_eq_iff_of_perm 1 (hp.map _)

theorem inOrder_numbers_iff {seqs : List UInt64} (hpos : ∀ seq ∈ seqs, 1 ≤ seq.toNat) :
    Gaps.InOrder 1 (numbers seqs) ↔ seqs.Pairwise (· < ·) := by
  constructor
  · intro h
    exact (List.pairwise_map.mp h.2).imp UInt64.lt_iff_toNat_lt.mpr
  · intro h
    refine ⟨fun x hx => ?_, List.pairwise_map.mpr (h.imp UInt64.lt_iff_toNat_lt.mp)⟩
    obtain ⟨seq, hs, rfl⟩ := List.mem_map.mp hx
    exact hpos seq hs

theorem neverReceived_perm {seqs₁ seqs₂ : List UInt64} (hp : seqs₁.Perm seqs₂) :
    neverReceived seqs₁ = neverReceived seqs₂ := by
  rw [neverReceived_eq, neverReceived_eq, Gaps.missing_perm 1 (hp.map _)]

theorem Distinct32.lossRate_eq_iff {seqs₁ seqs₂ : List UInt64} (hd : Distinct32 seqs₁)
    (hp : seqs₁.Perm seqs₂) (payloadSize₁ payloadSize₂ : UInt64) :
    ((new payloadSize₁).feed seqs₁).compute.lossRate =
      ((new payloadSize₂).feed seqs₂).compute.lossRate ↔ reach seqs₁ = reach seqs₂ := by
  rw [hd.lossRate, (hd.perm hp).lossRate, ← hp.length_eq, ← gapSum_eq_iff_reach hp]
  cases seqs₁ with
  | nil =>
    rw [hp.nil_eq.symm]
    simp
  | cons seq seqs => exact rate_inj (by simp)

/-- The reports on two orders of the same distinct numbers. The totals agree, the losses and
the rates agree exactly when the orders reach equally far, and no order books less than the
numbers that never arrived and one for each step back. -/
theorem arrival_order (payloadSize₁ payloadSize₂ : UInt64) (seqs₁ seqs₂ : List UInt64)
    (hd : Distinct32 seqs₁) (hp : seqs₁.Perm seqs₂) :
    let stats₁ := ((new payloadSize₁).feed seqs₁).compute
    let stats₂ := ((new payloadSize₂).feed seqs₂).compute
    stats₁.totalMsgs = stats₂.totalMsgs ∧
      neverReceived seqs₁ = neverReceived seqs₂ ∧
      (stats₁.lostMsgs = stats₂.lostMsgs ↔ reach seqs₁ = reach seqs₂) ∧
      (stats₁.lossRate = stats₂.lossRate ↔ reach seqs₁ = reach seqs₂) ∧
      (neverReceived seqs₁).card + Gaps.late 1 (numbers seqs₁) ≤ stats₁.lostMsgs.toNat ∧
      (stats₁.lostMsgs.toNat = (neverReceived seqs₁).card ↔ seqs₁.Pairwise (· < ·)) := by
  intro stats₁ stats₂
  have hd₂ := hd.perm hp
  refine ⟨?_, neverReceived_perm hp, ?_, hd.lossRate_eq_iff hp payloadSize₁ payloadSize₂, ?_, ?_⟩
  · exact UInt64.toNat_inj.mp (by rw [hd.totalMsgs, hd₂.totalMsgs, hp.length_eq])
  · rw [← UInt64.toNat_inj, hd.lostMsgs, hd₂.lostMsgs, gapSum_eq_iff_reach hp]
  · rw [hd.lostMsgs, neverReceived_eq]
    exact Gaps.card_missing_add_late_le hd.numbers_nodup hd.one_le
  · rw [hd.lostMsgs, neverReceived_eq, ← inOrder_numbers_iff hd.pos]
    exact Gaps.gapSum_eq_iff_inOrder hd.numbers_nodup hd.one_le

/-- Two orders that both step back once and reach equally far report the same loss. -/
theorem arrival_order_two_one_three :
    ((new 256).feed [2, 1, 3]).compute.lostMsgs = ((new 64).feed [3, 1, 2]).compute.lostMsgs :=
  (arrival_order 256 64 [2, 1, 3] [3, 1, 2] ⟨by decide, by simp, by simp⟩
    (by decide)).2.2.1.mpr (by decide)

/-- Messages `1`, `2` and `3` all arrive, and `3` before `2` is reported as a loss. -/
theorem not_arrival_order_independent :
    ¬ ∀ seqs₁ seqs₂ : List UInt64, Distinct32 seqs₁ → seqs₁.Perm seqs₂ →
      let stats₁ := ((new 256).feed seqs₁).compute
      let stats₂ := ((new 256).feed seqs₂).compute
      stats₁.totalMsgs = stats₂.totalMsgs ∧ stats₁.lostMsgs = stats₂.lostMsgs ∧
        stats₁.lossRate = stats₂.lossRate := by
  intro h
  have hh := (h [1, 2, 3] [1, 3, 2] ⟨by decide, by simp, by simp⟩ (by decide)).2.1
  exact absurd hh (by decide)

/-! ### Windows -/

/-- The reports at the end of each window, with a `reset` between the windows. -/
def windowReports (t : ThroughputCalculator) : List (List UInt64) → List ThroughputStats
  | [] => []
  | w :: ws => (t.feed w).compute :: windowReports (t.feed w).reset ws

theorem windowReports_new (payloadSize : UInt64) (ws : List (List UInt64)) :
    windowReports (new payloadSize) ws = ws.map fun w => ((new payloadSize).feed w).compute := by
  induction ws with
  | nil => rfl
  | cons w ws ih =>
    rw [windowReports, reset_eq_new, feed_payloadSize]
    exact congrArg _ ih

/-- Strictly increasing sequence numbers in `[1, 2 ^ 63)`. -/
structure Increasing63 (seqs : List UInt64) : Prop where
  increasing : seqs.Pairwise (· < ·)
  pos : ∀ seq ∈ seqs, 1 ≤ seq.toNat
  lt : ∀ seq ∈ seqs, seq.toNat < 2 ^ 63

theorem Increasing63.inOrder {seqs : List UInt64} (h : Increasing63 seqs) :
    Gaps.InOrder 1 (numbers seqs) :=
  (inOrder_numbers_iff h.pos).mpr h.increasing

theorem Increasing63.sublist {seqs seqs' : List UInt64} (h : Increasing63 seqs)
    (hs : seqs'.Sublist seqs) : Increasing63 seqs' :=
  ⟨h.increasing.sublist hs, fun seq hm => h.pos seq (hs.subset hm),
    fun seq hm => h.lt seq (hs.subset hm)⟩

theorem Increasing63.fits {seqs : List UInt64} (h : Increasing63 seqs) :
    seqs.length + Gaps.gapSum 1 (numbers seqs) < 2 ^ 64 := by
  have hn := h.inOrder.next_eq
  have hh : Gaps.high 1 (numbers seqs) ≤ 2 ^ 63 := by
    refine Gaps.high_le_iff.mpr ⟨Nat.one_le_two_pow, fun x hx => ?_⟩
    obtain ⟨seq, hm, rfl⟩ := List.mem_map.mp hx
    exact h.lt seq hm
  rw [h.inOrder.high_eq, hn, List.length_map] at hh
  omega

theorem Increasing63.stats {seqs : List UInt64} (h : Increasing63 seqs) (payloadSize : UInt64) :
    ((new payloadSize).feed seqs).compute.totalMsgs.toNat = seqs.length ∧
      ((new payloadSize).feed seqs).compute.lostMsgs.toNat = Gaps.gapSum 1 (numbers seqs) := by
  have hf := h.fits
  exact ⟨totalMsgs_feed payloadSize (by omega), lostMsgs_feed payloadSize (by omega)⟩

/-- The reports of the windows add up to the report on the stream exactly when no reset falls
between two messages, that is when at most one window holds any. -/
theorem windows_add_up_iff (payloadSize : UInt64) (ws : List (List UInt64))
    (h : Increasing63 ws.flatten) :
    (((windowReports (new payloadSize) ws).map (·.totalMsgs.toNat)).sum =
          ((new payloadSize).feed ws.flatten).compute.totalMsgs.toNat ∧
        ((windowReports (new payloadSize) ws).map (·.lostMsgs.toNat)).sum =
          ((new payloadSize).feed ws.flatten).compute.lostMsgs.toNat) ↔
      (ws.filter (· ≠ [])).length ≤ 1 := by
  have hw : ∀ w ∈ ws, Increasing63 w := fun w hm => h.sublist (List.sublist_flatten_of_mem hm)
  rw [windowReports_new, (h.stats payloadSize).1, (h.stats payloadSize).2, List.map_map,
    List.map_map]
  have htotal : ws.map ((·.totalMsgs.toNat) ∘ fun w => ((new payloadSize).feed w).compute) =
      ws.map List.length :=
    List.map_congr_left fun w hm => ((hw w hm).stats payloadSize).1
  have hlost : ws.map ((·.lostMsgs.toNat) ∘ fun w => ((new payloadSize).feed w).compute) =
      (ws.map numbers).map (Gaps.gapSum 1) := by
    rw [List.map_map]
    exact List.map_congr_left fun w hm => ((hw w hm).stats payloadSize).2
  have hnum : numbers ws.flatten = (ws.map numbers).flatten := List.map_flatten
  have hin := h.inOrder
  rw [hnum] at hin
  rw [htotal, hlost, hnum, List.length_flatten, Gaps.sum_gapSum_eq_iff hin]
  simp [List.filter_map, Function.comp_def]

/-- Four messages with two gaps, and resets only before the first and after the last. -/
theorem windows_add_up_one :
    ((windowReports (new 256) [[], [1, 2, 5, 9], []]).map (·.lostMsgs.toNat)).sum =
      ((new 256).feed [1, 2, 5, 9]).compute.lostMsgs.toNat :=
  ((windows_add_up_iff 256 [[], [1, 2, 5, 9], []] ⟨by decide, by simp, by simp⟩).mpr
    (by decide)).2

/-- The stream `1, 2` cut between its messages reports one lost message in the second window. -/
theorem not_windows_add_up :
    ¬ ∀ ws : List (List UInt64), Increasing63 ws.flatten →
      ((windowReports (new 256) ws).map (·.totalMsgs.toNat)).sum =
          ((new 256).feed ws.flatten).compute.totalMsgs.toNat ∧
        ((windowReports (new 256) ws).map (·.lostMsgs.toNat)).sum =
          ((new 256).feed ws.flatten).compute.lostMsgs.toNat := by
  intro h
  have hh := (h [[1], [2]] ⟨by decide, by simp, by simp⟩).2
  exact absurd hh (by decide)

end DdsBenchmark.Netload
