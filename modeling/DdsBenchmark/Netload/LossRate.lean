import DdsBenchmark.Netload.LossAccounting

/-! The loss rate as a percentage. The counters of a calculator are exact, and the rate lies
between `0` and `100`, at every report on a stream exactly when the messages received and the
gaps between them fit a counter together. -/

namespace DdsBenchmark.Netload

open ThroughputCalculator

/-- The counters of a calculator and the rate it reports are those of `received` and `lost`
messages in exact arithmetic. -/
structure ExactReport (t : ThroughputCalculator) (received lost : ℕ) : Prop where
  loss : t.totalLost.toNat = lost
  sum : (t.totalReceived + t.totalLost).toNat = received + lost
  rate : t.compute.lossRate = 100 * (lost : ℚ) / ((received : ℚ) + lost)
  nonneg : 0 ≤ t.compute.lossRate
  le : t.compute.lossRate ≤ 100
  zero_iff : t.compute.lossRate = 0 ↔ t.compute.lostMsgs = 0

section Rate
variable {received lost : ℕ}

theorem rate_nonneg : 0 ≤ 100 * (lost : ℚ) / ((received : ℚ) + lost) := by positivity

theorem rate_le : 100 * (lost : ℚ) / ((received : ℚ) + lost) ≤ 100 := by
  have hr : (0 : ℚ) ≤ received := by positivity
  refine div_le_of_le_mul₀ (by positivity) (by positivity) ?_
  linarith

theorem rate_eq_zero_iff : 100 * (lost : ℚ) / ((received : ℚ) + lost) = 0 ↔ lost = 0 := by
  constructor
  · intro h
    rcases div_eq_zero_iff.mp h with hn | hd
    · exact_mod_cast (mul_eq_zero.mp hn).resolve_left (by norm_num)
    · have hsum : received + lost = 0 := by exact_mod_cast hd
      omega
  · rintro rfl
    simp

/-- Counters that fit together report exactly. -/
theorem exactReport_of_lt {t : ThroughputCalculator} (hr : t.totalReceived.toNat = received)
    (hl : t.totalLost.toNat = lost) (h : received + lost < 2 ^ 64) :
    ExactReport t received lost := by
  have hrate := lossRate_eq hr hl h
  refine ⟨hl, ?_, hrate, ?_, ?_, ?_⟩
  · rw [UInt64.toNat_add, hr, hl, Nat.mod_eq_of_lt h]
  · exact hrate ▸ rate_nonneg
  · exact hrate ▸ rate_le
  · rw [hrate, rate_eq_zero_iff, ← UInt64.toNat_inj]
    exact Iff.of_eq (congrArg (· = 0) hl.symm)

end Rate

/-- Every report on a stream is exact if and only if the messages and the gaps of the whole
stream fit a counter together. -/
theorem exactReport_iff (payloadSize : UInt64) (seqs : List UInt64) :
    (∀ arrived, arrived <+: seqs → ExactReport ((new payloadSize).feed arrived) arrived.length
        (countedGaps (new payloadSize) arrived)) ↔
      seqs.length + Gaps.gapSum 1 (numbers seqs) < 2 ^ 64 := by
  simp only [(tracks_new payloadSize).countedGaps_eq]
  constructor
  · intro h
    rw [← (h seqs List.prefix_rfl).sum]
    exact UInt64.toNat_lt _
  · rintro h arrived ⟨rest, rfl⟩
    have hgaps : Gaps.gapSum 1 (numbers (arrived ++ rest)) =
        Gaps.gapSum 1 (numbers arrived) + Gaps.gapSum _ (numbers rest) :=
      (congrArg (Gaps.gapSum 1) List.map_append).trans (Gaps.gapSum_append 1 _ _)
    rw [List.length_append] at h
    exact exactReport_of_lt (totalMsgs_feed payloadSize (by omega))
      (lostMsgs_feed payloadSize (by omega)) (by omega)

/-- Two jumps that add up to `2 ^ 64 - 1` lost messages: the rate is far above `100`. -/
theorem not_exactReport :
    ¬ ∀ seqs arrived : List UInt64, arrived <+: seqs →
      ExactReport ((new 256).feed arrived) arrived.length (countedGaps (new 256) arrived) := by
  intro h
  have hle := (h [2 ^ 64 - 2, 0, 3] [2 ^ 64 - 2, 0, 3] List.prefix_rfl).le
  exact absurd hle (by decide +kernel)

end DdsBenchmark.Netload
