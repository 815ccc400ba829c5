import Mathlib.Data.Rat.Defs
import Mathlib.Algebra.Order.Field.Rat
import Mathlib.Tactic.Positivity
import Mathlib.Tactic.FieldSimp
import Mathlib.Tactic.Linarith
import DdsBenchmark.Stream.Gaps

/-! The throughput calculator of the subscriber side. Sequence numbers and counters are
64-bit words that wrap; the figures declared `double` are exact rationals. Fed to a fresh
calculator, any stream of words leaves the counters of the gap accounting modulo `2 ^ 64`:
the expected number that wraps to the sentinel `0` behaves as the number `2 ^ 64`, which no
word exceeds. -/

namespace DdsBenchmark.Netload

structure ThroughputStats where
  rateMsgl : ℚ
  bandwidthMbps : ℚ
  totalMsgs : UInt64
  lostMsgs : UInt64
  lossRate : ℚ
  deriving DecidableEq

structure ThroughputCalculator where
  payloadSize : UInt64
  expectedSeq : UInt64
  totalReceived : UInt64
  totalLost : UInt64
  windowStartSec : ℚ
  windowCount : UInt64
  deriving DecidableEq

namespace ThroughputCalculator

/-- The constructor. -/
def new (payloadSize : UInt64) : ThroughputCalculator where
  payloadSize := payloadSize
  expectedSeq := 1
  totalReceived := 0
  totalLost := 0
  windowStartSec := 0
  windowCount := 0

def addReceived (t : ThroughputCalculator) (seq : UInt64) : ThroughputCalculator :=
  let t := if t.expectedSeq = 0 then { t with expectedSeq := seq } else t
  let t := if seq > t.expectedSeq then
      { t with totalLost := t.totalLost + (seq - t.expectedSeq) } else t
  { t with expectedSeq := seq + 1, totalReceived := t.totalReceived + 1 }

def compute (t : ThroughputCalculator) : ThroughputStats where
  rateMsgl := 0
  bandwidthMbps := 0
  totalMsgs := t.totalReceived
  lostMsgs := t.totalLost
  lossRate := if t.totalReceived + t.totalLost > 0 then
      100 * (t.totalLost.toNat : ℚ) / ((t.totalReceived + t.totalLost).toNat : ℚ) else 0

def reset (t : ThroughputCalculator) : ThroughputCalculator :=
  { t with
    expectedSeq := 1
    totalReceived := 0
    totalLost := 0
    windowStartSec := 0
    windowCount := 0 }

/-- The calculator after a stream of arrivals. -/
def feed (t : ThroughputCalculator) (seqs : List UInt64) : ThroughputCalculator :=
  seqs.foldl addReceived t

@[simp] theorem feed_nil (t : ThroughputCalculator) : t.feed [] = t := rfl

@[simp] theorem feed_cons (t : ThroughputCalculator) (seq : UInt64) (seqs : List UInt64) :
    t.feed (seq :: seqs) = (t.addReceived seq).feed seqs := rfl

@[simp] theorem reset_eq_new (t : ThroughputCalculator) : t.reset = new t.payloadSize := rfl

@[simp] theorem addReceived_payloadSize (t : ThroughputCalculator) (seq : UInt64) :
    (t.addReceived seq).payloadSize = t.payloadSize := by
  unfold addReceived
  dsimp only
  split_ifs <;> rfl

@[simp] theorem addReceived_expectedSeq (t : ThroughputCalculator) (seq : UInt64) :
    (t.addReceived seq).expectedSeq = seq + 1 := rfl

@[simp] theorem addReceived_totalReceived (t : ThroughputCalculator) (seq : UInt64) :
    (t.addReceived seq).totalReceived = t.totalReceived + 1 := by
  unfold addReceived
  dsimp only
  split_ifs <;> rfl

/-- The sentinel `0` books nothing, since it is replaced by the arrival itself. -/
theorem addReceived_totalLost (t : ThroughputCalculator) (seq : UInt64) :
    (t.addReceived seq).totalLost =
      if t.expectedSeq ≠ 0 ∧ t.expectedSeq < seq then
        t.totalLost + (seq - t.expectedSeq) else t.totalLost := by
  unfold addReceived
  by_cases hz : t.expectedSeq = 0
  · simp [hz]
  · by_cases hgt : t.expectedSeq < seq <;> simp [hz, hgt]

@[simp] theorem feed_payloadSize (t : ThroughputCalculator) (seqs : List UInt64) :
    (t.feed seqs).payloadSize = t.payloadSize := by
  induction seqs generalizing t with
  | nil => rfl
  | cons seq seqs ih => rw [feed_cons, ih, addReceived_payloadSize]

end ThroughputCalculator

/-! ### The words against the gap accounting -/

/-- The calculator holds the expected number `e` and the counts `received` and `lost`,
each modulo `2 ^ 64`. -/
structure Tracks (t : ThroughputCalculator) (e received lost : ℕ) : Prop where
  expected : t.expectedSeq.toNat = e % 2 ^ 64
  pos : 1 ≤ e
  le : e ≤ 2 ^ 64
  received : t.totalReceived.toNat = received % 2 ^ 64
  lost : t.totalLost.toNat = lost % 2 ^ 64

open ThroughputCalculator

theorem tracks_new (payloadSize : UInt64) : Tracks (new payloadSize) 1 0 0 :=
  ⟨rfl, le_rfl, Nat.one_le_two_pow, rfl, rfl⟩

/-- The expected word is the expected number, or the sentinel when that number wrapped. -/
theorem Tracks.expectedSeq_cases {t : ThroughputCalculator} {e received lost : ℕ}
    (h : Tracks t e received lost) :
    (t.expectedSeq = 0 ∧ e = 2 ^ 64) ∨ (t.expectedSeq ≠ 0 ∧ t.expectedSeq.toNat = e) := by
  obtain ⟨he, hp, hle, _, _⟩ := h
  by_cases hlt : e < 2 ^ 64
  · rw [Nat.mod_eq_of_lt hlt] at he
    refine Or.inr ⟨fun hz => ?_, he⟩
    rw [hz, UInt64.toNat_zero] at he
    omega
  · have h64 : e = 2 ^ 64 := by omega
    rw [h64, Nat.mod_self] at he
    exact Or.inl ⟨UInt64.toNat_inj.mp he, h64⟩

/-- One arrival books the distance it jumps past the expected number. -/
theorem Tracks.lost_addReceived {t : ThroughputCalculator} {e received lost : ℕ}
    (h : Tracks t e received lost) (seq : UInt64) :
    (t.addReceived seq).totalLost.toNat = (lost + (seq.toNat - e)) % 2 ^ 64 := by
  have hs := seq.toNat_lt
  rw [addReceived_totalLost]
  obtain ⟨hz, he⟩ | ⟨hz, he⟩ := h.expectedSeq_cases
  · rw [if_neg (by simp [hz]), h.lost, Nat.sub_eq_zero_of_le (by omega), Nat.add_zero]
  · by_cases hlt : t.expectedSeq < seq
    · rw [if_pos ⟨hz, hlt⟩, UInt64.toNat_add, UInt64.toNat_sub_of_le _ _ (UInt64.le_of_lt hlt),
        he, h.lost, Nat.mod_add_mod]
    · have hle := UInt64.le_iff_toNat_le.mp (UInt64.not_lt.mp hlt)
      rw [if_neg (fun hc => hlt hc.2), h.lost, Nat.sub_eq_zero_of_le (by omega), Nat.add_zero]

theorem Tracks.addReceived {t : ThroughputCalculator} {e received lost : ℕ}
    (h : Tracks t e received lost) (seq : UInt64) :
    Tracks (t.addReceived seq) (seq.toNat + 1) (received + 1) (lost + (seq.toNat - e)) where
  expected := by rw [addReceived_expectedSeq, UInt64.toNat_add, UInt64.toNat_one]
  pos := Nat.le_add_left _ _
  le := seq.toNat_lt
  received := by
    rw [addReceived_totalReceived, UInt64.toNat_add, UInt64.toNat_one, h.received, Nat.mod_add_mod]
  lost := h.lost_addReceived seq

/-- The numbers carried by a stream of words. -/
abbrev numbers (seqs : List UInt64) : List ℕ := seqs.map UInt64.toNat

/-- A whole stream leaves the gap accounting of its numbers. -/
theorem Tracks.feed {t : ThroughputCalculator} {e received lost : ℕ}
    (h : Tracks t e received lost) (seqs : List UInt64) :
    Tracks (t.feed seqs) (Gaps.next e (numbers seqs)) (received + seqs.length)
      (lost + Gaps.gapSum e (numbers seqs)) := by
  induction seqs generalizing t e received lost with
  | nil => exact h
  | cons seq seqs ih =>
    have hh := ih (h.addReceived seq)
    rw [feed_cons]
    simp only [numbers, List.map_cons, Gaps.next, Gaps.gapSum, List.length_cons]
    rwa [show received + (seqs.length + 1) = received + 1 + seqs.length by omega, ← Nat.add_assoc]

/-- The count of a fresh calculator, while it fits. -/
theorem totalMsgs_feed (payloadSize : UInt64) {seqs : List UInt64} (h : seqs.length < 2 ^ 64) :
    ((new payloadSize).feed seqs).compute.totalMsgs.toNat = seqs.length := by
  have ht := ((tracks_new payloadSize).feed seqs).received
  rw [Nat.zero_add, Nat.mod_eq_of_lt h] at ht
  exact ht

/-- The loss of a fresh calculator, while the booked gaps fit. -/
theorem lostMsgs_feed (payloadSize : UInt64) {seqs : List UInt64}
    (h : Gaps.gapSum 1 (numbers seqs) < 2 ^ 64) :
    ((new payloadSize).feed seqs).compute.lostMsgs.toNat = Gaps.gapSum 1 (numbers seqs) := by
  have ht := ((tracks_new payloadSize).feed seqs).lost
  rw [Nat.zero_add, Nat.mod_eq_of_lt h] at ht
  exact ht

/-! ### The loss rate -/

/-- The reported rate, while received and lost messages together fit. -/
theorem lossRate_eq {t : ThroughputCalculator} {received lost : ℕ}
    (hr : t.totalReceived.toNat = received) (hl : t.totalLost.toNat = lost)
    (h : received + lost < 2 ^ 64) :
    t.compute.lossRate = 100 * (lost : ℚ) / ((received : ℚ) + lost) := by
  have hsum : (t.totalReceived + t.totalLost).toNat = received + lost := by
    rw [UInt64.toNat_add, hr, hl, Nat.mod_eq_of_lt h]
  unfold compute
  dsimp only
  rw [hsum, hl]
  split_ifs with hpos
  · push_cast
    rfl
  · have hz : received + lost = 0 := by
      by_contra hne
      refine hpos (UInt64.lt_iff_toNat_lt.mpr ?_)
      rw [hsum, UInt64.toNat_zero]
      omega
    rw [show lost = 0 by omega]
    simp

/-- Among equal numbers of received messages the rate tells the losses apart. -/
theorem rate_inj {received l₁ l₂ : ℕ} (hr : 0 < received) :
    100 * (l₁ : ℚ) / ((received : ℚ) + l₁) = 100 * (l₂ : ℚ) / ((received : ℚ) + l₂) ↔ l₁ = l₂ := by
  have hr' : (0 : ℚ) < received := by exact_mod_cast hr
  have h₁ : (0 : ℚ) < received + l₁ := by positivity
  have h₂ : (0 : ℚ) < received + l₂ := by positivity
  constructor
  · intro h
    rw [div_eq_div_iff h₁.ne' h₂.ne'] at h
    have hm : (received : ℚ) * l₁ = received * l₂ := by linarith
    exact_mod_cast mul_left_cancel₀ hr'.ne' hm
  · rintro rfl
    rfl

end DdsBenchmark.Netload
