import DdsBenchmark.Perf.Losses

/-! What the performance tool says about its subscriber when it ends. The losses of all publishers
are added up in a 64-bit word and held against a run that is to lose nothing, and every publisher
must have delivered enough. As long as the word cannot wrap, nothing lost means that every key of
every publisher has arrived in a row. -/

namespace DdsBenchmark.Perf

open Upsert Interleave Classes

section Loop
variable {nkeys : UInt32} (minReceived : UInt64)

/-- The loop of `main` over the publishers: `nlost` and `received_ok`. -/
def tally (ea : EseqAdmin nkeys) : UInt64 × Bool :=
  ea.foldl (fun r x => (r.1 + x.stats.nlost,
    if x.stats.nrecv < minReceived then false else r.2)) (0, true)

/-- What is left of `ok` after the two errors about the subscriber. -/
def verdict (reliable : Bool) (histdepth : Int32) (ea : EseqAdmin nkeys) : Bool :=
  let (nlost, receivedOk) := tally minReceived ea
  let ok := true
  let ok := if nlost > 0 ∧ (reliable = true ∧ histdepth = 0) then false else ok
  if !receivedOk then false else ok

theorem tally_eq (ea : EseqAdmin nkeys) {f : UInt64 → ℕ}
    (hf : ∀ x ∈ ea, x.stats.nlost = UInt64.ofNat (f x.ph)) :
    tally minReceived ea =
      (UInt64.ofNat ((ea.map EseqEntry.ph).map f).sum,
        ea.all fun x => decide (minReceived ≤ x.stats.nrecv)) := by
  have hgo : ∀ (rs : EseqAdmin nkeys) (r : UInt64 × Bool),
      (∀ x ∈ rs, x.stats.nlost = UInt64.ofNat (f x.ph)) →
      rs.foldl (fun r x => (r.1 + x.stats.nlost,
          if x.stats.nrecv < minReceived then false else r.2)) r =
        (r.1 + UInt64.ofNat ((rs.map EseqEntry.ph).map f).sum,
          r.2 && rs.all fun x => decide (minReceived ≤ x.stats.nrecv)) := by
    intro rs r hrs
    induction rs generalizing r with
    | nil => simp
    | cons x rs ih =>
      rw [List.foldl_cons, ih _ fun y hy => hrs y (List.mem_cons_of_mem _ hy),
        hrs x List.mem_cons_self, List.map_cons, List.map_cons, List.sum_cons, UInt64.ofNat_add,
        UInt64.add_assoc, List.all_cons]
      by_cases hx : x.stats.nrecv < minReceived
      · simp [hx, UInt64.not_le.mpr hx]
      · simp [hx, UInt64.not_lt.mp hx]
  rw [tally, hgo ea _ hf, UInt64.zero_add, Bool.true_and]

end Loop

section Verdict
variable {nkeys : UInt32} [NeZero nkeys.toNat] (sublatency : Bool) {topicsel : Topicsel}

variable (nkeys) in
/-- What the publisher is charged for in all. -/
def charged (xs : List (UInt64 × Delivery)) (p : UInt64) : ℕ :=
  match own p xs with
  | [] => 0
  | d :: ds => lost nkeys d.n (places ds)

theorem charged_le (xs : List (UInt64 × Delivery)) (p : UInt64) :
    charged nkeys xs p ≤ (2 ^ 32 - 1) * (own p xs).length := by
  unfold charged
  cases own p xs with
  | nil => exact Nat.zero_le _
  | cons d ds =>
    calc lost nkeys d.n (places ds) ≤ (2 ^ 32 - 1) * (places ds).length := lost_le nkeys _ _
      _ ≤ (2 ^ 32 - 1) * (d :: ds).length := by
        rw [places, List.length_map, List.length_cons]
        exact Nat.mul_le_mul_left _ (Nat.le_succ _)

variable (nkeys) in
theorem sum_charged_le {keys : List UInt64} (h : keys.Nodup) (xs : List (UInt64 × Delivery)) :
    (keys.map (charged nkeys xs)).sum ≤ (2 ^ 32 - 1) * xs.length := by
  calc (keys.map (charged nkeys xs)).sum
      ≤ (keys.map fun p => (2 ^ 32 - 1) * (own p xs).length).sum :=
        List.sum_le_sum fun p _ => charged_le xs p
    _ = (2 ^ 32 - 1) * (keys.map fun p => (own p xs).length).sum := List.sum_map_mul_left ..
    _ ≤ (2 ^ 32 - 1) * xs.length := Nat.mul_le_mul_left _ (sum_length_own_le h xs)

section Filled
variable {ea : EseqAdmin nkeys} {xs : List (UInt64 × Delivery)} {sublatency}
  (h : Filled sublatency topicsel ea xs)
include h

theorem Filled.nlost (hk : topicsel.keyed = true ∨ nkeys = 1) {x : EseqEntry nkeys}
    (hx : x ∈ ea) : x.stats.nlost = UInt64.ofNat (charged nkeys xs x.ph) := by
  obtain ⟨d, ds, hown, hleft⟩ := h.exists_left hx
  rw [charged, hown, hleft]
  exact (tracks_left sublatency hk x.ph d ds).nlost

theorem Filled.nrecv (hk : topicsel.keyed = true ∨ nkeys = 1) (hlen : xs.length < 2 ^ 64)
    {x : EseqEntry nkeys} (hx : x ∈ ea) : x.stats.nrecv.toNat = (own x.ph xs).length := by
  obtain ⟨d, ds, hown, hleft⟩ := h.exists_left hx
  have hle := sum_length_own_le (List.nodup_singleton x.ph) xs
  rw [List.map_singleton, List.sum_singleton, hown, List.length_cons] at hle
  rw [hown, hleft, (tracks_left sublatency hk x.ph d ds).nrecv, List.length_cons]
  exact UInt64.toNat_ofNat_of_lt' (lt_of_le_of_lt hle hlen)

/-- Nobody is charged exactly when all keys arrive in a row. -/
theorem Filled.sum_charged_eq_zero_iff
    (hnear : ∀ p d ds, own p xs = d :: ds → NearKeys nkeys.toNat d.n (places ds)) :
    ((ea.map EseqEntry.ph).map (charged nkeys xs)).sum = 0 ↔
      ∀ p d ds, own p xs = d :: ds → Gapless nkeys.toNat d.n (places ds) := by
  rw [List.sum_eq_zero_iff]
  constructor
  · intro hzero p d ds hown
    obtain ⟨x, hx, rfl⟩ := h.exists_entry hown
    have hx0 := hzero _ (List.mem_map_of_mem (List.mem_map_of_mem hx))
    rw [charged, hown] at hx0
    exact (lost_eq_zero_iff (hnear _ _ _ hown)).mp hx0
  · intro hgapless n hn
    obtain ⟨p, -, rfl⟩ := List.mem_map.mp hn
    rw [charged]
    cases hown : own p xs with
    | nil => rfl
    | cons d ds => exact (lost_eq_zero_iff (hnear _ _ _ hown)).mpr (hgapless p d ds hown)

theorem Filled.all_le_nrecv_iff (hk : topicsel.keyed = true ∨ nkeys = 1)
    (hlen : xs.length < 2 ^ 64) (minReceived : UInt64) :
    (ea.all fun x => decide (minReceived ≤ x.stats.nrecv)) = true ↔
      ∀ p d ds, own p xs = d :: ds → minReceived.toNat ≤ (d :: ds).length := by
  simp only [List.all_eq_true, decide_eq_true_eq, UInt64.le_iff_toNat_le]
  constructor
  · intro hall p d ds hown
    obtain ⟨x, hx, rfl⟩ := h.exists_entry hown
    rw [← hown, ← h.nrecv hk hlen hx]
    exact hall x hx
  · intro hall x hx
    obtain ⟨d, ds, hown, -⟩ := h.exists_left hx
    rw [h.nrecv hk hlen hx, hown]
    exact hall x.ph d ds hown

end Filled

end Verdict

end DdsBenchmark.Perf
