import DdsBenchmark.Perf.Latency
import DdsBenchmark.Perf.Samples
import DdsBenchmark.Stream.Classes
import DdsBenchmark.Table.Upsert

/-! The sequence check of the performance tool's subscriber. One entry for each publication
handle holds its totals and, for each key value, the sequence number expected next. Sequence
numbers are 32-bit words that wrap, totals are 64-bit words. Sample `n` of a publisher carries the
number `n` and, in a topic with a key, the key `n % nkeys`, so the samples are dealt out to the
keys in turn. -/

namespace DdsBenchmark.Perf

open Upsert Interleave Classes

/-- The counters of `eseq_stat` that the printer keeps copies of. -/
structure EseqTotals where
  nrecv : UInt64
  nlost : UInt64
  nrecvBytes : UInt64
  deriving DecidableEq

structure EseqStat extends EseqTotals where
  lastSize : UInt32
  ref : Fin 10 → EseqTotals
  refidx : Fin 10
  info : Latencystat
  deriving DecidableEq

/-- One place of the arrays of `eseq_admin`, which all have `nph` places. -/
structure EseqEntry (nkeys : UInt32) where
  ph : UInt64
  pph : UInt64
  stats : EseqStat
  eseq : Fin nkeys.toNat → UInt32
  deriving DecidableEq

abbrev EseqAdmin (nkeys : UInt32) := List (EseqEntry nkeys)

variable {nkeys : UInt32}

def initEseqAdmin (nkeys : UInt32) : EseqAdmin nkeys := []

def EseqTotals.zeroed : EseqTotals := ⟨0, 0, 0⟩

def EseqStat.zeroed : EseqStat where
  toEseqTotals := .zeroed
  lastSize := 0
  ref := fun _ => .zeroed
  refidx := 0
  info := .zeroed

namespace EseqEntry

/-- The branch for a publication that has an entry. -/
def received (sublatency : Bool) (a : Arrival) (k : Fin nkeys.toNat) (x : EseqEntry nkeys) :
    EseqEntry nkeys :=
  let e := x.eseq k
  { x with
    eseq := Function.update x.eseq k (a.seq + nkeys)
    stats :=
      { x.stats with
        nrecv := x.stats.nrecv + 1
        nrecvBytes := x.stats.nrecvBytes + a.size.toUInt64
        nlost := x.stats.nlost + (a.seq - e).toUInt64
        lastSize := a.size
        info := if sublatency then x.stats.info.update a.tdelta else x.stats.info } }

/-- The entry made for a publication on its first sample. -/
def first (sublatency : Bool) (pubhandle : UInt64) (a : Arrival) : EseqEntry nkeys where
  ph := pubhandle
  pph := a.pphandle
  eseq := fun i => a.seq + (UInt32.ofNat i - a.keyval) +
    (if UInt32.ofNat i ≤ a.keyval then nkeys else 0)
  stats :=
    { EseqStat.zeroed with
      nrecv := 1
      nrecvBytes := a.size.toUInt64
      lastSize := a.size
      info := if sublatency then Latencystat.zeroed.init.update a.tdelta else .zeroed }

end EseqEntry

/-- `check_eseq`, with its result. A key value out of range ends the process with code 3. -/
def checkEseq (sublatency : Bool) (ea : EseqAdmin nkeys) (pubhandle : UInt64) (a : Arrival) :
    Option (EseqAdmin nkeys × Bool) :=
  if h : a.keyval.toNat < nkeys.toNat then
    let k : Fin nkeys.toNat := ⟨a.keyval.toNat, h⟩
    some (upsert EseqEntry.ph pubhandle (.received sublatency a k) (.first sublatency pubhandle a)
        ea,
      (entry EseqEntry.ph pubhandle ea).elim true fun x => a.seq == x.eseq k)
  else none

/-- Samples in a row, each with its publication handle. -/
def receive (sublatency : Bool) (ea : EseqAdmin nkeys) :
    List (UInt64 × Arrival) → Option (EseqAdmin nkeys)
  | [] => some ea
  | x :: xs => (checkEseq sublatency ea x.1 x.2).bind fun r => receive sublatency r.1 xs

/-! ### Samples of publishers -/

section Run
variable [NeZero nkeys.toNat] (sublatency : Bool) (topicsel : Topicsel)

/-- What a delivery makes of the entry of its publisher. -/
def deliver (d : Delivery) (x : EseqEntry nkeys) : EseqEntry nkeys :=
  x.received sublatency (d.arrival topicsel nkeys) (classOf nkeys.toNat d.n)

/-- The entry its first delivery makes for a publisher. -/
def opened (pubhandle : UInt64) (d : Delivery) : EseqEntry nkeys :=
  .first sublatency pubhandle (d.arrival topicsel nkeys)

variable {topicsel} in
theorem keyval_toNat (hk : topicsel.keyed = true ∨ nkeys = 1) (d : Delivery) :
    (d.arrival topicsel nkeys).keyval.toNat = classOf nkeys.toNat d.n := by
  have h := (classOf nkeys.toNat d.n).isLt
  have hlt := nkeys.toNat_lt
  rw [keyval_arrival hk]
  exact UInt32.toNat_ofNat_of_lt' (show d.n % nkeys.toNat < 2 ^ 32 from h.trans hlt)

variable {topicsel} in
/-- The samples of publishers never end the process, and each moves the entry of its own. -/
theorem receive_deliveries (hk : topicsel.keyed = true ∨ nkeys = 1) (ea : EseqAdmin nkeys)
    (xs : List (UInt64 × Delivery)) :
    receive sublatency ea (xs.map fun x => (x.1, x.2.arrival topicsel nkeys)) =
      some (upserts EseqEntry.ph (deliver sublatency topicsel) (opened sublatency topicsel)
        ea xs) := by
  induction xs generalizing ea with
  | nil => rfl
  | cons x xs ih =>
    have hkey := keyval_toNat hk x.2
    have hlt : (x.2.arrival topicsel nkeys).keyval.toNat < nkeys.toNat := by
      rw [hkey]
      exact Fin.isLt _
    have hfin : (⟨(x.2.arrival topicsel nkeys).keyval.toNat, hlt⟩ : Fin nkeys.toNat) =
        classOf nkeys.toNat x.2.n := Fin.ext hkey
    rw [List.map_cons, receive, checkEseq, dif_pos hlt, Option.bind_some, ih, hfin]
    rfl

/-! ### The words against the numbers -/

omit [NeZero nkeys.toNat] in
theorem toNat_sub_ofNat (m n : ℕ) :
    (UInt32.ofNat m - UInt32.ofNat n).toNat = (m + (2 ^ 32 - n % 2 ^ 32)) % 2 ^ 32 := by
  rw [UInt32.toNat_sub, UInt32.toNat_ofNat', UInt32.toNat_ofNat']
  omega

/-- What the 32-bit difference books when entry `j` of a key comes where `e` was expected. -/
def gap32 (K e j : ℕ) : ℕ := (K * j + (2 ^ 32 - K * e % 2 ^ 32)) % 2 ^ 32

theorem gap32_lt (K e j : ℕ) : gap32 K e j < 2 ^ 32 := Nat.mod_lt _ (by norm_num)

theorem gap32_eq (K e j k : ℕ) :
    (UInt32.ofNat (K * j + k) - UInt32.ofNat (K * e + k)).toNat = gap32 K e j := by
  rw [toNat_sub_ofNat, gap32]
  omega

/-- The entry holds, for each key, the expected entry `e`, and the totals of the numbers. -/
structure Tracks (x : EseqEntry nkeys) (e : Fin nkeys.toNat → ℕ) (nrecv nlost nbytes : ℕ) :
    Prop where
  eseq : ∀ k, x.eseq k = UInt32.ofNat (nkeys.toNat * e k + k)
  nrecv : x.stats.nrecv = UInt64.ofNat nrecv
  nlost : x.stats.nlost = UInt64.ofNat nlost
  nbytes : x.stats.nrecvBytes = UInt64.ofNat nbytes

theorem seq_eq (d : Delivery) :
    (d.arrival topicsel nkeys).seq =
      UInt32.ofNat (nkeys.toNat * (d.n / nkeys.toNat) + classOf nkeys.toNat d.n) := by
  rw [mul_add_classOf]
  rfl

/-- One sample moves the expectation of its own key and books the gap of that key. -/
theorem Tracks.deliver {x : EseqEntry nkeys} {e : Fin nkeys.toNat → ℕ} {nrecv nlost nbytes : ℕ}
    (h : Tracks x e nrecv nlost nbytes) (d : Delivery) :
    Tracks (deliver sublatency topicsel d x)
      (Function.update e (classOf nkeys.toNat d.n) (d.n / nkeys.toNat + 1)) (nrecv + 1)
      (nlost + gap32 nkeys.toNat (e (classOf nkeys.toNat d.n)) (d.n / nkeys.toNat))
      (nbytes + d.size.toNat) where
  eseq k := by
    show Function.update x.eseq (classOf nkeys.toNat d.n) _ k = _
    by_cases hk : k = classOf nkeys.toNat d.n
    · subst hk
      rw [Function.update_self, Function.update_self, seq_eq, Nat.mul_succ, Nat.add_right_comm,
        UInt32.ofNat_add _ nkeys.toNat, UInt32.ofNat_toNat]
    · rw [Function.update_of_ne hk, Function.update_of_ne hk, h.eseq]
  nrecv := by
    show x.stats.nrecv + 1 = _
    rw [h.nrecv, UInt64.ofNat_add]
    rfl
  nlost := by
    show x.stats.nlost + UInt32.toUInt64 _ = _
    rw [h.nlost, h.eseq, seq_eq, UInt64.ofNat_add, ← gap32_eq, ← UInt64.ofNat_uInt32ToNat]
  nbytes := by
    show x.stats.nrecvBytes + d.size.toUInt64 = _
    rw [h.nbytes, UInt64.ofNat_add, ← UInt64.ofNat_uInt32ToNat]

variable {topicsel} in
theorem tracks_opened (hk : topicsel.keyed = true ∨ nkeys = 1) (pubhandle : UInt64)
    (d : Delivery) :
    Tracks (opened sublatency topicsel pubhandle d : EseqEntry nkeys) (after d.n) 1 0
      d.size.toNat where
  eseq k := by
    have hlt : k.val < 2 ^ 32 := k.isLt.trans nkeys.toNat_lt
    have hc : (classOf nkeys.toNat d.n).val < 2 ^ 32 :=
      (classOf nkeys.toNat d.n).isLt.trans nkeys.toNat_lt
    have hkey := keyval_toNat hk d
    have hle : UInt32.ofNat k ≤ (d.arrival topicsel nkeys).keyval ↔
        k ≤ classOf nkeys.toNat d.n := by
      rw [UInt32.le_iff_toNat_le, hkey, UInt32.toNat_ofNat_of_lt' hlt, Fin.le_def]
    have hn := mul_add_classOf nkeys.toNat d.n
    show (d.arrival topicsel nkeys).seq + (UInt32.ofNat k - (d.arrival topicsel nkeys).keyval) +
      (if UInt32.ofNat k ≤ (d.arrival topicsel nkeys).keyval then nkeys else 0) = _
    rw [← UInt32.toNat_inj, UInt32.toNat_add, UInt32.toNat_add, UInt32.toNat_sub, hkey,
      UInt32.toNat_ofNat_of_lt' hlt, seq_eq, UInt32.toNat_ofNat', UInt32.toNat_ofNat', after]
    by_cases h : k ≤ classOf nkeys.toNat d.n
    · rw [if_pos (hle.mpr h), if_pos h, Nat.mul_succ]
      rw [Fin.le_def] at h
      omega
    · rw [if_neg (mt hle.mp h), if_neg h, UInt32.toNat_zero]
      rw [Fin.le_def] at h
      omega
  nrecv := rfl
  nlost := rfl
  nbytes := (UInt64.ofNat_uInt32ToNat _).symm

/-- The entry expected behind an arrival. -/
def succ (_ j : ℕ) : ℕ := j + 1

/-- The numbers of deliveries. -/
abbrev places (ds : List Delivery) : List ℕ := ds.map Delivery.n

/-- All samples of one publisher move the expectations key by key and book what the keys book. -/
theorem Tracks.deliveries {x : EseqEntry nkeys} {e : Fin nkeys.toNat → ℕ} {nrecv nlost nbytes : ℕ}
    (h : Tracks x e nrecv nlost nbytes) (ds : List Delivery) :
    Tracks (ds.foldl (fun x d => Perf.deliver sublatency topicsel d x) x)
      (run succ e (deal nkeys.toNat (places ds))) (nrecv + ds.length)
      (nlost + total succ (gap32 nkeys.toNat) e (deal nkeys.toNat (places ds)))
      (nbytes + (ds.map fun d => d.size.toNat).sum) := by
  induction ds generalizing x e nrecv nlost nbytes with
  | nil => exact h
  | cons d ds ih =>
    have hd := ih (h.deliver sublatency topicsel d)
    simp only [List.foldl_cons, places, List.map_cons, deal, run, total, List.length_cons,
      List.sum_cons, succ] at hd ⊢
    rwa [add_assoc nrecv, add_comm 1, add_assoc nlost, add_assoc nbytes] at hd

end Run

/-! ### What the differences add up to -/

/-- No arrival is `2 ^ 32` sequence numbers or more away from what its key expects. -/
def Near (K : ℕ) : ℕ → List ℕ → Prop
  | _, [] => True
  | e, j :: js => (K * (j - e) < 2 ^ 32 ∧ K * (e - j) < 2 ^ 32) ∧ Near K (j + 1) js

instance (K e : ℕ) (js : List ℕ) : Decidable (Near K e js) := by
  induction js generalizing e with
  | nil => exact instDecidableTrue
  | cons j js ih => exact instDecidableAnd

theorem gap32_add {K e j : ℕ} (hK : 0 < K) (h : K * (j - e) < 2 ^ 32 ∧ K * (e - j) < 2 ^ 32) :
    gap32 K e j + K * (e - j) = K * (j - e) + if j < e then 2 ^ 32 else 0 := by
  rcases Nat.lt_or_ge j e with hlt | hle
  · have hpos : 0 < K * (e - j) := Nat.mul_pos hK (by omega)
    have he : K * e = K * j + K * (e - j) := by rw [← Nat.mul_add]; congr 1; omega
    rw [if_pos hlt, Nat.sub_eq_zero_of_le hlt.le, gap32, he, Nat.mul_zero]
    omega
  · have hj : K * j = K * e + K * (j - e) := by rw [← Nat.mul_add]; congr 1; omega
    rw [if_neg (by omega), Nat.sub_eq_zero_of_le hle, gap32, hj, Nat.mul_zero]
    omega

/-- A key books `K` for every number it skips, and takes `K` back from `2 ^ 32` for every number
by which an arrival comes late. -/
theorem charge_gap32 {K e : ℕ} {js : List ℕ} (hK : 0 < K) (h : Near K e js) :
    charge succ (gap32 K) e js + K * Gaps.rollback e js =
      K * Gaps.gapSum e js + 2 ^ 32 * Gaps.late e js := by
  induction js generalizing e with
  | nil => rfl
  | cons j js ih =>
    have hj := gap32_add hK h.1
    have hjs := ih h.2
    simp only [charge, succ, Gaps.rollback, Gaps.gapSum, Gaps.late, Nat.mul_add] at hjs ⊢
    rw [show 2 ^ 32 * (if j < e then 1 else 0) = if j < e then 2 ^ 32 else 0 by split_ifs <;> rfl]
    omega

theorem charge_gap32_of_inOrder {K e : ℕ} {js : List ℕ} (hK : 0 < K) (h : Near K e js)
    (ho : Gaps.InOrder e js) : charge succ (gap32 K) e js = K * (Gaps.missing e js).card := by
  have hc := charge_gap32 hK h
  rw [Gaps.rollback_of_inOrder ho, (Gaps.late_eq_zero_iff e js).mpr ho, ho.gapSum_eq] at hc
  omega

theorem charge_gap32_le {K e : ℕ} (js : List ℕ) :
    charge succ (gap32 K) e js ≤ (2 ^ 32 - 1) * js.length := by
  induction js generalizing e with
  | nil => exact Nat.zero_le _
  | cons j js ih =>
    have hj := gap32_lt K e j
    have hjs := ih (e := j + 1)
    simp only [charge, succ, List.length_cons, Nat.mul_succ] at hjs ⊢
    omega

/-- Nothing is booked exactly when the entries come in a row from the expected one. -/
theorem charge_gap32_eq_zero_iff {K e : ℕ} {js : List ℕ} (hK : 0 < K) (h : Near K e js) :
    charge succ (gap32 K) e js = 0 ↔ js = List.range' e js.length := by
  induction js generalizing e with
  | nil => simp [charge]
  | cons j js ih =>
    have hj := gap32_add hK h.1
    have hcost : gap32 K e j = 0 ↔ j = e := by
      constructor
      · intro h0
        have hnear := h.1.2
        rw [h0] at hj
        rcases Nat.lt_trichotomy j e with hlt | rfl | hlt
        · rw [if_pos hlt, Nat.sub_eq_zero_of_le hlt.le] at hj
          omega
        · rfl
        · have : 0 < K * (j - e) := Nat.mul_pos hK (by omega)
          rw [if_neg (by omega), Nat.sub_eq_zero_of_le hlt.le] at hj
          omega
      · rintro rfl
        simpa using hj
    rw [charge, Nat.add_eq_zero_iff, hcost, succ, ih h.2, List.length_cons, List.range'_succ,
      List.cons.injEq]
    exact and_congr_right fun he => by rw [he]

end DdsBenchmark.Perf
